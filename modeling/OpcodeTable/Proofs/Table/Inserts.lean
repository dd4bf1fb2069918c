import Mathlib.Data.List.Induction
import OpcodeTable.Proofs.Table.Overlap

namespace OpcodeTable

def NewAt (rs : List Record) (r : Record) (k : Nat) : Prop := ∀ s ∈ rs.take k, s.name ≠ r.name

instance (rs : List Record) (r : Record) (k : Nat) : Decidable (NewAt rs r k) :=
  inferInstanceAs (Decidable (∀ s ∈ rs.take k, s.name ≠ r.name))

/-- The records whose name none of the records before them has. -/
def firsts (rs : List Record) : List Record :=
  (rs.zipIdx.filter fun p => NewAt rs p.1 p.2).map Prod.fst

theorem firsts_concat (rs : List Record) (r : Record) :
    firsts (rs ++ [r]) = firsts rs ++ if ∀ s ∈ rs, s.name ≠ r.name then [r] else [] := by
  have hzip : (rs ++ [r]).zipIdx = rs.zipIdx ++ [(r, rs.length)] := by
    rw [List.zipIdx_append, Nat.zero_add]
    rfl
  have hbefore : (rs.zipIdx.filter fun p => NewAt (rs ++ [r]) p.1 p.2) =
      rs.zipIdx.filter fun p => NewAt rs p.1 p.2 := by
    apply List.filter_congr
    rintro ⟨s, k⟩ hmem
    have hk : k < rs.length := by simpa using (List.mem_zipIdx hmem).2.1
    rw [decide_eq_decide, NewAt, NewAt, List.take_append_of_le_length (Nat.le_of_lt hk)]
  have hlast : NewAt (rs ++ [r]) r rs.length ↔ ∀ s ∈ rs, s.name ≠ r.name := by
    rw [NewAt, List.take_left]
  rw [firsts, hzip, List.filter_append, hbefore, List.map_append, ← firsts]
  by_cases hnew : ∀ s ∈ rs, s.name ≠ r.name
  · rw [if_pos hnew, List.filter_cons_of_pos (by simpa [hlast] using hnew)]
    rfl
  · rw [if_neg hnew, List.filter_cons_of_neg (by simpa [hlast] using hnew)]
    rfl

namespace Table

variable {t t' : Table} {r : Record} {name : String} {rs : List Record}

theorem insert_eq_ok_of_not_mem (h : r.name ∉ t.names) : ∃ t', t.insert r = .ok t' := by
  rw [insert, dif_neg (fun hcontains => h (contains_iff.1 hcontains))]
  exact ⟨_, rfl⟩

def after (t : Table) : List Record → Table
  | [] => t
  | r :: rs =>
    match t.insert r with
    | .ok t' => t'.after rs
    | .error _ => t.after rs

theorem after_append (t : Table) (rs ss : List Record) :
    t.after (rs ++ ss) = (t.after rs).after ss := by
  induction rs generalizing t with
  | nil => rfl
  | cons r rs ih =>
    rw [List.cons_append, after, after]
    cases t.insert r with
    | ok t' => exact ih t'
    | error fault => exact ih t

theorem after_singleton_of_ok (h : t.insert r = .ok t') : t.after [r] = t' := by
  rw [after, h]
  rfl

theorem after_singleton_of_error {fault : Fault} (h : t.insert r = .error fault) :
    t.after [r] = t := by
  rw [after, h]
  rfl

theorem mem_names_after :
    name ∈ (t.after rs).names ↔ name ∈ t.names ∨ ∃ r ∈ rs, r.name = name := by
  induction rs using List.reverseRecOn with
  | nil => simp [after]
  | append_singleton rs r ih =>
    have hconcat : (∃ s ∈ rs ++ [r], s.name = name) ↔ (∃ s ∈ rs, s.name = name) ∨ r.name = name := by
      simp [or_and_right, exists_or]
    rw [after_append, hconcat, ← or_assoc, ← ih]
    by_cases hmem : r.name ∈ (t.after rs).names
    · rw [after_singleton_of_error (insert_eq_error_of_mem hmem)]
      exact (or_iff_left_of_imp fun h => h ▸ hmem).symm
    · obtain ⟨t', ht'⟩ := insert_eq_ok_of_not_mem hmem
      rw [after_singleton_of_ok ht', names, records_insert ht']
      simp [names, eq_comm]

theorem mem_names_after_empty : name ∈ (empty.after rs).names ↔ ∃ r ∈ rs, r.name = name := by
  rw [mem_names_after]
  exact or_iff_right List.not_mem_nil

theorem insert_after_eq_ok (h : ∀ s ∈ rs, s.name ≠ r.name) :
    ∃ t', (empty.after rs).insert r = .ok t' := by
  refine insert_eq_ok_of_not_mem fun hmem => ?_
  obtain ⟨s, hs, hname⟩ := mem_names_after_empty.1 hmem
  exact h s hs hname

theorem insert_after_eq_error (h : ∃ s ∈ rs, s.name = r.name) :
    (empty.after rs).insert r = .error .duplicateName :=
  insert_eq_error_of_mem (mem_names_after_empty.2 h)

theorem records_after (rs : List Record) : (empty.after rs).records = firsts rs := by
  induction rs using List.reverseRecOn with
  | nil => rfl
  | append_singleton rs r ih =>
    rw [after_append, firsts_concat, ← ih]
    by_cases hnew : ∀ s ∈ rs, s.name ≠ r.name
    · obtain ⟨t', ht'⟩ := insert_after_eq_ok hnew
      rw [if_pos hnew, after_singleton_of_ok ht', records_insert ht']
    · have htaken : ∃ s ∈ rs, s.name = r.name := by simpa using hnew
      rw [if_neg hnew, after_singleton_of_error (insert_after_eq_error htaken), List.append_nil]

theorem get?_eq_some_iff : t.get? name = some r ↔ r ∈ t.records ∧ r.name = name := by
  constructor
  · intro h
    exact ⟨List.mem_of_find?_eq_some h, by simpa using List.find?_some h⟩
  · rintro ⟨hr, rfl⟩
    exact get?_name hr

theorem get?_eq_none_iff : t.get? name = none ↔ t.contains name = false := by
  simp [get?, contains]

end Table

end OpcodeTable
