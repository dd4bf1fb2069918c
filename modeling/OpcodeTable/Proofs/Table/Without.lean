import OpcodeTable.Proofs.List.Pointwise
import OpcodeTable.Proofs.Table.Overlap

/-!
Tables without a name. Where only pseudo records go by the name, the table without them does the
same with every definition of another name: it finds the same real words and the same other names
taken.
-/

namespace OpcodeTable

namespace Table

/-- The second table is the first without its records of the name, all of them pseudo. -/
structure Without (name : String) (t u : Table) : Prop where
  records_eq : u.records = t.records.filter fun r => r.name ≠ name
  isPseudo : ∀ r ∈ t.records, r.name = name → r.isPseudo = true

namespace Without

variable {name : String} {t u : Table}

theorem empty (name : String) : Without name .empty .empty := ⟨rfl, nofun⟩

theorem real_eq (h : Without name t u) : u.real = t.real := by
  rw [real, real, h.records_eq, List.filter_filter]
  apply List.filter_congr
  intro r hr
  cases hpseudo : r.isPseudo with
  | true => rfl
  | false =>
    have hname : r.name ≠ name := by
      intro hname
      rw [h.isPseudo r hr hname] at hpseudo
      cases hpseudo
    simp [hname]

theorem pseudo_eq (h : Without name t u) : u.pseudo = t.pseudo.filter fun r => r.name ≠ name := by
  rw [pseudo, pseudo, h.records_eq, List.filter_filter, List.filter_filter]
  simp only [Bool.and_comm]

theorem contains_eq (h : Without name t u) {other : String} (hother : other ≠ name) :
    u.contains other = t.contains other := by
  rw [contains, contains, h.records_eq, List.any_filter]
  congr
  funext r
  by_cases hr : r.name = other
  · simp [hr, hother]
  · simp [hr]

theorem checkOverlap_eq (h : Without name t u) (e : Encoding) :
    u.checkOverlap e = t.checkOverlap e := by
  rw [checkOverlap, checkOverlap, h.real_eq]

theorem insert (h : Without name t u) {r : Record} (hr : r.name ≠ name) :
    Except.Rel Eq (Without name) (t.insert r) (u.insert r) := by
  have hcontains := h.contains_eq hr
  cases hc : t.contains r.name with
  | true =>
    rw [Table.insert, Table.insert, dif_pos hc, dif_pos (hcontains.trans hc)]
    exact .error rfl
  | false =>
    rw [Table.insert, Table.insert, dif_neg (by simp [hc]), dif_neg (by simp [hcontains, hc])]
    refine .ok ⟨?_, ?_⟩
    · simp [h.records_eq, hr]
    · intro s hs hname
      rw [List.mem_append, List.mem_singleton] at hs
      cases hs with
      | inl hs => exact h.isPseudo s hs hname
      | inr hs =>
        subst hs
        exact absurd hname hr

theorem define (h : Without name t u) {d : Draft} (hd : d.name ≠ name) :
    Except.Rel Eq (Without name) (t.define d) (u.define d) :=
  define_rel rfl rfl (h.checkOverlap_eq d.encoding).symm fun _ => h.insert hd

theorem concat (h : Without name t u) {t' : Table} {r : Record}
    (hrec : t'.records = t.records ++ [r]) (hname : r.name = name) (hr : r.isPseudo = true) :
    Without name t' u where
  records_eq := by simp [hrec, h.records_eq, hname]
  isPseudo := by
    intro s hs hsname
    rw [hrec, List.mem_append, List.mem_singleton] at hs
    cases hs with
    | inl hs => exact h.isPseudo s hs hsname
    | inr hs =>
      subst hs
      exact hr

end Without

end Table

/-- The diagnostic is about an instruction of the name, or says that one overlaps it. -/
def Diagnostic.Involves (d : Diagnostic) (name : String) : Prop :=
  d.instruction = some name ∨
    d.message = "pseudo instruction overlaps pseudo instruction " ++ name

instance (d : Diagnostic) (name : String) : Decidable (d.Involves name) :=
  inferInstanceAs (Decidable (_ ∨ _))

theorem Diagnostic.involves_pseudoOverlap_iff {earlier later name : String} {span : Option Span} :
    (pseudoOverlap (some later) ("pseudo instruction overlaps pseudo instruction " ++ earlier)
        span).Involves name ↔
      later = name ∨ earlier = name := by
  simp [Involves, pseudoOverlap, String.append_right_inj]

theorem Table.Without.warnings_eq {name : String} {t u : Table} (h : Table.Without name t u) :
    u.warnings = t.warnings.filter fun d => ¬ d.Involves name := by
  rw [Table.warnings_eq, Table.warnings_eq, Table.pseudoOverlaps, Table.pseudoOverlaps, h.pseudo_eq,
    overlapping_filter]
  refine (filter_map_eq fun x _ => ?_).symm
  simp [Diagnostic.involves_pseudoOverlap_iff, and_comm]

end OpcodeTable
