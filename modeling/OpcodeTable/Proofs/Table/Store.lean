import OpcodeTable.Proofs.Table.Inserts

/-!
The table as it is held in memory: the records in a row, and beside them the position of each name.
The two are written one after the other, and what is looked up by a name goes through both.
-/

namespace OpcodeTable

structure Store where
  records : Array Record := #[]
  position : Std.HashMap String Nat := ∅

abbrev Storing := EStateM Fault Store

namespace Store

def contains (s : Store) (name : String) : Bool := s.position.contains name

def get? (s : Store) (name : String) : Option Record :=
  s.position[name]?.bind fun k => s.records[k]?

def insert (r : Record) : Storing Unit := do
  if (← get).contains r.name then throw .duplicateName
  -- The position is noted before the record is there.
  modify fun s => { s with position := s.position.insert r.name s.records.size }
  modify fun s => { s with records := s.records.push r }

def push (s : Store) (r : Record) : Store where
  records := s.records.push r
  position := s.position.insert r.name s.records.size

theorem run_insert (r : Record) (s : Store) :
    (insert r).run s =
      if s.contains r.name then .error .duplicateName s else .ok () (s.push r) := by
  unfold insert
  cases h : s.contains r.name with
  | true => simp [h]
  | false => simp [h, push]

def after (s : Store) : List Record → Store
  | [] => s
  | r :: rs =>
    match (insert r).run s with
    | .ok _ s' => s'.after rs
    | .error _ s' => s'.after rs

/-- The store holds the records of the table, and the position of a name is where the record of the
name stands. -/
structure Represents (s : Store) (t : Table) : Prop where
  records : s.records.toList = t.records
  position_iff : ∀ name k,
    s.position[name]? = some k ↔ ∃ r : Record, s.records[k]? = some r ∧ r.name = name

namespace Represents

variable {s : Store} {t t' : Table} {r : Record}

theorem initial : Represents {} Table.empty where
  records := rfl
  position_iff name k := by simp

theorem mem_records_iff (h : s.Represents t) :
    r ∈ t.records ↔ ∃ k : Nat, s.records[k]? = some r := by
  rw [← h.records, Array.mem_toList_iff, Array.mem_iff_getElem?]

theorem get?_eq (h : s.Represents t) (name : String) : s.get? name = t.get? name := by
  apply Option.ext
  intro r
  rw [Table.get?_eq_some_iff, h.mem_records_iff, get?, Option.bind_eq_some_iff]
  constructor
  · rintro ⟨k, hk, hr⟩
    obtain ⟨q, hq, hname⟩ := (h.position_iff name k).1 hk
    obtain rfl := Option.some.inj (hr.symm.trans hq)
    exact ⟨⟨k, hr⟩, hname⟩
  · rintro ⟨⟨k, hr⟩, hname⟩
    exact ⟨k, (h.position_iff name k).2 ⟨r, hr, hname⟩, hr⟩

theorem contains_eq (h : s.Represents t) (name : String) : s.contains name = t.contains name := by
  rw [Bool.eq_iff_iff, Table.contains_iff, Table.names, List.mem_map, contains,
    Std.HashMap.contains_eq_isSome_getElem?, Option.isSome_iff_exists]
  constructor
  · rintro ⟨k, hk⟩
    obtain ⟨r, hr, hname⟩ := (h.position_iff name k).1 hk
    exact ⟨r, h.mem_records_iff.2 ⟨k, hr⟩, hname⟩
  · rintro ⟨r, hr, hname⟩
    obtain ⟨k, hk⟩ := h.mem_records_iff.1 hr
    exact ⟨k, (h.position_iff name k).2 ⟨r, hk, hname⟩⟩

theorem push (h : s.Represents t) (hins : t.insert r = .ok t') : (s.push r).Represents t' where
  records := by
    rw [Table.records_insert hins, ← h.records]
    exact Array.toList_push
  position_iff name k := by
    have hnew : r.name ∉ t.names := (Table.insert_eq_ok_iff.1 hins).1
    have hother : ∀ (j : Nat) (q : Record), s.records[j]? = some q → q.name ≠ r.name :=
      fun j q hq hname => hnew (List.mem_map.2 ⟨q, h.mem_records_iff.2 ⟨j, hq⟩, hname⟩)
    have hend : s.records[s.records.size]? = none := Array.getElem?_size
    rw [Store.push, Std.HashMap.getElem?_insert, Array.getElem?_push]
    by_cases hname : r.name = name
    · -- No record before has the name, so the new one at the end is the only one with it.
      subst hname
      rw [beq_self_eq_true, if_pos rfl, Option.some.injEq]
      constructor
      · rintro rfl
        exact ⟨r, if_pos rfl, rfl⟩
      · rintro ⟨q, hq, hname⟩
        split at hq
        next hk => exact hk.symm
        next => exact absurd hname (hother k q hq)
    · rw [if_neg (by simpa using hname), h.position_iff]
      apply exists_congr
      intro q
      split
      next hk =>
        subst hk
        rw [hend]
        exact iff_of_false nofun fun hq => hname (Option.some.inj hq.1 ▸ hq.2)
      next => exact Iff.rfl

theorem run_insert (h : s.Represents t) (r : Record) :
    (insert r).run s =
      match t.insert r with
      | .ok _ => .ok () (s.push r)
      | .error fault => .error fault s := by
  rw [Store.run_insert, h.contains_eq]
  by_cases hmem : r.name ∈ t.names
  · rw [if_pos (Table.contains_iff.2 hmem), Table.insert_eq_error_of_mem hmem]
  · obtain ⟨t', ht'⟩ := Table.insert_eq_ok_of_not_mem hmem
    rw [if_neg (fun hcontains => hmem (Table.contains_iff.1 hcontains)), ht']

theorem after (h : s.Represents t) (rs : List Record) : (s.after rs).Represents (t.after rs) := by
  induction rs generalizing s t with
  | nil => exact h
  | cons r rs ih =>
    rw [Store.after, Table.after, h.run_insert]
    cases hins : t.insert r with
    | ok t' => exact ih (h.push hins)
    | error fault => exact ih h

end Represents

/-- The table adds at its end and keeps names apart, whatever has been put into it. It holds the
records that came first under their name, and of these the one with a name is found by the name. A
record with a new name is added; one with a name that has come before, even if on a record that was
refused, is refused as a duplicate and leaves the table as it is, and so its bytes and its
fingerprint. In memory the row of records and the positions of the names agree throughout, so that
every lookup gives the same there. -/
theorem represents_after_inserts (rs : List Record) :
    let t := Table.empty.after rs
    let s := ({} : Store).after rs
    t.records = firsts rs ∧ s.Represents t ∧
      (∀ name, s.get? name = t.get? name ∧ s.contains name = t.contains name) ∧
      (∀ r, (∀ q ∈ rs, q.name ≠ r.name) →
        ∃ t', t.insert r = .ok t' ∧ t'.records = t.records ++ [r] ∧
          (insert r).run s = .ok () (s.push r) ∧ (s.push r).Represents t') ∧
      (∀ r, (∃ q ∈ rs, q.name = r.name) →
        t.insert r = .error .duplicateName ∧ Table.empty.after (rs ++ [r]) = t ∧
          (insert r).run s = .error .duplicateName s) ∧
      ∀ name, (∀ r, t.get? name = some r ↔ r ∈ t.records ∧ r.name = name) ∧
        (t.get? name = none ↔ t.contains name = false) ∧
        (t.contains name = false ↔ ∀ q ∈ rs, q.name ≠ name) := by
  intro t s
  have hs : s.Represents t := Represents.initial.after rs
  refine ⟨Table.records_after rs, hs, fun name => ⟨hs.get?_eq name, hs.contains_eq name⟩, ?_, ?_,
    fun name => ⟨fun r => Table.get?_eq_some_iff, Table.get?_eq_none_iff, ?_⟩⟩
  · intro r hnew
    obtain ⟨t', ht'⟩ := Table.insert_after_eq_ok hnew
    exact ⟨t', ht', Table.records_insert ht', by rw [hs.run_insert, ht'], hs.push ht'⟩
  · intro r htaken
    have hins : t.insert r = .error .duplicateName := Table.insert_after_eq_error htaken
    refine ⟨hins, ?_, by rw [hs.run_insert, hins]⟩
    rw [Table.after_append, Table.after_singleton_of_error hins]
  · rw [← Bool.not_eq_true, Table.contains_iff, Table.mem_names_after_empty]
    simp

end Store

end OpcodeTable
