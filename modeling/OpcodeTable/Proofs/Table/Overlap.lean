import OpcodeTable.Proofs.List.Pairs
import OpcodeTable.Proofs.Table.Compatible

namespace OpcodeTable

theorem overlapping_eq_pairsWhere (rs : List Record) :
    overlapping rs = pairsWhere (fun r s => r.encoding.overlaps s.encoding) rs := by
  induction rs with
  | nil => rfl
  | cons r rs ih => rw [overlapping, pairsWhere, ih]

theorem overlapping_filter (p : Record → Bool) (rs : List Record) :
    overlapping (rs.filter p) = (overlapping rs).filter fun x => p x.1 && p x.2 := by
  rw [overlapping_eq_pairsWhere, overlapping_eq_pairsWhere, pairsWhere_filter]

namespace Table

variable {t : Table} {r : Record}

theorem records_nodup (t : Table) : t.records.Nodup := .of_map _ t.names_nodup

theorem get?_name (h : r ∈ t.records) : t.get? r.name = some r := by
  cases hget : t.get? r.name with
  | none => simpa using List.find?_eq_none.1 hget r h
  | some s =>
    have hs : s ∈ t.records := List.mem_of_find?_eq_some hget
    have hname : s.name = r.name := by simpa using List.find?_some hget
    rw [List.inj_on_of_nodup_map t.names_nodup hs h hname]

theorem spanOf?_name (h : r ∈ t.records) : t.spanOf? r.name = r.span := by
  rw [spanOf?, get?_name h, Option.bind_some]

theorem spanOf?_of_mem_overlapping {p : Record → Bool} {s : Record}
    (h : (r, s) ∈ overlapping (t.records.filter p)) : t.spanOf? s.name = s.span := by
  rw [overlapping_eq_pairsWhere, mem_pairsWhere_iff] at h
  exact spanOf?_name (List.mem_of_mem_filter h.1.mem_right)

theorem warnings_eq (t : Table) :
    t.warnings = t.pseudoOverlaps.map fun p =>
      .pseudoOverlap (some p.2.name)
        ("pseudo instruction overlaps pseudo instruction " ++ p.1.name) p.2.span := by
  apply List.map_congr_left
  rintro ⟨r, s⟩ hpair
  exact congrArg (Diagnostic.pseudoOverlap (some s.name) _) (spanOf?_of_mem_overlapping hpair)

theorem listsPairs_realOverlaps (t : Table) :
    ListsPairs
      (fun r s => r.isPseudo = false ∧ s.isPseudo = false ∧ r.encoding.overlaps s.encoding = true)
      t.records t.realOverlaps := by
  rw [realOverlaps, real, overlapping_eq_pairsWhere]
  apply listsPairs_pairsWhere t.records_nodup
  intro r _ s _
  rw [Bool.not_eq_true', Bool.not_eq_true']

def first (t : Table) (k : Nat) : Table where
  records := t.records.take k
  names_nodup := t.names_nodup.sublist ((List.take_sublist k t.records).map _)

theorem real_eq_of_getElem? {k : Nat} (hk : t.records[k]? = some r) (hr : r.isPseudo = false) :
    ∃ later, t.real = (t.first k).real ++ r :: later ∧ r ∉ later := by
  obtain ⟨hlt, hget⟩ := List.getElem?_eq_some_iff.1 hk
  have hrecords : t.records = t.records.take k ++ r :: t.records.drop (k + 1) := by
    rw [← hget, List.getElem_cons_drop, List.take_append_drop]
  refine ⟨(t.records.drop (k + 1)).filter fun s => !s.isPseudo, ?_, ?_⟩
  · calc
      t.real = (t.records.take k ++ r :: t.records.drop (k + 1)).filter fun s => !s.isPseudo :=
        congrArg (List.filter _) hrecords
      _ = _ := by
        rw [List.filter_append, List.filter_cons_of_pos (by rw [hr, Bool.not_false])]
        rfl
  · intro hmem
    have hnodup := t.records_nodup
    rw [hrecords, List.nodup_append] at hnodup
    exact (List.nodup_cons.1 hnodup.2.1).1 (List.mem_of_mem_filter hmem)

/-- The two ways of looking for overlaps agree. The pass over the table lists the pairs of real
records that overlap, and checking a real record against those before it names the first partner
that the list has for it, if it has one. -/
theorem overlaps_agree (t : Table) :
    ListsPairs
        (fun r s => r.isPseudo = false ∧ s.isPseudo = false ∧
          r.encoding.overlaps s.encoding = true)
        t.records t.realOverlaps ∧
      ∀ k r, t.records[k]? = some r → r.isPseudo = false →
        (t.first k).checkOverlap r.encoding =
          match t.realOverlaps.find? (fun p => p.2 = r) with
          | none => .ok ()
          | some p => .error (.overlap p.1.name) := by
  refine ⟨t.listsPairs_realOverlaps, ?_⟩
  intro k r hk hr
  obtain ⟨later, hreal, hlater⟩ := real_eq_of_getElem? hk hr
  rw [realOverlaps, overlapping_eq_pairsWhere, hreal, find?_pairsWhere _ hlater, checkOverlap]
  -- The check asks whether the later record overlaps the earlier one, the pass the other way.
  simp only [Encoding.overlaps_comm r.encoding]
  cases (t.first k).real.find? fun s => s.encoding.overlaps r.encoding <;> rfl

def crossing : Table where
  records :=
    [{ name := "a", encoding := ⟨0x1, 0xF⟩ },
      { name := "p", isPseudo := true, encoding := ⟨0x2, 0x2⟩ },
      { name := "b", encoding := ⟨0x2, 0xF⟩ },
      { name := "c", encoding := ⟨0x1, 0x3⟩ },
      { name := "d" }]
  names_nodup := by decide

theorem overlaps_agree_crossing :
    (∃ r s, Before crossing.records r s ∧ r.name = "a" ∧ s.name = "c" ∧
        (r, s) ∈ crossing.realOverlaps) ∧
      ∃ r, crossing.records[4]? = some r ∧ r.isPseudo = false ∧
        (crossing.first 4).checkOverlap r.encoding = .error (.overlap "a") := by
  obtain ⟨hpairs, hcheck⟩ := overlaps_agree crossing
  constructor
  · have hbefore : Before crossing.records _ _ := ⟨0, 3, by decide, rfl, rfl⟩
    exact ⟨_, _, hbefore, rfl, rfl, (hpairs.mem_iff _ _).2 ⟨hbefore, by decide⟩⟩
  · refine ⟨_, rfl, rfl, (hcheck 4 _ rfl rfl).trans ?_⟩
    decide +kernel

end Table

end OpcodeTable
