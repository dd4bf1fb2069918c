import OpcodeTable.Listing
import OpcodeTable.Proofs.Definition.Tiling
import OpcodeTable.Proofs.Encoding.Words

namespace OpcodeTable

/-- The names differ, and so do the words, unless one of the two is pseudo. -/
def Record.Compatible (r s : Record) : Prop :=
  r.name ≠ s.name ∧
    (r.isPseudo = false → s.isPseudo = false → r.encoding.overlaps s.encoding = false)

namespace Table

theorem ext_records {t u : Table} (h : t.records = u.records) : t = u := by
  cases t
  cases u
  cases h
  rfl

theorem insert_eq_ok_iff {t t' : Table} {r : Record} :
    t.insert r = .ok t' ↔ r.name ∉ t.names ∧ t'.records = t.records ++ [r] := by
  constructor
  · intro h
    refine ⟨fun hmem => ?_, records_insert h⟩
    rw [insert, dif_pos (contains_iff.2 hmem)] at h
    cases h
  · rintro ⟨hmem, hrec⟩
    rw [insert, dif_neg (fun h => hmem (contains_iff.1 h)), Except.ok.injEq]
    exact ext_records hrec.symm

theorem insert_eq_error_of_mem {t : Table} {r : Record} (h : r.name ∈ t.names) :
    t.insert r = .error .duplicateName := by
  rw [insert, dif_pos (contains_iff.2 h)]

theorem checkOverlap_eq_ok_iff {t : Table} {e : Encoding} :
    t.checkOverlap e = .ok () ↔ ∀ r ∈ t.real, e.overlaps r.encoding = false := by
  have hnone : (t.real.find? fun r => e.overlaps r.encoding) = none ↔
      ∀ r ∈ t.real, e.overlaps r.encoding = false := by
    simp
  unfold checkOverlap
  split
  next r hr => exact ⟨nofun, fun h => by rw [hnone.2 h] at hr; cases hr⟩
  next hr => exact ⟨fun _ => hnone.1 hr, fun _ => rfl⟩

theorem checkOverlap_eq_error_iff {t : Table} {e : Encoding} {fault : Fault} :
    t.checkOverlap e = .error fault ↔
      ∃ before r after, t.records = before ++ r :: after ∧
        (r.isPseudo = false ∧ e.overlaps r.encoding = true) ∧
        (∀ s ∈ before, s.isPseudo = false → e.overlaps s.encoding = false) ∧
        fault = .overlap r.name := by
  have hfind (r : Record) : (t.real.find? fun s => e.overlaps s.encoding) = some r ↔
      (r.isPseudo = false ∧ e.overlaps r.encoding = true) ∧
        ∃ before after, t.records = before ++ r :: after ∧
          ∀ s ∈ before, s.isPseudo = false → e.overlaps s.encoding = false := by
    simp [real, List.find?_filter, List.find?_eq_some_iff_append, or_iff_not_imp_left]
  unfold checkOverlap
  split
  next r hr =>
    obtain ⟨hover, before, after, hrec, hbefore⟩ := (hfind r).1 hr
    constructor
    · intro h
      exact ⟨before, r, after, hrec, hover, hbefore, (Except.error.inj h).symm⟩
    · rintro ⟨before, s, after, hrec, hover, hbefore, rfl⟩
      rw [(hfind s).2 ⟨hover, before, after, hrec, hbefore⟩] at hr
      cases hr
      rfl
  next hr =>
    refine ⟨nofun, ?_⟩
    rintro ⟨before, s, after, hrec, hover, hbefore, -⟩
    rw [(hfind s).2 ⟨hover, before, after, hrec, hbefore⟩] at hr
    cases hr

theorem checkOverlap_eq_error {t : Table} {e : Encoding} {fault : Fault}
    (h : t.checkOverlap e = .error fault) : ∃ r ∈ t.records, fault = .overlap r.name := by
  obtain ⟨before, r, after, hrecords, -, -, rfl⟩ := checkOverlap_eq_error_iff.1 h
  exact ⟨r, by simp [hrecords], rfl⟩

theorem compatible_record_iff {t : Table} {d : Draft} {f : WordFormat} :
    (∀ r ∈ t.records, r.Compatible (d.record f)) ↔
      (d.isPseudo = false → ∀ r ∈ t.real, d.encoding.overlaps r.encoding = false) ∧
        d.name ∉ t.names := by
  simp only [names, real, List.mem_map, List.mem_filter, Bool.not_eq_true', not_exists, not_and]
  constructor
  · intro h
    constructor
    · intro hd r hr
      rw [Encoding.overlaps_comm]
      exact (h r hr.1).2 hr.2 hd
    · intro r hr
      exact (h r hr).1
  · intro h r hr
    constructor
    · exact h.2 r hr
    · intro hreal hd
      rw [Encoding.overlaps_comm]
      exact h.1 hd r ⟨hr, hreal⟩

theorem define_eq_ok_iff {t t' : Table} {d : Draft} :
    t.define d = .ok t' ↔
      ∃ f : WordFormat, d.coverage.bits = f.coverage ∧
        (∀ r ∈ t.records, r.Compatible (d.record f)) ∧
          t'.records = t.records ++ [d.record f] := by
  simp only [define, Except.bind_eq_ok_iff, Coverage.format_eq_ok_iff, compatible_record_iff]
  apply exists_congr
  intro f
  apply and_congr_right
  intro _
  cases hd : d.isPseudo with
  | true =>
    simp only [if_true, reduceCtorEq, false_implies, true_and]
    exact insert_eq_ok_iff
  | false =>
    simp only [Bool.false_eq_true, if_false, true_implies, Except.bind_eq_ok_iff]
    constructor
    · intro h
      obtain ⟨u, hu, hins⟩ := h
      obtain ⟨hname, hrec⟩ := insert_eq_ok_iff.1 hins
      exact ⟨⟨checkOverlap_eq_ok_iff.1 hu, hname⟩, hrec⟩
    · intro h
      exact ⟨(), checkOverlap_eq_ok_iff.2 h.1.1, insert_eq_ok_iff.2 ⟨h.1.2, h.2⟩⟩

theorem insert_eq_error {t : Table} {u : Record} {fault : Fault} (h : t.insert u = .error fault) :
    fault = .duplicateName := by
  unfold insert at h
  split at h
  · exact (Except.error.inj h).symm
  · cases h

theorem define_eq_error {t : Table} {d : Draft} {fault : Fault} (h : t.define d = .error fault) :
    fault = .incompleteCoverage d.coverage.bits ∨
      (d.isPseudo = false ∧ t.checkOverlap d.encoding = .error fault) ∨
        fault = .duplicateName := by
  unfold define at h
  cases hformat : d.coverage.format with
  | error e =>
    rw [hformat] at h
    cases h
    exact .inl (Coverage.format_eq_error hformat)
  | ok format =>
    rw [hformat] at h
    right
    cases hpseudo : d.isPseudo with
    | true =>
      rw [hpseudo] at h
      exact .inr (insert_eq_error h)
    | false =>
      rw [hpseudo] at h
      cases hoverlap : t.checkOverlap d.encoding with
      | error e =>
        rw [hoverlap] at h
        cases h
        exact .inl ⟨rfl, rfl⟩
      | ok _ =>
        rw [hoverlap] at h
        exact .inr (insert_eq_error h)

theorem define_rel {R : Table → Table → Prop} {t u : Table} {d e : Draft}
    (hcoverage : d.coverage = e.coverage) (hpseudo : d.isPseudo = e.isPseudo)
    (hoverlap : t.checkOverlap d.encoding = u.checkOverlap e.encoding)
    (hinsert : ∀ f, Except.Rel Eq R (t.insert (d.record f)) (u.insert (e.record f))) :
    Except.Rel Eq R (t.define d) (u.define e) := by
  unfold define
  rw [hcoverage, hpseudo, hoverlap]
  cases e.coverage.format with
  | error fault => exact .error rfl
  | ok f =>
    cases e.isPseudo with
    | true => exact hinsert f
    | false =>
      cases u.checkOverlap e.encoding with
      | error fault => exact .error rfl
      | ok _ => exact hinsert f

end Table

end OpcodeTable
