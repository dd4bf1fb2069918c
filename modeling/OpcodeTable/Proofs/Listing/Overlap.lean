import OpcodeTable.Proofs.Listing.Locations
import OpcodeTable.Proofs.Record.Operands
import OpcodeTable.Proofs.Table.Overlap

namespace OpcodeTable

theorem Fault.exists_overlap_of_code {fault : Fault} (h : fault.code = "collision.overlap") :
    ∃ other, fault = .overlap other := by
  cases fault with
  | overlap other => exact ⟨other, rfl⟩
  | _ => simp [code] at h

theorem Definition.fault_ne_overlap_of_draft {path : String} {d : Definition} {r : Rejection}
    (h : d.draft path = .error r) (other : String) : r.fault ≠ .overlap other := by
  intro hr
  unfold draft at h
  split at h
  · cases h
    cases hr
  · obtain ⟨taken, t, rest, d', -, -, ht, -⟩ := Draft.exists_refused_of_addTokens h
    have hfault := (Draft.fault_of_addToken ht).1
    rw [hr] at hfault
    cases hfault

theorem Definition.value_mem_encoding (d : Definition) : d.encoding.value ∈ d.encoding :=
  Encoding.value_mem_ofLiterals d.literals

theorem Draft.value_mem_of_ofLine {path text : String} {number : Nat} {d : Draft}
    (h : ofLine path number text = .ok (some d)) : d.encoding.value ∈ d.encoding := by
  cases hline : Definition.ofLine? number text with
  | none =>
    rw [ofLine, Definition.ofLine?_eq_none_iff.1 hline] at h
    cases h
  | some definition =>
    obtain ⟨-, hd⟩ := (ofLine_eq_ok_iff hline).1 h
    rw [Option.some.inj hd, toInstruction_extend]
    exact definition.value_mem_encoding

namespace Table

variable {t : Table} {path : String} {d : Definition} {r : Rejection} {other : String}

theorem checkOverlap_of_take (h : t.take path d = .error r) (hr : r.fault = .overlap other) :
    d.isPseudo = false ∧ t.checkOverlap d.encoding = .error (.overlap other) ∧
      r = ⟨d.name, .overlap other, some (d.mnemonic.span path)⟩ := by
  obtain hdraft | ⟨draft, hdraft, henter⟩ := Except.bind_eq_error_iff.1 h
  · exact absurd hr (Definition.fault_ne_overlap_of_draft hdraft other)
  · have hinstruction := Definition.toInstruction_of_draft hdraft
    unfold enter at henter
    split at henter
    · cases henter
    next fault hdefine =>
      cases henter
      obtain rfl : fault = .overlap other := hr
      obtain hcoverage | hoverlap | hname := define_eq_error hdefine
      · cases hcoverage
      · rw [hinstruction] at hoverlap
        refine ⟨hoverlap.1, hoverlap.2, ?_⟩
        rw [hinstruction]
        rfl
      · cases hname

end Table

namespace Listing

variable {mode : ErrorMode} {path : String} {number : Nat} {t : Table} {x : Diagnostic}

def MadeWithin (path : String) (number : Nat) (t : Table) (lines : List (List UInt8))
    (x : Diagnostic) : Prop :=
  ∃ texts rest, lines = encode texts ++ rest ∧
    ∃ r ∈ (run path number t texts).2, x = r.diagnostic

theorem MadeWithin.head {line : List UInt8} {rest : List (List UInt8)} {text : String}
    {r : Rejection} (htext : Text.ofBytes? line = some text)
    (hline : t.readLine path number text = .error r) :
    MadeWithin path number t (line :: rest) r.diagnostic := by
  refine ⟨[text], rest, ?_, r, ?_, rfl⟩
  · rw [Text.ofBytes?_eq_some_iff.1 htext]
    rfl
  · rw [run, hline]
    exact List.mem_cons_self

theorem MadeWithin.cons {u : Table} {line : List UInt8} {rest : List (List UInt8)} {text : String}
    (h : MadeWithin path (number + 1) u rest x) (htext : Text.ofBytes? line = some text)
    (hrun : ∀ texts, (run path (number + 1) u texts).2 ⊆ (run path number t (text :: texts)).2) :
    MadeWithin path number t (line :: rest) x := by
  obtain ⟨texts, after, rfl, r, hr, hx⟩ := h
  refine ⟨text :: texts, after, ?_, r, hrun texts hr, hx⟩
  rw [Text.ofBytes?_eq_some_iff.1 htext]
  rfl

theorem madeWithin_of_readFrom {findings : List Diagnostic} {lines : List (List UInt8)}
    (h : x ∈ match readFrom mode path number t findings lines with
      | .ok (_, ds) => ds
      | .error failure => failure.diagnostics) :
    x ∈ findings ∨ MadeWithin path number t lines x := by
  fun_induction readFrom mode path number t findings lines with
  | case1 => exact .inl h
  | case2 => cases h
  | case3 number t findings line rest text htext t' hline ih =>
    refine (ih h).imp_right fun hrest => hrest.cons htext fun texts => ?_
    rw [run, hline]
    exact List.Subset.refl _
  | case4 number t findings line rest text htext r hline =>
    obtain rfl := List.mem_singleton.1 h
    exact .inr (.head htext hline)
  | case5 number t findings line rest text htext r hline hmode ih =>
    subst hmode
    cases ih h with
    | inl hx =>
      rw [List.mem_append, List.mem_singleton] at hx
      refine hx.imp_right fun hx => ?_
      rw [hx]
      exact .head htext hline
    | inr hrest =>
      refine .inr (hrest.cons htext fun texts => ?_)
      rw [run, hline]
      exact List.subset_cons_self r _

theorem madeWithin_of_mem_reports {bytes : List UInt8} (h : x ∈ reports (read mode path bytes)) :
    MadeWithin path 1 .empty (Text.lines bytes) x := by
  have hnone : x ∉ ([] : List Diagnostic) := List.not_mem_nil
  refine (@madeWithin_of_readFrom mode path 1 .empty x [] _ ?_).resolve_left hnone
  unfold read at h
  split at h
  next hfrom =>
    rw [hfrom]
    exact h
  · cases h
  next hfrom =>
    rw [hfrom]
    exact h

theorem exists_meets_of_mem_reports {bytes : List UInt8} (h : x ∈ reports (read mode path bytes))
    (hcode : x.code = "collision.overlap") :
    ∃ texts rest a b, Text.lines bytes = encode texts ++ rest ∧
      Before (definitionsFrom 1 texts) a b ∧ a.isPseudo = false ∧ b.isPseudo = false ∧
      x = Rejection.diagnostic ⟨b.name, .overlap a.name, some (b.mnemonic.span path)⟩ ∧
      a.encoding.Meets b.encoding := by
  obtain ⟨texts, rest, hlines, r, hr, rfl⟩ := madeWithin_of_mem_reports h
  obtain ⟨other, hfault⟩ := Fault.exists_overlap_of_code hcode
  rw [run_eq_takeAll] at hr
  obtain ⟨before, b, after, hds, htake⟩ := exists_take_of_mem_takeAll hr
  obtain ⟨hb, hcheck, rfl⟩ := Table.checkOverlap_of_take htake hfault
  obtain ⟨earlier, u, later, hrecords, ⟨hu, hoverlap⟩, -, hother⟩ :=
    Table.checkOverlap_eq_error_iff.1 hcheck
  have hmem : u ∈ (takeAll path .empty before).1.records := by simp [hrecords]
  obtain hempty | ⟨a, ha, hinstruction⟩ := exists_instruction_of_mem_takeAll hmem
  · cases hempty
  · rw [hinstruction] at hu hoverlap hother
    cases hother
    refine ⟨texts, rest, a, b, hlines, ?_, hu, hb, rfl, ?_⟩
    · rw [hds]
      exact before_append ha
    · rw [Encoding.overlaps_comm] at hoverlap
      exact (Encoding.overlaps_iff_meets a.value_mem_encoding b.value_mem_encoding).1 hoverlap

/-- The check for overlaps is exact where nothing is fixed outside a mask, as no line fixes anything
there. It lets an encoding pass when no real record matches a word of it, and otherwise names the
first real record that does. So whatever is reported of a listing as an overlap is one: a real
definition and an earlier one, which it names, have a word in common. -/
theorem overlap_check_exact {t : Table} {e : Encoding}
    (ht : ∀ r ∈ t.records, r.encoding.value &&& ~~~r.encoding.mask = 0)
    (he : e.value &&& ~~~e.mask = 0) :
    (t.checkOverlap e = .ok () ↔
        ∀ r ∈ t.records, r.isPseudo = false → ¬ ∃ w, w ∈ e ∧ w ∈ r.encoding) ∧
      (∀ fault, t.checkOverlap e = .error fault ↔
        ∃ before r after, t.records = before ++ r :: after ∧
          (r.isPseudo = false ∧ ∃ w, w ∈ e ∧ w ∈ r.encoding) ∧
          (∀ s ∈ before, s.isPseudo = false → ¬ ∃ w, w ∈ e ∧ w ∈ s.encoding) ∧
          fault = .overlap r.name) ∧
      (∀ path number text d, Draft.ofLine path number text = .ok (some d) →
        d.encoding.value &&& ~~~d.encoding.mask = 0) ∧
      ∀ mode path bytes, ∀ x ∈ reports (read mode path bytes), x.code = "collision.overlap" →
        ∃ texts rest a b, Text.lines bytes = encode texts ++ rest ∧
          Before (definitionsFrom 1 texts) a b ∧ a.isPseudo = false ∧ b.isPseudo = false ∧
          x = Rejection.diagnostic ⟨b.name, .overlap a.name, some (b.mnemonic.span path)⟩ ∧
          ∃ w, w ∈ a.encoding ∧ w ∈ b.encoding := by
  have hmeets (r : Record) (hr : r ∈ t.records) :
      e.overlaps r.encoding = true ↔ ∃ w, w ∈ e ∧ w ∈ r.encoding :=
    Encoding.overlaps_iff_meets (Encoding.value_mem_iff.2 he) (Encoding.value_mem_iff.2 (ht r hr))
  have hapart (r : Record) (hr : r ∈ t.records) :
      e.overlaps r.encoding = false ↔ ¬ ∃ w, w ∈ e ∧ w ∈ r.encoding := by
    rw [← hmeets r hr, Bool.not_eq_true]
  refine ⟨?_, fun fault => ?_, fun path number text d hd => ?_, fun mode path bytes x => ?_⟩
  · rw [Table.checkOverlap_eq_ok_iff, Table.real]
    simp only [List.mem_filter, Bool.not_eq_true', and_imp]
    exact forall₂_congr fun r hr => imp_congr_right fun _ => hapart r hr
  · rw [Table.checkOverlap_eq_error_iff]
    refine exists₃_congr fun before r after => and_congr_right fun hrecords => ?_
    rw [hmeets r (by simp [hrecords])]
    apply and_congr_right
    intro _
    apply and_congr_left
    intro _
    exact forall₂_congr fun s hs => imp_congr_right fun _ => hapart s (by simp [hrecords, hs])
  · exact Encoding.value_mem_iff.1 (Draft.value_mem_of_ofLine hd)
  · exact exists_meets_of_mem_reports

theorem overlap_check_exact_crossing :
    Table.crossing.checkOverlap ⟨0x2, 0x2⟩ = .error (.overlap "b") ∧
      ∃ before r after, Table.crossing.records = before ++ r :: after ∧ r.name = "b" ∧
        ∃ w, w ∈ (⟨0x2, 0x2⟩ : Encoding) ∧ w ∈ r.encoding := by
  obtain ⟨-, hnamed, -, -⟩ := @overlap_check_exact Table.crossing ⟨0x2, 0x2⟩ (by decide) (by decide)
  have hcheck : Table.crossing.checkOverlap ⟨0x2, 0x2⟩ = .error (.overlap "b") := by
    decide +kernel
  obtain ⟨before, r, after, hrecords, ⟨-, hmeets⟩, -, hfault⟩ := (hnamed _).1 hcheck
  exact ⟨hcheck, before, r, after, hrecords, (Fault.overlap.inj hfault).symm, hmeets⟩

end Listing

end OpcodeTable
