import OpcodeTable.Proofs.Listing.Acceptance
import OpcodeTable.Proofs.Record.Operands
import OpcodeTable.Proofs.Table.Recheck

namespace OpcodeTable

def Table.decoders (t : Table) (w : Word) : List Record :=
  t.real.filter fun r => decide (w ∈ r.encoding)

namespace Table

theorem mem_decoders_iff {t : Table} {w : Word} {r : Record} :
    r ∈ t.decoders w ↔ r ∈ t.real ∧ w ∈ r.encoding := by
  simp [decoders]

theorem not_compatible_of_mem_decoders {t : Table} {w : Word} {r s : Record}
    (hr : r ∈ t.decoders w) (hs : s ∈ t.decoders w) : ¬ r.Compatible s := by
  intro h
  rw [mem_decoders_iff, real, List.mem_filter, Bool.not_eq_true'] at hr hs
  have hno := h.2 hr.1.2 hs.1.2
  rw [Encoding.Meets.overlaps ⟨w, hr.2, hs.2⟩] at hno
  cases hno

theorem decoders_length_le_one {t : Table} (ht : t.records.Pairwise Record.Compatible) (w : Word) :
    (t.decoders w).length ≤ 1 := by
  have hsub : (t.decoders w).Sublist t.records := List.filter_sublist.trans List.filter_sublist
  have hpair := ht.sublist hsub
  cases h : t.decoders w with
  | nil => exact Nat.zero_le 1
  | cons r rs =>
    cases rs with
    | nil => exact Nat.le_refl 1
    | cons s ss =>
      rw [h, List.pairwise_cons] at hpair
      have hr : r ∈ t.decoders w := by simp [h]
      have hs : s ∈ t.decoders w := by simp [h]
      exact absurd (hpair.1 s List.mem_cons_self) (not_compatible_of_mem_decoders hr hs)

theorem decoders_eq_singleton {t : Table} (ht : t.records.Pairwise Record.Compatible) {w : Word}
    {r : Record} (hr : r ∈ t.real) (hw : w ∈ r.encoding) : t.decoders w = [r] := by
  have hle := decoders_length_le_one ht w
  have hmem := mem_decoders_iff.2 ⟨hr, hw⟩
  cases h : t.decoders w with
  | nil =>
    rw [h] at hmem
    cases hmem
  | cons s ss =>
    rw [h, List.length_cons] at hle
    obtain rfl : ss = [] := List.eq_nil_of_length_eq_zero (by omega)
    rw [h, List.mem_singleton] at hmem
    rw [hmem]

end Table

namespace Listing

theorem compatible_of_read {mode : ErrorMode} {path : String} {bytes : List UInt8}
    {c : Compilation} (h : read mode path bytes = .ok c) :
    c.table.records.Pairwise Record.Compatible := by
  obtain ⟨text, -, hwf, hrec, -⟩ := read_eq_ok_iff.1 h
  rw [hrec]
  exact (wellFormed_iff.1 hwf).2

theorem sound_of_read {mode : ErrorMode} {path : String} {bytes : List UInt8} {c : Compilation}
    (h : read mode path bytes = .ok c) : ∀ r ∈ c.table.records, r.Sound := by
  intro r hr
  obtain ⟨text, -, hwf, hrec, -⟩ := read_eq_ok_iff.1 h
  rw [hrec, List.mem_map] at hr
  obtain ⟨d, hd, rfl⟩ := hr
  exact Definition.sound_record path (hwf.tiles d hd)

theorem recheck_of_read {mode : ErrorMode} {path : String} {bytes : List UInt8} {c : Compilation}
    (h : read mode path bytes = .ok c) : c.table.recheck = .ok () :=
  Table.recheck_eq_ok (sound_of_read h) (compatible_of_read h)

/-- No word has two meanings, and the value of a real record means that record. -/
theorem decodes_uniquely {mode : ErrorMode} {path : String} {bytes : List UInt8} {c : Compilation}
    (h : read mode path bytes = .ok c) :
    (∀ w, (c.table.decoders w).length ≤ 1) ∧
      ∀ r ∈ c.table.real, c.table.decoders r.encoding.value = [r] := by
  have hcompat := compatible_of_read h
  constructor
  · exact Table.decoders_length_le_one hcompat
  · intro r hr
    have hsound := sound_of_read h r (List.mem_of_mem_filter hr)
    exact Table.decoders_eq_singleton hcompat hr hsound.value_mem

theorem decodes_uniquely_sample :
    ∃ c, read .collectAll "" sampleBytes = .ok c ∧ c.table.real.length = 2 ∧
      (∀ w, (c.table.decoders w).length ≤ 1) ∧
        ∀ r ∈ c.table.real, c.table.decoders r.encoding.value = [r] := by
  obtain ⟨c, hc, hrec⟩ := exists_read ofBytes?_sampleBytes wellFormed_sample
  refine ⟨c, hc, ?_, decodes_uniquely hc⟩
  rw [Table.real, hrec]
  decide +kernel

/-- Assembling and taking apart undo each other for every record of an accepted table. -/
theorem assemble_inverse {mode : ErrorMode} {path : String} {bytes : List UInt8} {c : Compilation}
    (h : read mode path bytes = .ok c) {r : Record} (hr : r ∈ c.table.records) :
    (∀ vs, r.Takes vs →
        r.assemble vs ∈ r.encoding ∧ r.disassemble (r.assemble vs) = vs ∧
          ∀ l ∈ r.literals, l.range.extract (r.assemble vs) = l.value.toNat) ∧
      ∀ w ∈ r.encoding, (r.format = .compressed → w.toNat < 2 ^ 16) →
        r.Takes (r.disassemble w) ∧ r.assemble (r.disassemble w) = w := by
  have hsound := sound_of_read h r hr
  constructor
  · intro vs hvs
    obtain ⟨hlits, hopen⟩ := hsound.extract_assemble hvs
    refine ⟨hsound.assemble_mem hvs, hopen, ?_⟩
    simpa [Record.literalRanges, Record.literalValues] using hlits
  · intro w hw hfit
    exact ⟨r.takes_disassemble w, hsound.assemble_disassemble hw hfit⟩

theorem assemble_inverse_sample :
    ∃ c, read .failFast "" sampleBytes = .ok c ∧ ∃ r ∈ c.table.records, r.name = "c.li" ∧
      r.assemble [10, 0, 7] = 0x451D ∧ 0x451D ∈ r.encoding ∧
        r.disassemble 0x451D = [10, 0, 7] ∧ r.assemble (r.disassemble 0x451D) = 0x451D := by
  obtain ⟨c, hc, hrec⟩ := exists_read ofBytes?_sampleBytes wellFormed_sample
  have hli : ∃ r ∈ (definitions sample).map (Definition.record ""),
      r.name = "c.li" ∧ r.Takes [10, 0, 7] ∧ r.assemble [10, 0, 7] = 0x451D := by decide +kernel
  obtain ⟨r, hr, hname, htakes, hword⟩ := hli
  have hinverse := assemble_inverse hc (hrec ▸ hr)
  obtain ⟨hmem, hback, -⟩ := hinverse.1 _ htakes
  rw [hword] at hmem hback
  have hforth := hinverse.2 _ hmem fun _ => by decide
  exact ⟨c, hc, r, hrec ▸ hr, hname, hword, hmem, hback, hforth.2⟩

end Listing

end OpcodeTable
