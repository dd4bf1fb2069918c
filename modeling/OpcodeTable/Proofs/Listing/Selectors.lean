import Mathlib.Data.Int.ModEq
import OpcodeTable.Proofs.Artifact.SelectorSwitch
import OpcodeTable.Proofs.Listing.Decoding

namespace OpcodeTable

namespace Selector

variable {v w : Word}

/-- The ranges that are told by a selector. Those of `rs2` and `funct7` make up the last one. -/
def ranges : List BitRange := [Field.opcode.range, Field.funct3.range, Field.imm12.range]

theorem cover_ranges : BitRange.cover ranges = 0xFFF0707F := by decide

theorem cover_registers : BitRange.cover [Field.rd.range, Field.rs1.range] = ~~~0xFFF0707F := by
  decide

theorem csr_bounds (w : Word) : -2048 ≤ (ofWord w).csr ∧ (ofWord w).csr ≤ 2047 := by
  have hle := BitVec.le_toInt (BitVec.ofNat 12 (Field.imm12.range.extract w))
  have hlt := BitVec.toInt_lt (x := BitVec.ofNat 12 (Field.imm12.range.extract w))
  change -2048 ≤ (BitVec.ofNat 12 (Field.imm12.range.extract w)).toInt ∧
    (BitVec.ofNat 12 (Field.imm12.range.extract w)).toInt ≤ 2047
  omega

theorem csr_emod (w : Word) : (ofWord w).csr % 4096 = Field.imm12.range.extract w := by
  have hlt : Field.imm12.range.extract w < 4096 := Field.imm12.range.extract_lt_two_pow w
  have hbmod : (ofWord w).csr = (Field.imm12.range.extract w : Int).bmod 4096 :=
    BitVec.toInt_ofNat' _
  have hemod := Int.bmod_emod (x := Field.imm12.range.extract w) (m := 4096)
  rw [hbmod]
  omega

theorem extract_imm12 (w : Word) :
    Field.imm12.range.extract w =
      Field.funct7.range.extract w * 32 + Field.rs2.range.extract w := by
  have hextract (high low : Nat) (h : low ≤ high ∧ high < 32) :
      (BitRange.between high low h).extract w = w.toNat / 2 ^ low % 2 ^ (high - low + 1) := by
    rw [BitRange.extract, Nat.shiftRight_eq_div_pow, Nat.one_shiftLeft]
    rfl
  have himm12 := hextract 31 20 (by decide)
  have hfunct7 := hextract 31 25 (by decide)
  have hrs2 := hextract 24 20 (by decide)
  change (BitRange.between 31 20).extract w =
    (BitRange.between 31 25).extract w * 32 + (BitRange.between 24 20).extract w
  omega

theorem csr_modEq (w : Word) :
    (ofWord w).csr ≡ (ofWord w).funct7 * 32 + (ofWord w).rs2 [ZMOD 4096] := by
  have hemod := csr_emod w
  rw [extract_imm12, Int.natCast_add, Int.natCast_mul] at hemod
  calc
    (ofWord w).csr ≡ (ofWord w).csr % 4096 [ZMOD 4096] := (Int.mod_modEq _ _).symm
    _ = (ofWord w).funct7 * 32 + (ofWord w).rs2 := hemod

theorem and_selecting_eq (w : Word) :
    w.toNat &&& 0xFFF0707F =
      (ofWord w).opcode ||| (ofWord w).funct3 <<< 12 ||| ((ofWord w).csr % 4096).toNat <<< 20 := by
  have hplace (r : BitRange) : (r.place (r.extract w)).toNat = r.extract w <<< r.low :=
    BitRange.toNat_place (r.extract_lt_two_pow w)
  have hnone : (BitRange.placeAll [] []).toNat = 0 := rfl
  calc
    w.toNat &&& 0xFFF0707F = (w &&& BitRange.cover ranges).toNat := by
      rw [cover_ranges, BitVec.toNat_and]
      rfl
    _ = (BitRange.placeAll ranges (ranges.map fun r => r.extract w)).toNat := by
      rw [BitRange.placeAll_extract]
    _ = Field.opcode.range.extract w ||| Field.funct3.range.extract w <<< 12 |||
        Field.imm12.range.extract w <<< 20 := by
      simp only [ranges, List.map_cons, List.map_nil, BitRange.placeAll_cons, BitVec.toNat_or,
        hplace, hnone, Nat.or_zero, Nat.or_assoc]
      rfl
    _ = _ := by
      rw [csr_emod, Int.toNat_natCast]
      rfl

theorem eq_of_ofWord_eq (hv : v &&& BitRange.cover [Field.rd.range, Field.rs1.range] = 0)
    (hw : w &&& BitRange.cover [Field.rd.range, Field.rs1.range] = 0)
    (h : ofWord v = ofWord w) : v = w := by
  have hkeep {u : Word} (hu : u &&& BitRange.cover [Field.rd.range, Field.rs1.range] = 0) :
      u &&& 0xFFF0707F = u := by
    rw [cover_registers] at hu
    exact Word.and_not_eq_zero_iff.1 hu
  have hnat {u : Word} (hu : u &&& BitRange.cover [Field.rd.range, Field.rs1.range] = 0) :
      u.toNat = u.toNat &&& 0xFFF0707F := by
    conv_lhs => rw [← hkeep hu, BitVec.toNat_and]
    rfl
  apply BitVec.eq_of_toNat_eq
  rw [hnat hv, hnat hw, and_selecting_eq, and_selecting_eq, h]

end Selector

namespace Artifact.SelectorSwitch

/-- The selector that the case of the record shows, on the line below its label. -/
def shown? (r : Record) : Option Selector := (caseLines r)[1]?.bind readSelector

theorem shown?_eq (r : Record) : shown? r = some (.ofWord r.encoding.value) := by
  rw [shown?, caseLines_eq, List.getElem?_cons_succ, List.getElem?_cons_zero, Option.bind_some,
    readSelector_selectorLine]

end Artifact.SelectorSwitch

theorem Record.Sound.value_and_eq_zero {r : Record} {m : Word} (h : r.Sound)
    (hm : r.encoding.mask &&& m = 0) : r.encoding.value &&& m = 0 := by
  rw [← Encoding.mem_def.1 h.value_mem, BitVec.and_assoc, hm]
  exact BitVec.and_zero

namespace Listing

open Artifact

/-- A selector shows every bit that selects: what it calls `csr` is a number of twelve bits with its
sign, `rs2` and `funct7` are the parts of it, and the value of the record can be put together again
but for `rd` and `rs1`. So real instructions that fix no bit of these two show different ones. -/
theorem selectors_keep_bits :
    (∀ r : Record, ∃ s, SelectorSwitch.shown? r = some s ∧ -2048 ≤ s.csr ∧ s.csr ≤ 2047 ∧
      s.csr ≡ s.funct7 * 32 + s.rs2 [ZMOD 4096] ∧
      r.encoding.value.toNat &&& 0xFFF0707F =
        s.opcode ||| s.funct3 <<< 12 ||| (s.csr % 4096).toNat <<< 20) ∧
      ∀ mode path bytes c, read mode path bytes = .ok c →
        ∀ r ∈ c.table.real, ∀ s ∈ c.table.real, r ≠ s →
          r.encoding.mask &&& (Field.rd.range.mask ||| Field.rs1.range.mask) = 0 →
          s.encoding.mask &&& (Field.rd.range.mask ||| Field.rs1.range.mask) = 0 →
          SelectorSwitch.shown? r ≠ SelectorSwitch.shown? s := by
  constructor
  · intro r
    obtain ⟨hle, hlt⟩ := Selector.csr_bounds r.encoding.value
    exact ⟨_, SelectorSwitch.shown?_eq r, hle, hlt, Selector.csr_modEq _,
      Selector.and_selecting_eq _⟩
  · intro mode path bytes c hc r hr s hs hne hrmask hsmask hshown
    rw [SelectorSwitch.shown?_eq, SelectorSwitch.shown?_eq, Option.some.injEq] at hshown
    have hrsound := sound_of_read hc r (List.mem_of_mem_filter hr)
    have hssound := sound_of_read hc s (List.mem_of_mem_filter hs)
    have hvalue : r.encoding.value = s.encoding.value :=
      Selector.eq_of_ofWord_eq (hrsound.value_and_eq_zero hrmask)
        (hssound.value_and_eq_zero hsmask) hshown
    -- The word that both fix is decoded once only.
    have hdecoded := Table.decoders_eq_singleton (compatible_of_read hc) hr hrsound.value_mem
    rw [hvalue, Table.decoders_eq_singleton (compatible_of_read hc) hs hssound.value_mem] at hdecoded
    exact hne (List.singleton_inj.1 hdecoded).symm

def negative : String := "a 31..20=1 19..0=ignore\nb 31..20=4095 19..0=ignore\n"

theorem selectors_keep_bits_negative :
    ∃ c r s, read .failFast "" (Text.toBytes negative.toList) = .ok c ∧ c.table.records = [r, s] ∧
      SelectorSwitch.shown? r ≠ SelectorSwitch.shown? s ∧
      ∃ selector, SelectorSwitch.shown? s = some selector ∧
        s.encoding.value.toNat &&& 0xFFF0707F = selector.opcode ||| selector.funct3 <<< 12 |||
          (selector.csr % 4096).toNat <<< 20 := by
  obtain ⟨hshown, hapart⟩ := selectors_keep_bits
  have hwf : WellFormed (definitions negative) := by decide +kernel
  obtain ⟨c, hc, hrec⟩ : ∃ c, read .failFast "" (Text.toBytes negative.toList) = .ok c ∧
    c.table.records = (definitions negative).map (Definition.record "") :=
      exists_read (ofBytes?_toBytes negative) hwf
  have hreal : ∀ r ∈ (definitions negative).map (Definition.record ""), r.isPseudo = false ∧
      r.encoding.mask &&& (Field.rd.range.mask ||| Field.rs1.range.mask) = 0 := by
    decide +kernel
  have htwo : ((definitions negative).map (Definition.record "")).length = 2 := by decide +kernel
  obtain ⟨r, s, hlist⟩ := List.length_eq_two.1 htwo
  rw [hlist] at hrec hreal
  have hne : r ≠ s := by simpa [hrec] using c.table.records_nodup
  have htable : c.table.real = [r, s] := by simp [Table.real, hrec, hreal]
  refine ⟨c, r, s, hc, hrec, ?_, ?_⟩
  · exact hapart _ _ _ c hc r (by simp [htable]) s (by simp [htable]) hne (hreal r (by simp)).2
      (hreal s (by simp)).2
  · obtain ⟨selector, hselector, -, -, -, hbits⟩ := hshown s
    exact ⟨selector, hselector, hbits⟩

end Listing

end OpcodeTable
