import OpcodeTable.Proofs.Artifact.BitPatterns
import OpcodeTable.Proofs.Artifact.Header
import OpcodeTable.Proofs.Artifact.SelectorSwitch
import OpcodeTable.Proofs.Listing.Decoding

namespace OpcodeTable

open Artifact

def Selector.ofNat (n : Nat) : Selector where
  opcode := n % 2 ^ 7
  funct3 := n / 2 ^ 12 % 2 ^ 3
  rs2 := n / 2 ^ 20 % 2 ^ 5
  csr := ((n / 2 ^ 20 % 2 ^ 12 : Nat) : Int).bmod (2 ^ 12)
  funct7 := n / 2 ^ 25 % 2 ^ 7

theorem Selector.ofWord_eq (w : Word) : Selector.ofWord w = .ofNat w.toNat := by
  have hextract (high low : Nat) (h : low ≤ high ∧ high < 32) :
      (BitRange.between high low h).extract w = w.toNat / 2 ^ low % 2 ^ (high - low + 1) := by
    rw [BitRange.extract, Nat.shiftRight_eq_div_pow, Nat.one_shiftLeft]
    rfl
  have hopcode : Field.opcode.range.extract w = w.toNat % 2 ^ 7 := by
    rw [← Nat.div_one w.toNat]
    exact hextract 6 0 (by decide)
  have hfunct3 : Field.funct3.range.extract w = w.toNat / 2 ^ 12 % 2 ^ 3 :=
    hextract 14 12 (by decide)
  have hrs2 : Field.rs2.range.extract w = w.toNat / 2 ^ 20 % 2 ^ 5 := hextract 24 20 (by decide)
  have himm12 : Field.imm12.range.extract w = w.toNat / 2 ^ 20 % 2 ^ 12 :=
    hextract 31 20 (by decide)
  have hfunct7 : Field.funct7.range.extract w = w.toNat / 2 ^ 25 % 2 ^ 7 :=
    hextract 31 25 (by decide)
  rw [ofWord, ofNat, hopcode, hfunct3, hrs2, himm12, hfunct7, BitVec.toInt_ofNat']

namespace Listing

theorem unbroken_name_of_mem_definitionsFrom {number : Nat} {lines : List String} :
    ∀ d ∈ definitionsFrom number lines, Text.Unbroken d.name := by
  induction lines generalizing number with
  | nil => simp [definitionsFrom]
  | cons line lines ih =>
    rw [definitionsFrom]
    split
    · exact ih
    next d hd =>
      rw [List.forall_mem_cons]
      exact ⟨Definition.unbroken_name hd, ih⟩

theorem unbroken_name_of_read {mode : ErrorMode} {path : String} {bytes : List UInt8}
    {c : Compilation} (h : read mode path bytes = .ok c) :
    ∀ r ∈ c.table.records, Text.Unbroken r.name := by
  obtain ⟨text, -, -, hrec, -⟩ := read_eq_ok_iff.1 h
  rw [hrec, List.forall_mem_map]
  exact unbroken_name_of_mem_definitionsFrom

/-- The texts agree on every record. They have one entry for each, pseudo records included, and no
other: a pattern of all 32 bits, the match and the mask as numbers, and the selecting bits of the
match. Whether a word is meant can be told from the pattern or from match and mask. -/
theorem renderers_agree {mode : ErrorMode} {path : String} {bytes : List UInt8} {c : Compilation}
    (h : read mode path bytes = .ok c) :
    (∃ text, bitPatterns.render c.table = .ok text ∧
        BitPatterns.entries text =
          c.table.records.map fun r => some (r.macroName, r.encoding.pattern)) ∧
      (∃ text, selectorSwitch.render c.table = .ok text ∧
        SelectorSwitch.entries text =
          c.table.records.map fun r =>
            some (r.label, Selector.ofNat r.encoding.value.toNat)) ∧
      (∀ text, header.render c.table = .ok text →
        Header.entries Header.matchMark text =
            c.table.records.map (fun r => some (r.macroName, r.encoding.value.toNat)) ∧
          Header.entries Header.maskMark text =
            c.table.records.map fun r => some (r.macroName, r.encoding.mask.toNat)) ∧
      ∀ r ∈ c.table.records, r.encoding.pattern.length = 32 ∧
        ∀ w : Word, (w.Agrees r.encoding.pattern ↔ w ∈ r.encoding) ∧
          (w.toNat &&& r.encoding.mask.toNat = r.encoding.value.toNat ↔
            w.Agrees r.encoding.pattern) := by
  have hnames := unbroken_name_of_read h
  refine ⟨⟨_, rfl, BitPatterns.entries_render hnames rfl⟩, ⟨_, rfl, ?_⟩,
    fun text htext => Header.entries_render hnames htext, fun r hr => ?_⟩
  · rw [SelectorSwitch.entries_render hnames rfl]
    simp only [Selector.ofWord_eq]
  · have hagrees (w : Word) : w.Agrees r.encoding.pattern ↔ w ∈ r.encoding :=
      Encoding.agrees_pattern_iff (sound_of_read h r hr).value_mem
    refine ⟨r.encoding.length_pattern, fun w => ⟨hagrees w, ?_⟩⟩
    rw [hagrees, Encoding.toNat_and_eq_iff]

def coded : String :=
  "xc.gpr2xcr crd rs1 31..20=0 14..12=0 11=0 6..0=0x2B\n" ++
    "@xc.xcr2gpr rd crs1 31..20=1 19=0 14..12=0 6..0=0x2B\n"

def codedBytes : List UInt8 := Text.toBytes coded.toList

theorem renderers_agree_coded :
    ∃ c patterns selectors text, read .failFast "" codedBytes = .ok c ∧
      bitPatterns.render c.table = .ok patterns ∧
      BitPatterns.entries patterns =
        [some ("XC_GPR2XCR", "000000000000?????0000????0101011"),
          some ("XC_XCR2GPR", "0000000000010????000?????0101011")] ∧
      selectorSwitch.render c.table = .ok selectors ∧
      SelectorSwitch.entries selectors =
        [some ("XCGPR2XCR", ⟨0x2b, 0, 0, 0, 0⟩), some ("XCXCR2GPR", ⟨0x2b, 0, 1, 1, 0⟩)] ∧
      header.render c.table = .ok text ∧
      Header.entries Header.matchMark text =
        [some ("XC_GPR2XCR", 0x2b), some ("XC_XCR2GPR", 0x10002b)] ∧
      Header.entries Header.maskMark text =
        [some ("XC_GPR2XCR", 0xfff0787f), some ("XC_XCR2GPR", 0xfff8707f)] := by
  have hcoded : Text.ofBytes? codedBytes = some coded := ofBytes?_toBytes coded
  have hwf : WellFormed (definitions coded) := by decide +kernel
  obtain ⟨c, hc, hrec⟩ : ∃ c, read .failFast "" codedBytes = .ok c ∧
    c.table.records = (definitions coded).map (Definition.record "") := exists_read hcoded hwf
  obtain ⟨⟨patterns, hpatterns, hbits⟩, ⟨selectors, hselectors, hcases⟩, hheader, -⟩ :=
    renderers_agree hc
  have hcodes : ∀ r ∈ (definitions coded).map (Definition.record ""), ∀ f ∈ r.fields,
      f.operandCode.isSome := by
    decide +kernel
  obtain ⟨text, htext⟩ : ∃ text, header.render c.table = .ok text :=
    Header.exists_render (hrec ▸ hcodes)
  obtain ⟨hmatch, hmask⟩ := hheader text htext
  refine ⟨c, patterns, selectors, text, hc, hpatterns, ?_, hselectors, ?_, htext, ?_, ?_⟩
  · rw [hbits, hrec]
    decide +kernel
  · rw [hcases, hrec]
    decide +kernel
  · rw [hmatch, hrec]
    decide +kernel
  · rw [hmask, hrec]
    decide +kernel

end Listing

end OpcodeTable
