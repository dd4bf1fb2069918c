import OpcodeTable.Artifact
import OpcodeTable.Proofs.Definition.Tiling
import OpcodeTable.Proofs.Text.Reading
import OpcodeTable.Proofs.Token.Words

namespace OpcodeTable

namespace Text

theorem toUpper_eq_or (c : Char) :
    c.toUpper = c ∨ 65 ≤ c.toUpper.toNat ∧ c.toUpper.toNat ≤ 90 := by
  unfold Char.toUpper
  split
  next h =>
    have hlow : 97 ≤ c.val.toNat := UInt32.le_iff_toNat_le.1 h.1
    have hhigh : c.val.toNat ≤ 122 := UInt32.le_iff_toNat_le.1 h.2
    have hoffset : ('A'.val - 'a'.val).toNat = 4294967264 := by decide
    right
    change 65 ≤ (c.val + ('A'.val - 'a'.val)).toNat ∧ (c.val + ('A'.val - 'a'.val)).toNat ≤ 90
    rw [UInt32.toNat_add, hoffset]
    omega
  · exact .inl rfl

theorem isBlank_toUpper {c : Char} (h : isBlank c = false) : isBlank c.toUpper = false := by
  cases toUpper_eq_or c with
  | inl heq => rwa [heq]
  | inr hletter =>
    simp only [isBlank, blankRuns, List.any_cons, List.any_nil, Bool.or_false,
      Bool.or_eq_false_iff, ← Bool.decide_and, decide_eq_false_iff_not]
    omega

theorem OneLine.map_toUpper {s : String} (h : OneLine s) : OneLine (s.map Char.toUpper) := by
  intro c hc
  rw [String.toList_map, List.mem_map] at hc
  obtain ⟨d, hd, rfl⟩ := hc
  cases toUpper_eq_or d with
  | inl heq =>
    rw [heq]
    exact h d hd
  | inr hletter =>
    constructor
    all_goals
      intro heq
      rw [heq] at hletter
      revert hletter
      decide

end Text

namespace Instruction

variable {i : Instruction}

theorem unbroken_identifier (h : Text.Unbroken i.name) : Text.Unbroken i.identifier := by
  intro c hc
  rw [identifier, String.toList_map, List.mem_map] at hc
  obtain ⟨d, hd, rfl⟩ := hc
  split
  · decide
  · exact h d hd

theorem unbroken_macroName (h : Text.Unbroken i.name) : Text.Unbroken i.macroName := by
  intro c hc
  rw [macroName, String.toList_map, List.mem_map] at hc
  obtain ⟨d, hd, rfl⟩ := hc
  exact Text.isBlank_toUpper (unbroken_identifier h d hd)

theorem unbroken_label (h : Text.Unbroken i.name) : Text.Unbroken i.label := by
  intro c hc
  rw [label, String.toList_ofList, List.mem_map] at hc
  obtain ⟨d, hd, rfl⟩ := hc
  exact Text.isBlank_toUpper (h d (List.mem_of_mem_filter hd))

end Instruction

theorem Token.unbroken_of_mem_scan {number : Nat} {text : String} {t : Token}
    (h : t ∈ scan number text) : Text.Unbroken t.text :=
  fun c hc => (isWordChar_iff.1 (isWordChar_of_mem_scan h c hc)).1

namespace Definition

variable {number : Nat} {text : String} {d : Definition}

theorem unbroken_operands (h : ofLine? number text = some d) :
    ∀ t ∈ d.operands, Text.Unbroken t.text :=
  fun _ ht => Token.unbroken_of_mem_scan (operands_subset_scan h ht)

theorem unbroken_name (h : ofLine? number text = some d) : Text.Unbroken d.name := by
  have hword := Token.unbroken_of_mem_scan (mnemonic_mem_scan h)
  intro c hc
  rw [name] at hc
  split at hc
  · rw [String.toList_ofList] at hc
    exact hword c (List.mem_of_mem_tail hc)
  · exact hword c hc

end Definition

theorem Artifact.linesOf_render {a : Artifact} {t : Table} {ls : List String} {text : String}
    (hlines : a.lines t = .ok ls) (h : ∀ l ∈ ls, Text.OneLine l) (htext : a.render t = .ok text) :
    Text.linesOf text = ls := by
  rw [render, hlines] at htext
  cases htext
  exact Text.linesOf_join h

theorem ControlRegister.oneLine_name {r : ControlRegister} (h : r ∈ all) :
    Text.OneLine r.name := by
  -- Bytes are compared, as it takes long to make characters of them.
  have hfree : ∀ s ∈ all, Text.lineFeed ∉ s.name.toUTF8.data.toList ∧
      Text.carriageReturn ∉ s.name.toUTF8.data.toList := by
    decide +kernel
  exact Text.oneLine_of_bytes (hfree r h).1 (hfree r h).2

theorem TrapCause.oneLine_name {c : TrapCause} (h : c ∈ all) : Text.OneLine c.name := by
  have hall : ∀ d ∈ all, Text.OneLine d.name := by decide +kernel
  exact hall c h

theorem TrapCause.oneLine_identifier {c : TrapCause} (h : c ∈ all) :
    Text.OneLine c.identifier := by
  have hall : ∀ d ∈ all, Text.OneLine d.identifier := by decide +kernel
  exact hall c h

end OpcodeTable
