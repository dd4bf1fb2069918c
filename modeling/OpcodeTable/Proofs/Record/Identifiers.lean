import OpcodeTable.Instruction
import OpcodeTable.Proofs.List.Pointwise

namespace OpcodeTable

namespace Text

theorem toNat_toUpper (c : Char) :
    c.toUpper.toNat = if 97 ≤ c.toNat ∧ c.toNat ≤ 122 then c.toNat - 32 else c.toNat := by
  have hlower : 'a'.val ≤ c.val ∧ c.val ≤ 'z'.val ↔ 97 ≤ c.toNat ∧ c.toNat ≤ 122 := by
    rw [UInt32.le_iff_toNat_le, UInt32.le_iff_toNat_le]
    rfl
  unfold Char.toUpper
  split
  next h =>
    rw [if_pos (hlower.1 h)]
    change (c.val + ('A'.val - 'a'.val)).toNat = c.toNat - 32
    have hoffset : ('A'.val - 'a'.val).toNat = 4294967264 := by decide
    have hval : c.val.toNat = c.toNat := rfl
    have := hlower.1 h
    rw [UInt32.toNat_add, hoffset, hval]
    omega
  next h => rw [if_neg (mt hlower.2 h)]

theorem toNat_toLower (c : Char) :
    c.toLower.toNat = if 65 ≤ c.toNat ∧ c.toNat ≤ 90 then c.toNat + 32 else c.toNat := by
  have hupper : c.val ≥ 'A'.val ∧ c.val ≤ 'Z'.val ↔ 65 ≤ c.toNat ∧ c.toNat ≤ 90 := by
    rw [ge_iff_le, UInt32.le_iff_toNat_le, UInt32.le_iff_toNat_le]
    rfl
  unfold Char.toLower
  split
  next h =>
    rw [if_pos (hupper.1 h)]
    change (c.val + ('a'.val - 'A'.val)).toNat = c.toNat + 32
    have hoffset : ('a'.val - 'A'.val).toNat = 32 := by decide
    have hval : c.val.toNat = c.toNat := rfl
    have := hupper.1 h
    rw [UInt32.toNat_add, hoffset, hval]
    omega
  next h => rw [if_neg (mt hupper.2 h)]

/-- The characters are the same, or one letter in both of its cases. Only ASCII letters have two. -/
def SameLetter (c d : Char) : Prop := c.toLower = d.toLower

instance : DecidableRel SameLetter := fun c d =>
  inferInstanceAs (Decidable (c.toLower = d.toLower))

theorem toUpper_eq_iff {c d : Char} : c.toUpper = d.toUpper ↔ SameLetter c d := by
  rw [SameLetter, ← Char.toNat_inj, ← Char.toNat_inj, toNat_toUpper, toNat_toUpper, toNat_toLower,
    toNat_toLower]
  split_ifs <;> omega

theorem sameLetter_comm {c d : Char} : SameLetter c d ↔ SameLetter d c := eq_comm

theorem sameLetter_iff_eq {c d : Char}
    (h : c.toNat < 65 ∨ 90 < c.toNat ∧ c.toNat < 97 ∨ 122 < c.toNat) : SameLetter c d ↔ c = d := by
  rw [SameLetter, ← Char.toNat_inj, ← Char.toNat_inj, toNat_toLower, toNat_toLower]
  split_ifs <;> omega

def SameInMacro (c d : Char) : Prop := SameLetter c d ∨ c ∈ ['.', '_'] ∧ d ∈ ['.', '_']

instance : DecidableRel SameInMacro := fun c d =>
  inferInstanceAs (Decidable (SameLetter c d ∨ c ∈ ['.', '_'] ∧ d ∈ ['.', '_']))

theorem sameLetter_undotted_iff {c d : Char} :
    SameLetter (if c = '.' then '_' else c) (if d = '.' then '_' else d) ↔ SameInMacro c d := by
  have hdot (x : Char) : SameLetter '.' x ↔ '.' = x := sameLetter_iff_eq (by decide)
  have hunderscore (x : Char) : SameLetter '_' x ↔ '_' = x := sameLetter_iff_eq (by decide)
  unfold SameInMacro
  split_ifs with hc hd hd
  · simp [hc, hd, hunderscore]
  · subst hc
    simp [hdot, hunderscore, hd, eq_comm]
  · subst hd
    rw [sameLetter_comm, sameLetter_comm (c := c) (d := '.')]
    simp [hdot, hunderscore, hc, eq_comm]
  · simp only [List.mem_cons, hc, hd, List.not_mem_nil, false_or, or_false]
    constructor
    · exact .inl
    · rintro (h | ⟨rfl, rfl⟩)
      · exact h
      · exact (hunderscore '_').2 rfl

def MacroAlike (m n : String) : Prop := List.Forall₂ SameInMacro m.toList n.toList

/-- Position by position, the names have the same letters when their dots are left out. -/
def LabelAlike (m n : String) : Prop :=
  List.Forall₂ SameLetter (m.toList.filter (· ≠ '.')) (n.toList.filter (· ≠ '.'))

instance : DecidableRel MacroAlike := fun m n =>
  inferInstanceAs (Decidable (List.Forall₂ SameInMacro m.toList n.toList))

instance : DecidableRel LabelAlike := fun m n =>
  inferInstanceAs (Decidable (List.Forall₂ SameLetter (m.toList.filter (· ≠ '.'))
    (n.toList.filter (· ≠ '.'))))

end Text

namespace Instruction

variable {i j : Instruction}

theorem macroName_eq_iff : i.macroName = j.macroName ↔ Text.MacroAlike i.name j.name := by
  simp only [macroName, identifier, ← String.toList_inj, String.toList_map, List.map_map,
    map_eq_map_iff_forall₂, Function.comp_apply, Text.toUpper_eq_iff,
    Text.sameLetter_undotted_iff, Text.MacroAlike]

theorem label_eq_iff : i.label = j.label ↔ Text.LabelAlike i.name j.name := by
  simp only [label, ← String.toList_inj, String.toList_ofList, map_eq_map_iff_forall₂,
    Text.toUpper_eq_iff, Text.LabelAlike]

end Instruction

end OpcodeTable
