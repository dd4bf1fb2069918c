import OpcodeTable.Proofs.Encoding.Words

namespace OpcodeTable

/-- Character `j` of the pattern stands for bit `31 - j`, and a question mark for either value. -/
def Word.Agrees (w : Word) (pattern : String) : Prop :=
  ∀ j c, pattern.toList[j]? = some c → c = '?' ∨ c = if w.getLsbD (31 - j) then '1' else '0'

namespace Encoding

variable {e : Encoding} {w : Word}

@[simp] theorem length_pattern (e : Encoding) : e.pattern.length = 32 := by
  simp [pattern]

theorem getElem?_pattern {j : Nat} (hj : j < 32) :
    e.pattern.toList[j]? = some (e.patternMark (31 - j)) := by
  have hlen : j < (List.range 32).length := by rwa [List.length_range]
  rw [pattern, String.toList_ofList, List.getElem?_map, List.getElem?_reverse hlen,
    List.length_range, List.getElem?_range (by omega)]
  rfl

theorem patternMark_agrees_iff {i : Nat} :
    (e.patternMark i = '?' ∨ e.patternMark i = if w.getLsbD i then '1' else '0') ↔
      (e.mask.getLsbD i = true → w.getLsbD i = e.value.getLsbD i) := by
  rw [patternMark]
  cases e.mask.getLsbD i <;> cases w.getLsbD i <;> cases e.value.getLsbD i <;> decide

theorem agrees_pattern_iff_bits :
    w.Agrees e.pattern ↔ ∀ i, e.mask.getLsbD i = true → w.getLsbD i = e.value.getLsbD i := by
  constructor
  · intro h i hi
    have hlt : i < 32 := BitVec.lt_of_getLsbD hi
    have hmark := h (31 - i) _ (getElem?_pattern (by omega))
    rw [Nat.sub_sub_self (by omega)] at hmark
    exact patternMark_agrees_iff.1 hmark hi
  · intro h j c hc
    have hj : j < 32 := by
      obtain ⟨hlt, -⟩ := List.getElem?_eq_some_iff.1 hc
      rwa [String.length_toList, length_pattern] at hlt
    rw [getElem?_pattern hj] at hc
    obtain rfl := Option.some.inj hc
    exact patternMark_agrees_iff.2 (h (31 - j))

theorem agrees_pattern_iff (he : e.value ∈ e) : w.Agrees e.pattern ↔ w ∈ e := by
  rw [agrees_pattern_iff_bits, mem_iff_bits he]

theorem toNat_and_eq_iff :
    w.toNat &&& e.mask.toNat = e.value.toNat ↔ w ∈ e := by
  rw [mem_def, ← BitVec.toNat_and, BitVec.toNat_inj]

end Encoding

end OpcodeTable
