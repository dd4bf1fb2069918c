import Mathlib.Data.List.TakeWhile
import OpcodeTable.Token

namespace OpcodeTable

namespace Scanner

variable {s s' : Scanner} {t : Token}

theorem takeWord_of_next (h : s.next = (some t, s')) : s.skipBlanks.takeWord = (t, s') := by
  simp only [next] at h
  split at h
  · cases h
  · split at h
    · cases h
    · obtain ⟨ht, hs⟩ := Prod.mk.inj h
      exact Prod.ext (Option.some.inj ht) hs

theorem line_of_next (h : s.next = (some t, s')) : t.line = s.line ∧ s'.line = s.line := by
  cases takeWord_of_next h
  exact ⟨rfl, rfl⟩

theorem isWordChar_of_next (h : s.next = (some t, s')) :
    ∀ c ∈ t.text.toList, Token.isWordChar c = true := by
  cases takeWord_of_next h
  intro c hc
  rw [String.toList_ofList] at hc
  exact List.mem_takeWhile_imp hc

theorem line_of_mem_tokens (h : t ∈ s.tokens) : t.line = s.line := by
  fun_induction tokens s with
  | case1 => cases h
  | case2 s u s' hnext ih =>
    obtain ⟨hu, hs'⟩ := line_of_next hnext
    cases List.mem_cons.1 h with
    | inl h => rw [h, hu]
    | inr h => rw [ih h, hs']

theorem isWordChar_of_mem_tokens (h : t ∈ s.tokens) :
    ∀ c ∈ t.text.toList, Token.isWordChar c = true := by
  fun_induction tokens s with
  | case1 => cases h
  | case2 s u s' hnext ih =>
    cases List.mem_cons.1 h with
    | inl h => exact h ▸ isWordChar_of_next hnext
    | inr h => exact ih h

theorem tokens_of_next_none (h : s.next = (none, s')) : s.tokens = [] := by
  rw [tokens]
  split
  · rfl
  next hsome =>
    rw [h] at hsome
    cases hsome

theorem tokens_of_next_some (h : s.next = (some t, s')) : s.tokens = t :: s'.tokens := by
  rw [tokens]
  split
  next hnone =>
    rw [h] at hnone
    cases hnone
  next hsome =>
    rw [h] at hsome
    cases hsome
    rfl

theorem next_congr {u : Scanner} (h : s.rest = u.rest) :
    s.next.1.map Token.text = u.next.1.map Token.text ∧ s.next.2.rest = u.next.2.rest := by
  simp only [next, skipBlanks, takeWord, h]
  split
  · exact ⟨rfl, rfl⟩
  · split <;> exact ⟨rfl, rfl⟩

theorem map_text_tokens {u : Scanner} (h : s.rest = u.rest) :
    s.tokens.map Token.text = u.tokens.map Token.text := by
  fun_induction tokens s generalizing u with
  | case1 s s' hnext =>
    have htext := (next_congr h).1
    rw [hnext] at htext
    cases hu : u.next with
    | mk token u' =>
      rw [hu] at htext
      obtain rfl : token = none := Option.map_eq_none_iff.1 htext.symm
      rw [tokens_of_next_none hu]
  | case2 s t s' hnext ih =>
    obtain ⟨htext, hrest⟩ := next_congr h
    rw [hnext] at htext hrest
    cases hu : u.next with
    | mk token u' =>
      rw [hu] at htext hrest
      obtain ⟨t', rfl, htt'⟩ := Option.map_eq_some_iff.1 htext.symm
      rw [tokens_of_next_some hu, List.map_cons, List.map_cons, htt', ih hrest]

end Scanner

namespace Token

theorem isWordChar_iff {c : Char} : isWordChar c = true ↔ Text.isBlank c = false ∧ c ≠ '#' := by
  simp [isWordChar, commentMark]

theorem isWordChar_of_isAlphanum {c : Char} (h : c.isAlphanum = true) :
    isWordChar c = true := by
  have hcases : (decide ('A'.val ≤ c.val ∧ c.val ≤ 'Z'.val) ||
      (decide ('a'.val ≤ c.val) && decide (c.val ≤ 'z'.val)) || c.isDigit) = true := h
  have hrange : 65 ≤ c.toNat ∧ c.toNat ≤ 90 ∨ 97 ≤ c.toNat ∧ c.toNat ≤ 122 ∨
      48 ≤ c.toNat ∧ c.toNat ≤ 57 := by
    simpa [UInt32.le_iff_toNat_le, Char.isDigit_iff_toNat, or_assoc] using hcases
  have hmark : c ≠ '#' := by
    rintro rfl
    exact absurd h (by decide)
  refine isWordChar_iff.2 ⟨?_, hmark⟩
  simp only [Text.isBlank, Text.blankRuns, List.any_cons, List.any_nil, Bool.or_false,
    Bool.or_eq_false_iff, ← Bool.decide_and, decide_eq_false_iff_not]
  omega

structure IsWord (s : String) : Prop where
  ne_empty : s ≠ ""
  isWordChar : ∀ c ∈ s.toList, isWordChar c = true

def words (text : String) : List String := (scan 1 text).map Token.text

theorem map_text_scan (number : Nat) (text : String) :
    (scan number text).map Token.text = words text :=
  Scanner.map_text_tokens rfl

theorem line_of_mem_scan {number : Nat} {text : String} {t : Token}
    (h : t ∈ scan number text) : t.line = number :=
  Scanner.line_of_mem_tokens h

theorem isWordChar_of_mem_scan {number : Nat} {text : String} {t : Token}
    (h : t ∈ scan number text) : ∀ c ∈ t.text.toList, isWordChar c = true :=
  Scanner.isWordChar_of_mem_tokens h

@[simp] theorem scan_empty (number : Nat) : scan number "" = [] := by
  rw [scan, Scanner.tokens]
  rfl

end Token

end OpcodeTable
