import OpcodeTable.Proofs.Operand.Grammar
import OpcodeTable.Proofs.Text.Plain
import OpcodeTable.Proofs.Text.Values
import OpcodeTable.Proofs.Token.Words

namespace OpcodeTable

namespace Text

theorem isNumeral_repr (n : Nat) : IsNumeral n.repr := by
  constructor
  · rw [Nat.toList_repr]
    exact Nat.toDigits_ne_nil
  · intro c hc
    rw [Nat.toList_repr] at hc
    exact Nat.isDigit_of_mem_toDigits (by decide) (by decide) hc

theorem position_repr {n : Nat} (h : n < 32) : position n.repr = n := by
  rw [position, Nat.toList_repr, Nat.ofDigitChars_ten_toDigits]
  omega

theorem value?_repr {v : Nat} (h : v < 2 ^ 64) : value? v.repr = some v := by
  have hunderscore : ∀ c ∈ Nat.toDigits 10 v, decide (c ≠ '_') = true := by
    intro c hc
    rw [decide_eq_true_iff]
    rintro rfl
    exact not_mem_toDigits (by decide) (by decide) (by decide) v hc
  rw [value?_eq_some_iff, Nat.toList_repr, List.filter_eq_self.2 hunderscore]
  exact ⟨h, numeral_toDigits_ten v⟩

end Text

namespace Bounds

variable {b : Bounds} {t : Target}

theorem Selects.high_eq (h : b.Selects t) : b.high = t.bits.high := by
  cases h <;> rfl

theorem Selects.low_eq (h : b.Selects t) : b.low = t.bits.low := by
  cases h with
  | bit heq => exact heq.symm
  | span => rfl
  | field => rfl

end Bounds

namespace BitRange

theorem exists_spells_text (r : BitRange) :
    ∃ b, Bounds.Spells r.text b ∧ b.Selects (.range r) := by
  have hhigh := Text.position_repr r.high_lt
  have hlow := Text.position_repr (Nat.lt_of_le_of_lt r.low_le_high r.high_lt)
  unfold text
  split
  next heq =>
    have hspells := Bounds.Spells.bit (Text.isNumeral_repr r.high)
    rw [hhigh] at hspells
    exact ⟨_, hspells, .bit heq.symm⟩
  next hne =>
    have hspells := Bounds.Spells.span (Text.isNumeral_repr r.high) (Text.isNumeral_repr r.low)
    rw [hhigh, hlow] at hspells
    exact ⟨_, hspells, .span (Nat.lt_of_le_of_ne r.low_le_high (Ne.symm hne))⟩

theorem mem_text {r : BitRange} {c : Char} (h : c ∈ r.text.toList) :
    c.isDigit = true ∨ c = '.' := by
  have hdigit {n : Nat} (hc : c ∈ n.repr.toList) : c.isDigit = true :=
    (Text.isNumeral_repr n).2 c hc
  have hdots : "..".toList = ['.', '.'] := by decide
  unfold text at h
  split at h
  · exact .inl (hdigit h)
  · simp only [String.toList_append, hdots, List.mem_append, List.mem_cons, List.not_mem_nil,
      or_false, or_self] at h
    rcases h with (h | h) | h
    · exact .inl (hdigit h)
    · exact .inr h
    · exact .inl (hdigit h)

theorem not_mem_text {r : BitRange} : '=' ∉ r.text.toList := by
  intro h
  cases mem_text h with
  | inl h => exact absurd h (by decide)
  | inr h => exact absurd h (by decide)

end BitRange

namespace Operand

theorem edit?_name (f : Field) : edit? f.name = some (.field f) :=
  edit?_of_ofText (Reads.field rfl).ofText_eq

def fix (l : Literal) : String := l.range.text ++ "=" ++ l.value.toNat.repr

def free (r : BitRange) : String := r.text ++ "=" ++ Setting.ignoreWord

theorem edit?_fix {l : Literal} (h : l.value.toNat < 2 ^ l.range.width) :
    edit? (fix l) = some (.literal l.range l.value.toNat) := by
  obtain ⟨b, hspells, hselects⟩ := l.range.exists_spells_text
  have hvalue : Text.value? l.value.toNat.repr = some l.value.toNat :=
    Text.value?_repr (Nat.lt_of_lt_of_le l.value.isLt (by decide))
  have hassigns : Assigns (fix l) l.range.text l.value.toNat.repr :=
    ⟨rfl, BitRange.not_mem_text, (Text.isNumeral_repr _).not_mem (by decide)⟩
  have hwidth : l.range.width = Nat.dist b.high b.low + 1 := hselects.width_eq
  rw [hwidth] at h
  exact edit?_of_ofText (Reads.assign hassigns hspells (.literal hvalue h) hselects).ofText_eq

theorem edit?_free (r : BitRange) : edit? (free r) = some (.ignore r) := by
  obtain ⟨b, hspells, hselects⟩ := r.exists_spells_text
  have hassigns : Assigns (free r) r.text Setting.ignoreWord :=
    ⟨rfl, BitRange.not_mem_text, by decide⟩
  exact edit?_of_ofText (Reads.assign hassigns hspells .ignore hselects).ofText_eq

theorem edit?_of_two_marks {left value : String} (h : '=' ∈ value.toList) :
    edit? (left ++ "=" ++ value) = none := by
  have hmark : "=".toList.count '=' = 1 := by decide
  have hvalue := List.one_le_count_iff.2 h
  have hmany : 2 ≤ (left ++ "=" ++ value).toList.count '=' := by
    rw [String.toList_append, String.toList_append, List.count_append, List.count_append, hmark]
    omega
  rw [edit?, (Reads.manyMarks hmany).ofText_eq]
  rfl

theorem edit?_range_assign (f : Field) (value : String) :
    edit? (f.range.text ++ "=" ++ value) = edit? (f.name ++ "=" ++ value) := by
  by_cases hmark : '=' ∈ value.toList
  · rw [edit?_of_two_marks hmark, edit?_of_two_marks hmark]
  · obtain ⟨b, hspells, hselects⟩ := f.range.exists_spells_text
    have hrange : Assigns (f.range.text ++ "=" ++ value) f.range.text value :=
      ⟨rfl, BitRange.not_mem_text, hmark⟩
    have hname : Assigns (f.name ++ "=" ++ value) f.name value :=
      ⟨rfl, f.not_mem_name (by decide), hmark⟩
    have hsetting : Setting.ofText value b = Setting.ofText value (.field f) := by
      rw [Setting.ofText, Setting.ofText, Bounds.width, Bounds.width, hselects.high_eq,
        hselects.low_eq]
      rfl
    rw [edit?, edit?, hrange.ofText_eq, hname.ofText_eq, Bounds.ofText?_eq_some_iff.2 hspells,
      Bounds.ofText?_eq_some_iff.2 (.field f)]
    dsimp only
    rw [hsetting, Bounds.target_eq_ok_iff.2 hselects]
    cases Setting.ofText value (.field f) with
    | error fault => rfl
    | ok s => cases s <;> rfl

/-- The operand stays as it is, or it assigns to the range of a field in place of the field, or the
other way round. -/
inductive Renamed : String → String → Prop
  | refl (text : String) : Renamed text text
  | toRange (f : Field) (value : String) :
    Renamed (f.name ++ "=" ++ value) (f.range.text ++ "=" ++ value)
  | toName (f : Field) (value : String) :
    Renamed (f.range.text ++ "=" ++ value) (f.name ++ "=" ++ value)

theorem Renamed.edit?_eq {a b : String} (h : Renamed a b) : edit? a = edit? b := by
  cases h with
  | refl => rfl
  | toRange f value => exact (edit?_range_assign f value).symm
  | toName f value => exact edit?_range_assign f value

section Words

theorem isWord_name (f : Field) : Token.IsWord f.name := by
  constructor
  · obtain ⟨c, hc, -⟩ := f.name_chars.2
    intro h
    rw [h] at hc
    cases hc
  · exact fun c hc => Token.isWordChar_of_isAlphanum (f.name_chars.1 c hc)

theorem isWord_assign (r : BitRange) {value : String}
    (h : ∀ c ∈ value.toList, c.isAlphanum = true) : Token.IsWord (r.text ++ "=" ++ value) := by
  have hmark : "=".toList = ['='] := by decide
  constructor
  · simp [← String.toList_eq_nil_iff, hmark]
  · simp only [String.toList_append, hmark, List.mem_append, List.mem_singleton]
    rintro c ((hc | rfl) | hc)
    · rcases BitRange.mem_text hc with hdigit | rfl
      · exact Token.isWordChar_of_isAlphanum (by simp [Char.isAlphanum, hdigit])
      · decide
    · decide
    · exact Token.isWordChar_of_isAlphanum (h c hc)

theorem isWord_fix (l : Literal) : Token.IsWord (fix l) := by
  refine isWord_assign l.range fun c hc => ?_
  simp [Char.isAlphanum, (Text.isNumeral_repr _).2 c hc]

theorem isWord_free (r : BitRange) : Token.IsWord (free r) := by
  have hword : Setting.ignoreWord.toList.all Char.isAlphanum = true := by decide
  exact isWord_assign r (List.all_eq_true.1 hword)

end Words

end Operand

end OpcodeTable
