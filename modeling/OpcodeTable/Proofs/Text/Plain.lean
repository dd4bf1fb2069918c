import OpcodeTable.Proofs.Text.Reading

namespace OpcodeTable.Text

def Plain (s : String) : Prop := ∀ c ∈ s.toList, isBlank c = true → c = ' '

-- The characters of the text are gone through, and not all characters that there are.
instance (s : String) : Decidable (Plain s) :=
  decidable_of_iff (s.toList.all fun c => !isBlank c || c == ' ') (by
    simp only [Plain, List.all_eq_true, Bool.or_eq_true, Bool.not_eq_true', beq_iff_eq,
      ← Bool.not_eq_true, ← imp_iff_not_or])

@[simp] theorem plain_append {s t : String} : Plain (s ++ t) ↔ Plain s ∧ Plain t := by
  simp only [Plain, String.toList_append, List.forall_mem_append]

theorem Unbroken.plain {s : String} (h : Unbroken s) : Plain s := by
  intro c hc hblank
  rw [h c hc] at hblank
  cases hblank

theorem Plain.oneLine {s : String} (h : Plain s) : OneLine s := by
  intro c hc
  constructor
  all_goals
    rintro rfl
    exact absurd (h _ hc (by decide)) (by decide)

def PlainAround (path line : String) : Prop :=
  ∃ start stop, Plain start ∧ Plain stop ∧ stop ≠ "" ∧ line = start ++ path ++ stop

namespace PlainAround

variable {path line : String}

theorem eq_space_or_mem (h : PlainAround path line) {c : Char} (hc : c ∈ line.toList)
    (hblank : isBlank c = true) : c = ' ' ∨ c ∈ path.toList := by
  obtain ⟨start, stop, hstart, hstop, -, rfl⟩ := h
  simp only [String.toList_append, List.mem_append] at hc
  rcases hc with (hc | hc) | hc
  · exact .inl (hstart c hc hblank)
  · exact .inr hc
  · exact .inl (hstop c hc hblank)

theorem getLast?_ne_return (h : PlainAround path line) : line.toList.getLast? ≠ some '\r' := by
  obtain ⟨start, stop, -, hstop, hne, rfl⟩ := h
  rw [String.toList_append, List.getLast?_append_of_ne_nil _ (by simpa using hne)]
  exact fun hlast => (hstop.oneLine _ (List.mem_of_getLast? hlast)).2 rfl

end PlainAround

section Digits

theorem isBlank_of_isSome_digit? {radix : Nat} {c : Char} (h : (digit? radix c).isSome = true) :
    isBlank c = false := by
  have hrange : 48 ≤ c.toNat ∧ c.toNat ≤ 122 := by
    unfold digit? at h
    dsimp only at h
    split at h
    next hdigit =>
      have hle : c.toNat ≤ 57 := hdigit.2
      exact ⟨hdigit.1, by omega⟩
    next =>
      split at h
      next hsmall =>
        have hge : 97 ≤ c.toNat := hsmall.1
        exact ⟨by omega, hsmall.2⟩
      next =>
        split at h
        next hcapital =>
          have hge : 65 ≤ c.toNat := hcapital.1
          have hle : c.toNat ≤ 90 := hcapital.2
          omega
        next => cases h
  simp only [isBlank, blankRuns, List.any_cons, List.any_nil, Bool.or_false,
    Bool.or_eq_false_iff, ← Bool.decide_and, decide_eq_false_iff_not]
  omega

variable {radix : Nat} (hlow : 1 < radix) (hhigh : radix ≤ 16)

include hlow hhigh

theorem isBlank_of_mem_toDigits {n : Nat} {c : Char} (h : c ∈ Nat.toDigits radix n) :
    isBlank c = false :=
  isBlank_of_isSome_digit? (isSome_digit?_of_mem (ofDigits?_toDigits hlow hhigh n) c h)

theorem unbroken_leftpad (k n : Nat) :
    Unbroken (String.ofList ((Nat.toDigits radix n).leftpad k '0')) := by
  intro c hc
  rw [String.toList_ofList, List.leftpad, List.mem_append, List.mem_replicate] at hc
  cases hc with
  | inl h =>
    rw [h.2]
    decide
  | inr h => exact isBlank_of_mem_toDigits hlow hhigh h

end Digits

theorem unbroken_repr (n : Nat) : Unbroken n.repr := by
  intro c hc
  rw [Nat.toList_repr] at hc
  exact isBlank_of_mem_toDigits (by decide) (by decide) hc

end OpcodeTable.Text
