import OpcodeTable.Text.Numeral
import OpcodeTable.Word

namespace OpcodeTable.Text

theorem ofDigits?_append (radix acc : Nat) (xs ys : List Char) :
    ofDigits? radix acc (xs ++ ys) =
      (ofDigits? radix acc xs).bind fun acc' => ofDigits? radix acc' ys := by
  induction xs generalizing acc with
  | nil => rfl
  | cons x xs ih =>
    simp only [List.cons_append, ofDigits?, Option.bind_assoc]
    congr 1
    funext d
    exact ih _

theorem isSome_digit?_of_mem {radix acc n : Nat} {cs : List Char}
    (h : ofDigits? radix acc cs = some n) : ∀ c ∈ cs, (digit? radix c).isSome := by
  induction cs generalizing acc with
  | nil => simp
  | cons c cs ih =>
    rw [ofDigits?, Option.bind_eq_some_iff] at h
    obtain ⟨d, hd, hrest⟩ := h
    rw [List.forall_mem_cons]
    exact ⟨Option.isSome_of_eq_some hd, ih hrest⟩

section Digits

variable {radix : Nat} (hlow : 1 < radix) (hhigh : radix ≤ 16)

include hhigh in
theorem digit?_digitChar {d : Nat} (hd : d < radix) : digit? radix d.digitChar = some d := by
  have hall : ∀ r ≤ 16, ∀ e < r, digit? r e.digitChar = some e := by decide
  exact hall radix hhigh d hd

include hlow hhigh

theorem ofDigits?_toDigits (n : Nat) : ofDigits? radix 0 (Nat.toDigits radix n) = some n := by
  induction n using Nat.strongRecOn with
  | ind n ih =>
    rw [Nat.toDigits_eq_if hlow]
    split
    next h => simp [ofDigits?, digit?_digitChar hhigh h]
    next h =>
      have hdiv : n / radix < n := Nat.div_lt_self (by omega) hlow
      have hmod : n % radix < radix := Nat.mod_lt n (by omega)
      rw [ofDigits?_append, ih _ hdiv, Option.bind_some, ofDigits?, digit?_digitChar hhigh hmod,
        Option.bind_some, ofDigits?, Nat.mul_comm, Nat.div_add_mod]

theorem natural?_toDigits (n : Nat) : natural? radix (Nat.toDigits radix n) = some n := by
  rw [← ofDigits?_toDigits hlow hhigh n]
  cases h : Nat.toDigits radix n with
  | nil => exact absurd h Nat.toDigits_ne_nil
  | cons c cs => rfl

theorem natural?_leftpad (k n : Nat) :
    natural? radix ((Nat.toDigits radix n).leftpad k '0') = some n := by
  have hpos : 0 < radix := Nat.lt_trans Nat.zero_lt_one hlow
  have hchar : Nat.digitChar 0 = '0' := rfl
  have hzero : digit? radix '0' = some 0 := hchar ▸ digit?_digitChar hhigh hpos
  have hzeros (j : Nat) (cs : List Char) :
      ofDigits? radix 0 (List.replicate j '0' ++ cs) = ofDigits? radix 0 cs := by
    induction j with
    | zero => rfl
    | succ j ih =>
      rw [List.replicate_succ, List.cons_append, ofDigits?, hzero, Option.bind_some, Nat.zero_mul]
      exact ih
  rw [List.leftpad]
  cases k - (Nat.toDigits radix n).length with
  | zero => exact natural?_toDigits hlow hhigh n
  | succ j => exact (hzeros (j + 1) _).trans (ofDigits?_toDigits hlow hhigh n)

theorem not_mem_toDigits {c : Char} (hc : digit? radix c = none) (n : Nat) :
    c ∉ Nat.toDigits radix n := by
  intro hmem
  have hsome := isSome_digit?_of_mem (ofDigits?_toDigits hlow hhigh n) c hmem
  rw [hc] at hsome
  cases hsome

end Digits

def hex? (cs : List Char) : Option Nat :=
  match cs with
  | '0' :: 'x' :: digits => natural? 16 digits
  | _ => none

@[simp] theorem toList_hex (n : Nat) : (hex n).toList = '0' :: 'x' :: Nat.toDigits 16 n := by
  simp [hex]

theorem hex?_hex (n : Nat) : hex? (hex n).toList = some n := by
  rw [toList_hex]
  exact natural?_toDigits (by decide) (by decide) n

theorem not_mem_hex {c : Char} (hx : c ≠ 'x') (hc : digit? 16 c = none) (n : Nat) :
    c ∉ (hex n).toList := by
  have hzero : c ≠ '0' := by
    rintro rfl
    revert hc
    decide
  rw [toList_hex, List.mem_cons, List.mem_cons, not_or, not_or]
  exact ⟨hzero, hx, not_mem_toDigits (by decide) (by decide) hc n⟩

def integer? : List Char → Option Int
  | '-' :: digits => (natural? 10 digits).map fun n => -(n : Int)
  | digits => (natural? 10 digits).map fun n => (n : Int)

theorem integer?_toDigits (n : Nat) : integer? (Nat.toDigits 10 n) = some (n : Int) := by
  have hminus : '-' ∉ Nat.toDigits 10 n := not_mem_toDigits (by decide) (by decide) (by decide) n
  unfold integer?
  split
  next digits h => simp [h] at hminus
  next h => rw [natural?_toDigits (by decide) (by decide)]; rfl

theorem integer?_repr (i : Int) : integer? i.repr.toList = some i := by
  cases i with
  | ofNat n =>
    have h : (Int.ofNat n).repr = n.repr := rfl
    rw [h, Nat.toList_repr]
    exact integer?_toDigits n
  | negSucc n =>
    have h : (Int.negSucc n).repr = "-" ++ (n + 1).repr := rfl
    have hdigits : natural? 10 (Nat.toDigits 10 (n + 1)) = some (n + 1) :=
      natural?_toDigits (by decide) (by decide) (n + 1)
    have hminus : "-".toList = ['-'] := by decide
    rw [h, String.toList_append, Nat.toList_repr, hminus, List.singleton_append, integer?, hdigits]
    rfl

theorem not_mem_repr {c : Char} (hminus : c ≠ '-') (hc : digit? 10 c = none) (i : Int) :
    c ∉ i.repr.toList := by
  have hdigits (n : Nat) : c ∉ n.repr.toList := by
    rw [Nat.toList_repr]
    exact not_mem_toDigits (by decide) (by decide) hc n
  cases i with
  | ofNat n => exact hdigits n
  | negSucc n =>
    have h : (Int.negSucc n).repr = "-" ++ (n + 1).repr := rfl
    have hsign : "-".toList = ['-'] := by decide
    rw [h, String.toList_append, hsign, List.singleton_append, List.mem_cons, not_or]
    exact ⟨hminus, hdigits (n + 1)⟩

section Decimal

theorem digit?_ten (c : Char) :
    digit? 10 c = if c.isDigit then some (c.toNat - '0'.toNat) else none := by
  have hdigit : c.isDigit = true ↔ '0' ≤ c ∧ c ≤ '9' := by
    rw [Char.isDigit_iff_toNat]
    exact Iff.rfl
  have hletter (n : Nat) : (some (n + 10)).filter (fun d => decide (d < 10)) = none := by
    rw [Option.filter_some, if_neg]
    simp
  unfold digit?
  dsimp only
  by_cases h : '0' ≤ c ∧ c ≤ '9'
  · have hlt : c.toNat - '0'.toNat < 10 := by
      have hle : c.toNat ≤ 57 := h.2
      have hzero : '0'.toNat = 48 := rfl
      omega
    rw [if_pos h, if_pos (hdigit.2 h), Option.filter_some, if_pos (decide_eq_true hlt)]
  · rw [if_neg h, if_neg (mt hdigit.1 h)]
    split
    · exact hletter _
    · split
      · exact hletter _
      · rfl

theorem ofDigits?_ten_eq_some_iff {acc n : Nat} {cs : List Char} :
    ofDigits? 10 acc cs = some n ↔
      (∀ c ∈ cs, c.isDigit = true) ∧ n = Nat.ofDigitChars 10 cs acc := by
  induction cs generalizing acc with
  | nil =>
    rw [ofDigits?, Option.some.injEq, Nat.ofDigitChars_nil, eq_comm]
    simp
  | cons c cs ih =>
    rw [ofDigits?, digit?_ten, List.forall_mem_cons, Nat.ofDigitChars_cons, Nat.mul_comm 10]
    by_cases hc : c.isDigit = true
    · rw [if_pos hc, Option.bind_some, ih]
      simp [hc]
    · simp [hc]

def IsNumeral (s : String) : Prop := s.toList ≠ [] ∧ ∀ c ∈ s.toList, c.isDigit = true

theorem IsNumeral.not_mem {s : String} (h : IsNumeral s) {c : Char} (hc : c.isDigit = false) :
    c ∉ s.toList := by
  intro hmem
  rw [h.2 c hmem] at hc
  cases hc

def position (s : String) : Nat := min 0xFFFFFFFF (Nat.ofDigitChars 10 s.toList 0)

theorem position?_eq_some_iff {s : String} {i : Nat} :
    position? s.toList = some i ↔ IsNumeral s ∧ i = position s := by
  have hnatural (n : Nat) : natural? 10 s.toList = some n ↔
      IsNumeral s ∧ n = Nat.ofDigitChars 10 s.toList 0 := by
    rw [IsNumeral]
    cases hs : s.toList with
    | nil => simp [natural?]
    | cons c cs => simp only [natural?, ofDigits?_ten_eq_some_iff, ne_eq, reduceCtorEq,
        not_false_eq_true, true_and]
  have hfar : farPosition = 0xFFFFFFFF := by decide
  simp only [position?, Option.map_eq_some_iff, hnatural, position, hfar]
  constructor
  · rintro ⟨n, ⟨h, rfl⟩, rfl⟩
    exact ⟨h, rfl⟩
  · rintro ⟨h, rfl⟩
    exact ⟨_, ⟨h, rfl⟩, rfl⟩

end Decimal

end OpcodeTable.Text
