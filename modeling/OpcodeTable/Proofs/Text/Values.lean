import Mathlib.Data.List.Forall2
import Mathlib.Data.Nat.Digits.Defs
import OpcodeTable.Proofs.Text.Numbers

namespace OpcodeTable.Text

def IsDigit (radix : Nat) (c : Char) (d : Nat) : Prop :=
  d < radix ∧ (c = d.digitChar ∨ c = d.digitChar.toUpper)

def Denotes (radix : Nat) (cs : List Char) (v : Nat) : Prop :=
  ∃ ds, ds ≠ [] ∧ List.Forall₂ (IsDigit radix) cs ds ∧ v = Nat.ofDigits radix ds.reverse

inductive SignedDenotes (radix : Nat) : List Char → Nat → Prop
  | plain {cs : List Char} {v : Nat} : Denotes radix cs v → SignedDenotes radix cs v
  | plus {cs : List Char} {v : Nat} : Denotes radix cs v → SignedDenotes radix ('+' :: cs) v

def marks : List (String × Nat) :=
  [("0x", 16), ("0X", 16), ("0b", 2), ("0B", 2), ("0o", 8), ("0O", 8)]

def Unmarked (cs : List Char) : Prop := ∀ m ∈ marks, ¬ m.1.toList <+: cs

/-- The numerals, without their underscores, and the value of each. Without a mark the radix is ten,
and zero comes first only in zero itself. -/
inductive Numeral : List Char → Nat → Prop
  | marked {mark : String} {radix : Nat} {cs : List Char} {v : Nat} :
    (mark, radix) ∈ marks → SignedDenotes radix cs v → Numeral (mark.toList ++ cs) v
  | decimal {cs : List Char} {v : Nat} :
    Unmarked cs → SignedDenotes 10 cs v → (cs.head? = some '0' → ∀ c ∈ cs, c = '0') → Numeral cs v

section Digits

variable {radix : Nat} (hradix : radix ≤ 16)

include hradix

theorem digit?_eq_some_iff {c : Char} {d : Nat} : digit? radix c = some d ↔ IsDigit radix c d := by
  have eq_ofNat {n : Nat} (h : c.toNat = n) : c = Char.ofNat n := by rw [← h, Char.ofNat_toNat]
  have hdigit : ∀ e < 10, Char.ofNat (48 + e) = e.digitChar := by decide
  have hsmall : ∀ e < 6, Char.ofNat (97 + e) = (e + 10).digitChar := by decide
  have hcapital : ∀ e < 6, Char.ofNat (65 + e) = (e + 10).digitChar.toUpper := by decide
  have hall : ∀ r ≤ 16, ∀ e < r, digit? r e.digitChar.toUpper = some e := by decide
  constructor
  · intro h
    unfold digit? at h
    dsimp only at h
    obtain ⟨h, hlt⟩ := Option.filter_eq_some_iff.1 h
    have hlt : d < radix := of_decide_eq_true hlt
    refine ⟨hlt, ?_⟩
    split at h
    next hc =>
      have hlow : 48 ≤ c.toNat := hc.1
      have hhigh : c.toNat ≤ 57 := hc.2
      have hd : c.toNat - 48 = d := Option.some.inj h
      left
      rw [← hdigit d (by omega)]
      exact eq_ofNat (by omega)
    next =>
      split at h
      next hc =>
        have hlow : 97 ≤ c.toNat := hc.1
        obtain rfl : c.toNat - 97 + 10 = d := Option.some.inj h
        left
        rw [← hsmall _ (by omega)]
        exact eq_ofNat (by omega)
      next =>
        split at h
        next hc =>
          have hlow : 65 ≤ c.toNat := hc.1
          obtain rfl : c.toNat - 65 + 10 = d := Option.some.inj h
          right
          rw [← hcapital _ (by omega)]
          exact eq_ofNat (by omega)
        next => cases h
  · rintro ⟨hlt, rfl | rfl⟩
    · exact digit?_digitChar hradix hlt
    · exact hall radix hradix d hlt

theorem ofDigits?_eq_some_iff {acc n : Nat} {cs : List Char} :
    ofDigits? radix acc cs = some n ↔
      ∃ ds, List.Forall₂ (IsDigit radix) cs ds ∧
        n = Nat.ofDigits radix ds.reverse + radix ^ ds.length * acc := by
  induction cs generalizing acc with
  | nil => simp [ofDigits?, List.forall₂_nil_left_iff, eq_comm]
  | cons c cs ih =>
    have hplace (d : Nat) (ds : List Nat) :
        Nat.ofDigits radix (d :: ds).reverse + radix ^ (d :: ds).length * acc =
          Nat.ofDigits radix ds.reverse + radix ^ ds.length * (acc * radix + d) := by
      rw [List.reverse_cons, Nat.ofDigits_append, Nat.ofDigits_singleton, List.length_reverse,
        List.length_cons, Nat.pow_succ]
      ring
    rw [ofDigits?, Option.bind_eq_some_iff]
    constructor
    · rintro ⟨d, hd, hrest⟩
      obtain ⟨ds, hds, rfl⟩ := ih.1 hrest
      exact ⟨d :: ds, .cons ((digit?_eq_some_iff hradix).1 hd) hds, (hplace d ds).symm⟩
    · rintro ⟨ds, hds, rfl⟩
      cases hds with
      | @cons _ d _ ds hd hds =>
        exact ⟨d, (digit?_eq_some_iff hradix).2 hd, ih.2 ⟨ds, hds, hplace d ds⟩⟩

theorem natural?_eq_some_iff {cs : List Char} {v : Nat} :
    natural? radix cs = some v ↔ Denotes radix cs v := by
  cases cs with
  | nil =>
    refine ⟨nofun, ?_⟩
    rintro ⟨ds, hne, hds, -⟩
    exact absurd (List.forall₂_nil_left_iff.1 hds) hne
  | cons c cs =>
    rw [natural?, ofDigits?_eq_some_iff hradix, Denotes]
    simp only [Nat.mul_zero, Nat.add_zero]
    refine exists_congr fun ds => ⟨fun h => ⟨?_, h⟩, And.right⟩
    rintro rfl
    cases h.1

theorem signed?_eq_some_iff {cs : List Char} {v : Nat} :
    signed? radix cs = some v ↔ SignedDenotes radix cs v := by
  have hplus : digit? radix '+' = none := rfl
  unfold signed?
  split
  next cs =>
    have hnone (w : Nat) : ¬ Denotes radix ('+' :: cs) w := by
      rw [← natural?_eq_some_iff hradix, natural?, ofDigits?, hplus]
      intro h
      cases h
    rw [natural?_eq_some_iff hradix]
    refine ⟨.plus, fun h => ?_⟩
    cases h with
    | plain h => exact absurd h (hnone v)
    | plus h => exact h
  next hne =>
    rw [natural?_eq_some_iff hradix]
    refine ⟨.plain, fun h => ?_⟩
    cases h with
    | plain h => exact h
    | plus h => exact absurd rfl (hne _)

end Digits

section Marks

theorem radix_le_of_mem_marks {mark : String} {radix : Nat} (h : (mark, radix) ∈ marks) :
    radix ≤ 16 := by
  have hall : ∀ m ∈ marks, m.2 ≤ 16 := by decide
  exact hall _ h

theorem unbounded?_append {mark : String} {radix : Nat} (h : (mark, radix) ∈ marks)
    (cs : List Char) : unbounded? (mark.toList ++ cs) = signed? radix cs := by
  simp only [marks, List.mem_cons, List.not_mem_nil, or_false, Prod.mk.injEq] at h
  rcases h with ⟨rfl, rfl⟩ | ⟨rfl, rfl⟩ | ⟨rfl, rfl⟩ | ⟨rfl, rfl⟩ | ⟨rfl, rfl⟩ | ⟨rfl, rfl⟩ <;> rfl

theorem signed?_zeros {cs : List Char} (hne : cs ≠ []) (h : ∀ c ∈ cs, c = '0') :
    signed? 10 cs = some 0 := by
  have hzeros {cs : List Char} (h : ∀ c ∈ cs, c = '0') : ofDigits? 10 0 cs = some 0 := by
    induction cs with
    | nil => rfl
    | cons c cs ih =>
      rw [List.forall_mem_cons] at h
      obtain ⟨rfl, h⟩ := h
      exact ih h
  cases cs with
  | nil => exact absurd rfl hne
  | cons c cs =>
    obtain ⟨rfl, -⟩ := List.forall_mem_cons.1 h
    exact hzeros h

theorem unbounded?_of_unmarked {cs : List Char} {v : Nat} (h : Unmarked cs) :
    unbounded? cs = some v ↔
      signed? 10 cs = some v ∧ (cs.head? = some '0' → ∀ c ∈ cs, c = '0') := by
  have apart {c : Char} (hmark : ∃ m ∈ marks, m.1.toList = ['0', c]) (rest : List Char) :
      ¬ Unmarked ('0' :: c :: rest) := by
    obtain ⟨m, hm, hchars⟩ := hmark
    intro h
    exact h m hm ⟨rest, by rw [hchars]; rfl⟩
  unfold unbounded?
  split
  case h_7 rest _ _ _ _ _ _ =>
    have hzeros : rest.all (· == '0') = true ↔ ∀ c ∈ '0' :: rest, c = '0' := by simp
    by_cases hall : ∀ c ∈ '0' :: rest, c = '0'
    · rw [if_pos (hzeros.2 hall), signed?_zeros (List.cons_ne_nil _ _) hall]
      exact (and_iff_left fun _ => hall).symm
    · rw [if_neg (mt hzeros.1 hall)]
      constructor
      · intro hnone
        cases hnone
      · intro hsigned
        exact absurd (hsigned.2 rfl) hall
  case h_8 hzero =>
    refine (and_iff_left fun hhead => ?_).symm
    cases cs with
    | nil => cases hhead
    | cons c cs =>
      obtain rfl := Option.some.inj hhead
      exact absurd rfl (hzero cs)
  all_goals exact absurd h (apart (by decide) _)

theorem unbounded?_eq_some_iff {cs : List Char} {v : Nat} :
    unbounded? cs = some v ↔ Numeral cs v := by
  constructor
  · intro h
    by_cases hmark : Unmarked cs
    · obtain ⟨h, hzero⟩ := (unbounded?_of_unmarked hmark).1 h
      exact .decimal hmark ((signed?_eq_some_iff (by decide)).1 h) hzero
    · simp only [Unmarked, not_forall, not_not] at hmark
      obtain ⟨⟨mark, radix⟩, hmem, rest, rfl⟩ := hmark
      rw [unbounded?_append hmem] at h
      exact .marked hmem ((signed?_eq_some_iff (radix_le_of_mem_marks hmem)).1 h)
  · intro h
    cases h with
    | marked hmem h =>
      rw [unbounded?_append hmem]
      exact (signed?_eq_some_iff (radix_le_of_mem_marks hmem)).2 h
    | decimal hmark h hzero =>
      exact (unbounded?_of_unmarked hmark).2 ⟨(signed?_eq_some_iff (by decide)).2 h, hzero⟩

end Marks

section Spelling

theorem Denotes.map_toUpper {radix : Nat} (hradix : radix ≤ 16) {cs : List Char} {v : Nat}
    (h : Denotes radix cs v) : Denotes radix (cs.map Char.toUpper) v := by
  have hupper : ∀ d < 16, d.digitChar.toUpper.toUpper = d.digitChar.toUpper := by decide
  obtain ⟨ds, hne, hds, hv⟩ := h
  refine ⟨ds, hne, ?_, hv⟩
  rw [List.forall₂_map_left_iff]
  refine hds.imp ?_
  rintro c d ⟨hd, rfl | rfl⟩
  · exact ⟨hd, .inr rfl⟩
  · exact ⟨hd, .inr (hupper d (by omega))⟩

theorem denotes_toDigits {radix : Nat} (hlow : 1 < radix) (hhigh : radix ≤ 16) (v : Nat) :
    Denotes radix (Nat.toDigits radix v) v :=
  (natural?_eq_some_iff hhigh).1 (natural?_toDigits hlow hhigh v)

theorem eq_zero_of_head?_toDigits {n : Nat} (h : (Nat.toDigits 10 n).head? = some '0') : n = 0 := by
  have hzero : ∀ d < 10, d.digitChar = '0' → d = 0 := by decide
  induction n using Nat.strongRecOn with
  | ind n ih =>
    rw [Nat.toDigits_eq_if (by decide)] at h
    split at h
    next hlt => exact hzero n hlt (Option.some.inj h)
    next hge =>
      rw [List.head?_append_of_ne_nil _ Nat.toDigits_ne_nil] at h
      have := ih (n / 10) (by omega) h
      omega

theorem numeral_toDigits_ten (v : Nat) : Numeral (Nat.toDigits 10 v) v := by
  refine .decimal ?_ (.plain (denotes_toDigits (by decide) (by decide) v)) ?_
  · have hletter : ∀ m ∈ marks, (m.1.toList.any fun c => (digit? 10 c).isNone) = true := by decide
    intro m hm hstarts
    obtain ⟨c, hc, hnone⟩ := List.any_eq_true.1 (hletter m hm)
    rw [Option.isNone_iff_eq_none] at hnone
    exact not_mem_toDigits (by decide) (by decide) hnone v (hstarts.subset hc)
  · intro h
    rw [eq_zero_of_head?_toDigits h]
    simp

theorem map_toUpper_toDigits_ten (v : Nat) :
    (Nat.toDigits 10 v).map Char.toUpper = Nat.toDigits 10 v := by
  have hdigit : ∀ d < 10, d.digitChar.toUpper = d.digitChar := by decide
  refine (List.map_congr_left ?_).trans (List.map_id _)
  intro c hc
  have hsome := isSome_digit?_of_mem (ofDigits?_toDigits (by decide) (by decide) v) c hc
  obtain ⟨d, hd⟩ := Option.isSome_iff_exists.1 hsome
  obtain ⟨hlt, rfl | rfl⟩ := (digit?_eq_some_iff (by decide)).1 hd
  · exact hdigit d hlt
  · rw [hdigit d hlt]
    exact hdigit d hlt

theorem numeral_of_spelling {mark : String} {radix v : Nat} {digits : List Char}
    (hmark : (mark, radix) ∈ ("", 10) :: marks)
    (hdigits : digits = Nat.toDigits radix v ∨ digits = (Nat.toDigits radix v).map Char.toUpper) :
    Numeral (mark.toList ++ digits) v := by
  cases List.mem_cons.1 hmark with
  | inl h =>
    cases h
    rw [map_toUpper_toDigits_ten, or_self] at hdigits
    rw [hdigits]
    exact numeral_toDigits_ten v
  | inr h =>
    have hlow : ∀ m ∈ marks, 1 < m.2 := by decide
    have hdenotes := denotes_toDigits (hlow _ h) (radix_le_of_mem_marks h) v
    refine .marked h (.plain ?_)
    rcases hdigits with rfl | rfl
    · exact hdenotes
    · exact hdenotes.map_toUpper (radix_le_of_mem_marks h)

end Spelling

theorem value?_eq_some_iff {text : String} {v : Nat} :
    value? text = some v ↔ v < 2 ^ 64 ∧ Numeral (text.toList.filter (· ≠ '_')) v := by
  have hbound : valueBound = 2 ^ 64 := Nat.one_shiftLeft 64
  rw [value?, Option.filter_eq_some_iff, unbounded?_eq_some_iff, decide_eq_true_iff, hbound,
    and_comm]

/-- Values are read exactly: a text gives the value that it spells once its underscores are taken
out, if 64 bits are enough for it, and every other text gives none. However a value is spelled and
wherever underscores are put in, it comes back. -/
theorem value_by_numeral (text : String) :
    (∀ v, value? text = some v ↔ v < 2 ^ 64 ∧ Numeral (text.toList.filter (· ≠ '_')) v) ∧
      (value? text = none ↔ ∀ v, Numeral (text.toList.filter (· ≠ '_')) v → 2 ^ 64 ≤ v) ∧
      ∀ mark radix v digits, (mark, radix) ∈ ("", 10) :: marks → v < 2 ^ 64 →
        (digits = Nat.toDigits radix v ∨ digits = (Nat.toDigits radix v).map Char.toUpper) →
          text.toList.filter (· ≠ '_') = mark.toList ++ digits → value? text = some v := by
  refine ⟨fun v => value?_eq_some_iff, ?_, ?_⟩
  · simp only [Option.eq_none_iff_forall_ne_some, ne_eq, value?_eq_some_iff, not_and]
    exact forall_congr' fun v => ⟨fun h hv => Nat.not_lt.1 fun hlt => h hlt hv,
      fun h hlt hv => absurd hlt (Nat.not_lt.2 (h hv))⟩
  · intro mark radix v digits hmark hv hdigits htext
    rw [value?_eq_some_iff, htext]
    exact ⟨hv, numeral_of_spelling hmark hdigits⟩

example : value? "0_x+0_f" = some 15 := by decide

end OpcodeTable.Text
