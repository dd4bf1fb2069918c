import OpcodeTable.Proofs.Word.Cover

namespace OpcodeTable

theorem countP_or_add_countP_and {α : Type} (p q : α → Bool) (xs : List α) :
    xs.countP (fun x => p x || q x) + xs.countP (fun x => p x && q x) =
      xs.countP p + xs.countP q := by
  induction xs with
  | nil => rfl
  | cons x xs ih =>
    simp only [List.countP_cons]
    cases p x <;> cases q x <;>
      simp only [Bool.or_true, Bool.or_false, Bool.and_true, Bool.and_false, if_true,
        Bool.false_eq_true, if_false] <;> omega

theorem countP_range_between {low high : Nat} (h : low ≤ high) (n : Nat) :
    (List.range n).countP (fun i => decide (low ≤ i ∧ i ≤ high)) =
      min n (high + 1) - min n low := by
  induction n with
  | zero => rfl
  | succ n ih =>
    rw [List.range_succ, List.countP_append, ih, List.countP_singleton]
    by_cases hn : low ≤ n ∧ n ≤ high
    · rw [if_pos (decide_eq_true hn)]
      omega
    · rw [if_neg (by simpa using hn)]
      omega

namespace Word

theorem bitCount_or_add_bitCount_and (v w : Word) :
    (v ||| w).bitCount + (v &&& w).bitCount = v.bitCount + w.bitCount := by
  have hor : (v ||| w).getLsbD = fun i => v.getLsbD i || w.getLsbD i :=
    funext fun i => BitVec.getLsbD_or
  have hand : (v &&& w).getLsbD = fun i => v.getLsbD i && w.getLsbD i :=
    funext fun i => BitVec.getLsbD_and
  unfold bitCount
  rw [hor, hand, countP_or_add_countP_and]

theorem bitCount_le (w : Word) : w.bitCount ≤ 32 := by
  have hle := List.countP_le_length (p := w.getLsbD) (l := List.range 32)
  rwa [List.length_range] at hle

theorem bitCount_eq_zero_iff {w : Word} : w.bitCount = 0 ↔ w = 0 := by
  rw [bitCount, List.countP_eq_zero]
  constructor
  · intro h
    apply BitVec.eq_of_getLsbD_eq
    intro i hi
    simpa using h i (List.mem_range.2 hi)
  · rintro rfl
    simp

end Word

namespace BitRange

theorem bitCount_mask (r : BitRange) : r.mask.bitCount = r.width := by
  have hle := r.low_le_high
  have hlt := r.high_lt
  have hbits : r.mask.getLsbD = fun i => decide (r.low ≤ i ∧ i ≤ r.high) := by
    funext i
    exact r.getLsbD_mask i
  rw [Word.bitCount, hbits, countP_range_between hle, width]
  omega

variable {rs : List BitRange} {r : BitRange}

theorem bitCount_cover_cons (r : BitRange) (rs : List BitRange) :
    (cover (r :: rs)).bitCount + (cover rs &&& r.mask).bitCount =
      r.width + (cover rs).bitCount := by
  rw [cover_cons, BitVec.and_comm, Word.bitCount_or_add_bitCount_and, bitCount_mask]

theorem bitCount_cover_le (rs : List BitRange) :
    (cover rs).bitCount ≤ rs.foldr (fun r bits => r.width + bits) 0 := by
  induction rs with
  | nil => decide
  | cons r rs ih =>
    have hcons := bitCount_cover_cons r rs
    rw [List.foldr_cons]
    omega

theorem sum_width_eq_bitCount_cover_iff :
    rs.foldr (fun r bits => r.width + bits) 0 = (cover rs).bitCount ↔ rs.Pairwise Disjoint := by
  induction rs with
  | nil => exact iff_of_true (by decide) .nil
  | cons r rs ih =>
    have hcons := bitCount_cover_cons r rs
    have hle := bitCount_cover_le rs
    have hfree : (cover rs &&& r.mask).bitCount = 0 ↔ ∀ s ∈ rs, r.Disjoint s := by
      rw [Word.bitCount_eq_zero_iff, cover_and_mask_eq_zero_iff]
      exact forall₂_congr fun s _ => disjoint_comm
    rw [List.foldr_cons, List.pairwise_cons, ← ih, ← hfree]
    omega

theorem sum_width_le (rs : List BitRange) :
    rs.foldr (fun r bits => r.width + bits) 0 ≤ 32 * rs.length := by
  induction rs with
  | nil => exact Nat.le_refl 0
  | cons r rs ih =>
    have hwidth := r.low_add_width
    have hlt := r.high_lt
    rw [List.foldr_cons, List.length_cons]
    omega

end BitRange

end OpcodeTable
