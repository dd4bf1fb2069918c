import Mathlib.Algebra.Group.Nat.Defs
import Mathlib.Data.List.Forall2
import OpcodeTable.Proofs.Word.Cover

namespace OpcodeTable

namespace BitRange

theorem extract_congr {r : BitRange} {v w : Word} (h : ∀ i ∈ r, v.getLsbD i = w.getLsbD i) :
    r.extract v = r.extract w := by
  apply Nat.eq_of_testBit_eq
  intro i
  rw [testBit_extract, testBit_extract]
  by_cases hi : i < r.width
  · rw [h _ (mem_iff_lt_width.2 hi)]
  · simp [hi]

theorem fits_iff_lt_two_pow {r : BitRange} {v : Nat} : r.fits v = true ↔ v < 2 ^ r.width := by
  rw [fits_iff, Nat.one_shiftLeft]

theorem width_le (r : BitRange) : r.width ≤ 32 := by
  have := r.low_add_width
  have := r.high_lt
  omega

theorem two_pow_width_le (r : BitRange) : 2 ^ r.width ≤ 2 ^ 32 :=
  Nat.pow_le_pow_right (by decide) r.width_le

theorem toNat_ofNat_of_fits {r : BitRange} {v : Nat} (h : r.fits v = true) :
    (BitVec.ofNat 32 v).toNat = v :=
  Nat.mod_eq_of_lt (Nat.lt_of_lt_of_le (fits_iff_lt_two_pow.1 h) r.two_pow_width_le)

theorem extract_lt_two_pow (r : BitRange) (w : Word) : r.extract w < 2 ^ r.width := by
  rw [extract, Nat.one_shiftLeft]
  exact Nat.mod_lt _ (Nat.two_pow_pos r.width)

theorem extract_place {r : BitRange} {v : Nat} (h : v < 2 ^ r.width) :
    r.extract (r.place v) = v := by
  apply Nat.eq_of_testBit_eq
  intro i
  rw [testBit_extract, getLsbD_place, Nat.add_sub_cancel_left]
  by_cases hi : i < r.width
  · simp [hi, mem_iff_lt_width.2 hi]
  · have hv : v.testBit i = false :=
      Nat.testBit_lt_two_pow (Nat.lt_of_lt_of_le h (Nat.pow_le_pow_right (by decide) (by omega)))
    simp [hi, hv]

theorem toNat_place {r : BitRange} {v : Nat} (h : v < 2 ^ r.width) :
    (r.place v).toNat = v <<< r.low := by
  have hlow := r.low_add_width
  have hhigh := r.high_lt
  have hlt : v <<< r.low < 2 ^ 32 := by
    calc
      v <<< r.low = v * 2 ^ r.low := Nat.shiftLeft_eq v r.low
      _ < 2 ^ r.width * 2 ^ r.low := Nat.mul_lt_mul_of_pos_right h (Nat.two_pow_pos r.low)
      _ = 2 ^ (r.high + 1) := by rw [← Nat.pow_add, Nat.add_comm, hlow]
      _ ≤ 2 ^ 32 := Nat.pow_le_pow_right (by decide) hhigh
  rw [place, Nat.one_shiftLeft, Nat.mod_eq_of_lt h, BitVec.toNat_ofNat, Nat.mod_eq_of_lt hlt]

theorem place_extract (r : BitRange) (w : Word) : r.place (r.extract w) = w &&& r.mask := by
  apply Word.ext_bits
  intro i
  rw [getLsbD_place, BitVec.getLsbD_and, getLsbD_mask, Bool.and_comm]
  by_cases hi : i ∈ r
  · have hlt : i - r.low < r.width := by
      have := r.low_add_width
      rw [mem_def] at hi
      omega
    rw [testBit_extract, Nat.add_sub_cancel' hi.1]
    simp [hlt]
  · simp [hi]

def placeAll (rs : List BitRange) (vs : List Nat) : Word := Word.union (List.zipWith place rs vs)

@[simp] theorem placeAll_cons (r : BitRange) (rs : List BitRange) (v : Nat) (vs : List Nat) :
    placeAll (r :: rs) (v :: vs) = r.place v ||| placeAll rs vs := rfl

theorem placeAll_append {rs ss : List BitRange} {us vs : List Nat} (h : rs.length = us.length) :
    placeAll (rs ++ ss) (us ++ vs) = placeAll rs us ||| placeAll ss vs := by
  rw [placeAll, List.zipWith_append h, Word.union_append]
  rfl

theorem exists_mem_of_getLsbD_placeAll {rs : List BitRange} {vs : List Nat} {i : Nat}
    (h : (placeAll rs vs).getLsbD i = true) : ∃ r ∈ rs, i ∈ r := by
  induction rs generalizing vs with
  | nil => simp [placeAll, Word.union] at h
  | cons r rs ih =>
    cases vs with
    | nil => simp [placeAll, Word.union] at h
    | cons v vs =>
      rw [placeAll_cons, BitVec.getLsbD_or, Bool.or_eq_true] at h
      cases h with
      | inl h =>
        rw [getLsbD_place, Bool.and_eq_true, decide_eq_true_iff] at h
        exact ⟨r, List.mem_cons_self, h.1⟩
      | inr h =>
        obtain ⟨s, hs, his⟩ := ih h
        exact ⟨s, List.mem_cons_of_mem r hs, his⟩

theorem placeAll_extract (rs : List BitRange) (w : Word) :
    placeAll rs (rs.map fun r => r.extract w) = w &&& cover rs := by
  induction rs with
  | nil => simp [placeAll, Word.union]
  | cons r rs ih =>
    rw [List.map_cons, placeAll_cons, ih, place_extract, cover_cons, BitVec.and_or_distrib_left]

theorem map_extract_or_placeAll {rs : List BitRange} {vs : List Nat} {b : Word}
    (hfits : List.Forall₂ (fun r v => v < 2 ^ r.width) rs vs) (hdisj : rs.Pairwise Disjoint)
    (hb : ∀ r ∈ rs, ∀ i ∈ r, b.getLsbD i = false) :
    rs.map (fun r => r.extract (b ||| placeAll rs vs)) = vs := by
  induction hfits generalizing b with
  | nil => rfl
  | @cons r v rs vs hv hfits ih =>
    rw [List.pairwise_cons] at hdisj
    rw [List.forall_mem_cons] at hb
    rw [List.map_cons, placeAll_cons]
    congr 1
    · refine (extract_congr ?_).trans (extract_place hv)
      intro i hi
      have hrest : (placeAll rs vs).getLsbD i = false := by
        rw [← Bool.not_eq_true]
        intro h
        obtain ⟨s, hs, his⟩ := exists_mem_of_getLsbD_placeAll h
        exact hdisj.1 s hs i hi his
      simp only [BitVec.getLsbD_or, hb.1 i hi, hrest, Bool.or_false, Bool.false_or]
    · rw [← BitVec.or_assoc]
      apply ih hdisj.2
      intro s hs i hi
      have hir : i ∉ r := fun hir => hdisj.1 s hs i hir hi
      simp [hb.2 s hs i hi, hir]

theorem map_extract_placeAll {rs : List BitRange} {vs : List Nat}
    (hfits : List.Forall₂ (fun r v => v < 2 ^ r.width) rs vs) (hdisj : rs.Pairwise Disjoint) :
    rs.map (fun r => r.extract (placeAll rs vs)) = vs := by
  have hzero : 0 ||| placeAll rs vs = placeAll rs vs := BitVec.zero_or
  rw [← hzero]
  exact map_extract_or_placeAll hfits hdisj (by simp)

end BitRange

end OpcodeTable
