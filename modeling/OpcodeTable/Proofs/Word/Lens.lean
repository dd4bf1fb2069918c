import OpcodeTable.Proofs.Word.Checked
import OpcodeTable.Proofs.Word.Count

namespace OpcodeTable

namespace BitRange

def put (r : BitRange) (w : Word) (v : Nat) : Word := (w &&& ~~~r.mask) ||| r.place v

variable {r s : BitRange} {w : Word} {v : Nat} {i : Nat}

theorem getLsbD_put_of_mem (h : i ∈ r) : (r.put w v).getLsbD i = (r.place v).getLsbD i := by
  simp [put, h]

theorem getLsbD_put_of_not_mem (h : i ∉ r) : (r.put w v).getLsbD i = w.getLsbD i := by
  have hw : w.getLsbD i = true → i < 32 := BitVec.lt_of_getLsbD
  simpa [put, h] using hw

theorem place_and_mask (r : BitRange) (v : Nat) : r.place v &&& r.mask = r.place v := by
  rw [Word.and_eq_left_iff]
  intro i hi
  rw [getLsbD_place, Bool.and_eq_true] at hi
  rw [getLsbD_mask]
  exact hi.1

theorem extract_place_eq_mod (r : BitRange) (v : Nat) :
    r.extract (r.place v) = v % 2 ^ r.width := by
  rw [← place_mod, extract_place (Nat.mod_lt v (Nat.two_pow_pos r.width))]

theorem fits_iff_extract_place : r.fits v = true ↔ r.extract (r.place v) = v := by
  have hpos : 2 ^ r.width ≠ 0 := Nat.ne_of_gt (Nat.two_pow_pos r.width)
  rw [fits_iff_lt_two_pow, extract_place_eq_mod, Nat.mod_eq_iff_lt hpos]

theorem extract_put_eq_extract_place (r : BitRange) (w : Word) (v : Nat) :
    r.extract (r.put w v) = r.extract (r.place v) :=
  extract_congr fun _ hi => getLsbD_put_of_mem hi

theorem put_extract (r : BitRange) (w : Word) : r.put w (r.extract w) = w := by
  apply Word.ext_bits
  intro i
  by_cases hi : i ∈ r
  · rw [getLsbD_put_of_mem hi, place_extract]
    simp [hi]
  · exact getLsbD_put_of_not_mem hi

theorem put_put (r : BitRange) (w : Word) (u v : Nat) : r.put (r.put w u) v = r.put w v := by
  apply Word.ext_bits
  intro i
  by_cases hi : i ∈ r
  · rw [getLsbD_put_of_mem hi, getLsbD_put_of_mem hi]
  · rw [getLsbD_put_of_not_mem hi, getLsbD_put_of_not_mem hi, getLsbD_put_of_not_mem hi]

theorem extract_put_of_disjoint (h : r.Disjoint s) : s.extract (r.put w v) = s.extract w :=
  extract_congr fun i hs => getLsbD_put_of_not_mem fun hr => h i hr hs

/-- What reading and writing a range mean, for every word and every value. -/
structure Lens (r : BitRange) : Prop where
  mem_mask : ∀ i, r.mask.getLsbD i = true ↔ r.low ≤ i ∧ i ≤ r.high
  bitCount_mask : r.mask.bitCount = r.width
  place_inside : ∀ v, r.place v &&& r.mask = r.place v
  extract_place : ∀ v, r.extract (r.place v) = v % 2 ^ r.width
  place_extract : ∀ w, r.place (r.extract w) = w &&& r.mask
  extract_put : ∀ w v, r.extract (r.put w v) = v % 2 ^ r.width
  put_extract : ∀ w, r.put w (r.extract w) = w
  put_put : ∀ w u v, r.put (r.put w u) v = r.put w v
  fits_iff : ∀ v, r.fits v = true ↔ r.extract (r.place v) = v
  frame : ∀ s : BitRange, r.mask &&& s.mask = 0 → ∀ w v, s.extract (r.put w v) = s.extract w

theorem lens (r : BitRange) : r.Lens where
  mem_mask i := by rw [getLsbD_mask, decide_eq_true_iff, mem_def]
  bitCount_mask := r.bitCount_mask
  place_inside := r.place_and_mask
  extract_place := r.extract_place_eq_mod
  place_extract := r.place_extract
  extract_put w v := by rw [extract_put_eq_extract_place, extract_place_eq_mod]
  put_extract := r.put_extract
  put_put := r.put_put
  fits_iff _ := fits_iff_extract_place
  frame _ h _ _ := extract_put_of_disjoint (mask_and_mask_eq_zero_iff.1 h)

/-- Bounds that make a range make a lens on the word, and the bytes that hold them compute it: no
sum, difference or shift leaves its width on the way, and no number is cut that has bits to lose. -/
theorem lens_of_ofBounds {high low : BitVec 32} {r : BitRange}
    (h : ofBounds high.toNat low.toNat = .ok r) :
    (r.high = high.toNat ∧ r.low = low.toNat ∧ r.width = high.toNat - low.toNat + 1) ∧
      ByteRange.ofBounds? high low = some r.packed ∧ r.packed.Computes r ∧ r.Lens := by
  obtain ⟨hhigh, hlow⟩ := ofBounds_eq_ok_iff.1 h
  refine ⟨⟨hhigh, hlow, ?_⟩, packed_of_ofBounds h, r.computes_packed, r.lens⟩
  rw [width, hhigh, hlow]

theorem lens_of_upper_bits :
    (between 31 20).extract ((between 31 20).put 0xABCDE 0x1FFF) = 0xFFF ∧
      (between 19 0).extract ((between 31 20).put 0xABCDE 0x1FFF) = 0xABCDE := by
  have hbounds : ofBounds (31#32).toNat (20#32).toNat = .ok (between 31 20) := rfl
  obtain ⟨-, -, -, hlens⟩ := lens_of_ofBounds hbounds
  have hcut : 0x1FFF % 2 ^ (between 31 20).width = 0xFFF := rfl
  have hapart : (between 31 20).mask &&& (between 19 0).mask = 0 := by decide
  have hrest : (between 19 0).extract 0xABCDE = 0xABCDE := by decide
  exact ⟨(hlens.extract_put _ _).trans hcut, (hlens.frame _ hapart _ _).trans hrest⟩

end BitRange

end OpcodeTable
