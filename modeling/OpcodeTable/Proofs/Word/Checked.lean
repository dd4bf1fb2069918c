import OpcodeTable.Proofs.Word.Place

/-!
Ranges in arithmetic of fixed width. The bounds of a range are a byte each, its bits are found among
numbers of sixty-four bits, and a word has thirty-two. A step whose exact result does not fit its
width fails, and so does a cut that loses something; none of these ever happens.
-/

namespace OpcodeTable

namespace Checked

variable {m n i j k : Nat}

def add? (x y : BitVec n) : Option (BitVec n) :=
  if x.toNat + y.toNat < 2 ^ n then some (x + y) else none

def sub? (x y : BitVec n) : Option (BitVec n) :=
  if y.toNat ≤ x.toNat then some (x - y) else none

/-- By fewer places than there are, and without pushing out a bit. -/
def shiftLeft? (x : BitVec n) (k : Nat) : Option (BitVec n) :=
  if k < n ∧ x.toNat <<< k < 2 ^ n then some (x <<< k) else none

def shiftRight? (x : BitVec n) (k : Nat) : Option (BitVec n) :=
  if k < n then some (x >>> k) else none

def resize? (m : Nat) (x : BitVec n) : Option (BitVec m) :=
  if x.toNat < 2 ^ m then some (x.setWidth m) else none

theorem add?_eq_some_iff {x y z : BitVec n} :
    add? x y = some z ↔ x.toNat + y.toNat = z.toNat := by
  unfold add?
  split
  next h =>
    rw [Option.some.injEq, ← BitVec.toNat_inj, BitVec.toNat_add, Nat.mod_eq_of_lt h]
  next h =>
    have := z.isLt
    exact iff_of_false nofun (by omega)

theorem sub?_eq_some_iff {x y z : BitVec n} :
    sub? x y = some z ↔ x.toNat = y.toNat + z.toNat := by
  unfold sub?
  split
  next h =>
    rw [Option.some.injEq, ← BitVec.toNat_inj, BitVec.toNat_sub_of_le (BitVec.le_def.2 h)]
    omega
  next h => exact iff_of_false nofun (by omega)

theorem shiftLeft?_eq_some_iff {x z : BitVec n} :
    shiftLeft? x k = some z ↔ k < n ∧ x.toNat <<< k = z.toNat := by
  unfold shiftLeft?
  split
  next h =>
    rw [Option.some.injEq, ← BitVec.toNat_inj, BitVec.toNat_shiftLeft, Nat.mod_eq_of_lt h.2,
      and_iff_right h.1]
  next h =>
    refine iff_of_false nofun fun hz => h ⟨hz.1, ?_⟩
    rw [hz.2]
    exact z.isLt

theorem shiftRight?_eq_some_iff {x z : BitVec n} :
    shiftRight? x k = some z ↔ k < n ∧ x.toNat >>> k = z.toNat := by
  unfold shiftRight?
  split
  next h =>
    rw [Option.some.injEq, ← BitVec.toNat_inj, BitVec.toNat_ushiftRight, and_iff_right h]
  next h => exact iff_of_false nofun fun hz => h hz.1

theorem resize?_eq_some_iff {x : BitVec n} {z : BitVec m} :
    resize? m x = some z ↔ x.toNat = z.toNat := by
  unfold resize?
  split
  next h =>
    rw [Option.some.injEq, ← BitVec.toNat_inj, BitVec.toNat_setWidth, Nat.mod_eq_of_lt h]
  next h =>
    refine iff_of_false nofun fun hz => h ?_
    rw [hz]
    exact z.isLt

theorem toNat_ofNat (h : i < 2 ^ n) : (BitVec.ofNat n i).toNat = i := Nat.mod_eq_of_lt h

theorem add?_ofNat (h : i + j < 2 ^ n) :
    add? (BitVec.ofNat n i) (BitVec.ofNat n j) = some (BitVec.ofNat n (i + j)) := by
  rw [add?_eq_some_iff, toNat_ofNat (by omega), toNat_ofNat (by omega), toNat_ofNat h]

theorem sub?_ofNat (hle : j ≤ i) (h : i < 2 ^ n) :
    sub? (BitVec.ofNat n i) (BitVec.ofNat n j) = some (BitVec.ofNat n (i - j)) := by
  rw [sub?_eq_some_iff, toNat_ofNat h, toNat_ofNat (by omega), toNat_ofNat (by omega),
    Nat.add_sub_cancel' hle]

theorem shiftLeft?_ofNat (hk : k < n) (h : i <<< k < 2 ^ n) :
    shiftLeft? (BitVec.ofNat n i) k = some (BitVec.ofNat n (i <<< k)) := by
  have hle : i ≤ i <<< k := Nat.shiftLeft_eq i k ▸ Nat.le_mul_of_pos_right i (Nat.two_pow_pos k)
  rw [shiftLeft?_eq_some_iff, toNat_ofNat (by omega), toNat_ofNat h]
  exact ⟨hk, rfl⟩

theorem resize?_ofNat (hn : i < 2 ^ n) (hm : i < 2 ^ m) :
    resize? m (BitVec.ofNat n i) = some (BitVec.ofNat m i) := by
  rw [resize?_eq_some_iff, toNat_ofNat hn, toNat_ofNat hm]

end Checked

open Checked

structure ByteRange where
  high : BitVec 8
  low : BitVec 8

namespace ByteRange

def ofBounds? (high low : BitVec 32) : Option ByteRange :=
  if low ≤ high ∧ high < 32 then do return ⟨← resize? 8 high, ← resize? 8 low⟩ else none

def width? (p : ByteRange) : Option (BitVec 8) := do
  add? (← sub? p.high p.low) 1#8

def max? (p : ByteRange) : Option (BitVec 64) := do
  sub? (← shiftLeft? 1#64 (← p.width?).toNat) 1#64

def fits? (p : ByteRange) (v : BitVec 64) : Option Bool := do
  return decide (v ≤ (← p.max?))

def mask? (p : ByteRange) : Option Word := do
  -- For a range at the top of the word, the upper power is above all words.
  let upper ← shiftLeft? 1#64 (← add? (← resize? 32 p.high) 1#32).toNat
  let lower ← shiftLeft? 1#64 p.low.toNat
  resize? 32 (← sub? upper lower)

def place? (p : ByteRange) (v : BitVec 64) : Option Word := do
  resize? 32 (← shiftLeft? (v &&& (← p.max?)) p.low.toNat)

def extract? (p : ByteRange) (w : Word) : Option Word := do
  shiftRight? (w &&& (← p.mask?)) p.low.toNat

/-- Everything that is computed with the bytes comes out, and it is what the range says. -/
structure Computes (p : ByteRange) (r : BitRange) : Prop where
  width : p.width?.map BitVec.toNat = some r.width
  max : p.max?.map BitVec.toNat = some r.max
  fits : ∀ v, p.fits? v = some (r.fits v.toNat)
  mask : p.mask? = some r.mask
  place : ∀ v, p.place? v = some (r.place v.toNat)
  extract : ∀ w, (p.extract? w).map BitVec.toNat = some (r.extract w)

end ByteRange

namespace BitRange

variable (r : BitRange)

def packed : ByteRange := ⟨BitVec.ofNat 8 r.high, BitVec.ofNat 8 r.low⟩

theorem low_lt : r.low < 32 := Nat.lt_of_le_of_lt r.low_le_high r.high_lt

theorem toNat_low_packed : r.packed.low.toNat = r.low :=
  toNat_ofNat (Nat.lt_trans r.low_lt (by decide))

theorem max_add_one : r.max + 1 = 2 ^ r.width := by
  have := Nat.two_pow_pos r.width
  rw [max, Nat.one_shiftLeft]
  omega

theorem toNat_max : (BitVec.ofNat 64 r.max).toNat = r.max := by
  have := r.max_add_one
  have := r.two_pow_width_le
  exact toNat_ofNat (by omega)

theorem and_max (v : Nat) : v &&& r.max = v % 2 ^ r.width := by
  rw [max, Nat.one_shiftLeft, Nat.and_two_pow_sub_one_eq_mod]

theorem one_shiftLeft_sub :
    1 <<< (r.high + 1) - 1 <<< r.low = r.max <<< r.low := by
  rw [← low_add_width, Nat.one_shiftLeft, Nat.one_shiftLeft, max, Nat.one_shiftLeft,
    Nat.shiftLeft_eq, Nat.sub_mul, Nat.one_mul, ← Nat.pow_add, Nat.add_comm]

theorem place_mod (v : Nat) : r.place (v % 2 ^ r.width) = r.place v := by
  rw [place, place, Nat.one_shiftLeft, Nat.mod_mod]

theorem toNat_place_mod (v : Nat) : (r.place v).toNat = (v % 2 ^ r.width) <<< r.low := by
  rw [← place_mod, toNat_place (Nat.mod_lt v (Nat.two_pow_pos r.width))]

theorem and_mask_shiftRight (w : Word) : (w &&& r.mask).toNat >>> r.low = r.extract w := by
  rw [← place_extract, toNat_place (r.extract_lt_two_pow w), Nat.shiftLeft_shiftRight]

theorem width?_packed : r.packed.width? = some (BitVec.ofNat 8 r.width) := by
  have := r.high_lt
  refine Option.bind_eq_some_iff.2 ⟨_, sub?_ofNat r.low_le_high (by omega), ?_⟩
  exact add?_ofNat (by omega)

theorem max?_packed : r.packed.max? = some (BitVec.ofNat 64 r.max) := by
  have hwidth := r.width_le
  have hpow : 1 <<< r.width = r.max + 1 := by rw [Nat.one_shiftLeft, max_add_one]
  have hle := r.two_pow_width_le
  rw [← max_add_one] at hle
  refine Option.bind_eq_some_iff.2 ⟨_, r.width?_packed, ?_⟩
  rw [toNat_ofNat (by omega)]
  refine Option.bind_eq_some_iff.2 ⟨_, shiftLeft?_ofNat (by omega) (by omega), ?_⟩
  exact sub?_ofNat (by omega) (by omega)

theorem fits?_packed (v : BitVec 64) : r.packed.fits? v = some (r.fits v.toNat) := by
  refine Option.bind_eq_some_iff.2 ⟨_, r.max?_packed, congrArg some ?_⟩
  simp only [fits, BitVec.le_def, toNat_max]

theorem mask?_packed : r.packed.mask? = some r.mask := by
  have hhigh := r.high_lt
  have hlow := r.low_lt
  have hle {i j : Nat} (hij : i ≤ j) : 1 <<< i ≤ 1 <<< j := by
    rw [Nat.one_shiftLeft, Nat.one_shiftLeft]
    exact Nat.pow_le_pow_right (by decide) hij
  have hupper : 1 <<< (r.high + 1) ≤ 2 ^ 32 := hle hhigh
  have hlower : 1 <<< r.low ≤ 1 <<< (r.high + 1) := hle (Nat.le_succ_of_le r.low_le_high)
  have hpos : 1 ≤ 1 <<< r.low := hle (Nat.zero_le r.low)
  refine Option.bind_eq_some_iff.2 ⟨_, resize?_ofNat (by omega) (by omega), ?_⟩
  refine Option.bind_eq_some_iff.2 ⟨_, add?_ofNat (by omega), ?_⟩
  rw [toNat_ofNat (by omega)]
  refine Option.bind_eq_some_iff.2 ⟨_, shiftLeft?_ofNat (by omega) (by omega), ?_⟩
  rw [toNat_low_packed]
  refine Option.bind_eq_some_iff.2 ⟨_, shiftLeft?_ofNat (by omega) (by omega), ?_⟩
  refine Option.bind_eq_some_iff.2 ⟨_, sub?_ofNat hlower (by omega), ?_⟩
  rw [resize?_ofNat (by omega) (by omega), one_shiftLeft_sub]
  rfl

theorem place?_packed (v : BitVec 64) : r.packed.place? v = some (r.place v.toNat) := by
  have hlow := r.low_lt
  have hplaced := (r.place v.toNat).isLt
  rw [toNat_place_mod] at hplaced
  have hvalue : v &&& BitVec.ofNat 64 r.max = BitVec.ofNat 64 (v.toNat % 2 ^ r.width) := by
    apply BitVec.eq_of_toNat_eq
    rw [BitVec.toNat_and, toNat_max, and_max,
      toNat_ofNat (Nat.lt_of_le_of_lt (Nat.mod_le _ _) v.isLt)]
  refine Option.bind_eq_some_iff.2 ⟨_, r.max?_packed, ?_⟩
  rw [hvalue, toNat_low_packed]
  refine Option.bind_eq_some_iff.2 ⟨_, shiftLeft?_ofNat (by omega) (by omega), ?_⟩
  rw [resize?_ofNat (by omega) hplaced, place, Nat.one_shiftLeft]

theorem extract?_packed (w : Word) :
    (r.packed.extract? w).map BitVec.toNat = some (r.extract w) := by
  have hshift : shiftRight? (w &&& r.mask) r.low = some ((w &&& r.mask) >>> r.low) := by
    rw [shiftRight?_eq_some_iff, BitVec.toNat_ushiftRight]
    exact ⟨r.low_lt, rfl⟩
  have hextract : r.packed.extract? w = some ((w &&& r.mask) >>> r.low) := by
    refine Option.bind_eq_some_iff.2 ⟨_, r.mask?_packed, ?_⟩
    rw [toNat_low_packed, hshift]
  rw [hextract, Option.map_some, BitVec.toNat_ushiftRight, and_mask_shiftRight]

theorem computes_packed : r.packed.Computes r where
  width := by
    have := r.width_le
    rw [width?_packed, Option.map_some, toNat_ofNat (by omega)]
  max := by rw [max?_packed, Option.map_some, toNat_max]
  fits := r.fits?_packed
  mask := r.mask?_packed
  place := r.place?_packed
  extract := r.extract?_packed

variable {r}

theorem packed_of_ofBounds {high low : BitVec 32} (h : ofBounds high.toNat low.toNat = .ok r) :
    ByteRange.ofBounds? high low = some r.packed := by
  obtain ⟨hhigh, hlow⟩ := ofBounds_eq_ok_iff.1 h
  have hlow32 := r.low_lt
  have hhigh32 := r.high_lt
  have hvalid : low ≤ high ∧ high < 32 := by
    rw [BitVec.le_def, BitVec.lt_def, ← hhigh, ← hlow]
    exact ⟨r.low_le_high, hhigh32⟩
  rw [ByteRange.ofBounds?, if_pos hvalid]
  refine Option.bind_eq_some_iff.2 ⟨BitVec.ofNat 8 r.high, ?_, ?_⟩
  · rw [resize?_eq_some_iff, toNat_ofNat (by omega), hhigh]
  · refine Option.bind_eq_some_iff.2 ⟨BitVec.ofNat 8 r.low, ?_, rfl⟩
    rw [resize?_eq_some_iff, toNat_ofNat (by omega), hlow]

end BitRange

end OpcodeTable
