import OpcodeTable.Fault

namespace OpcodeTable

structure BitRange where
  high : Nat
  low : Nat
  low_le_high : low ≤ high
  high_lt : high < 32
  deriving DecidableEq, Repr

namespace BitRange

instance : Membership Nat BitRange :=
  ⟨fun r i => r.low ≤ i ∧ i ≤ r.high⟩

theorem mem_def {r : BitRange} {i : Nat} : i ∈ r ↔ r.low ≤ i ∧ i ≤ r.high := Iff.rfl

instance (i : Nat) (r : BitRange) : Decidable (i ∈ r) :=
  inferInstanceAs (Decidable (r.low ≤ i ∧ i ≤ r.high))

def between (high low : Nat) (h : low ≤ high ∧ high < 32 := by decide) : BitRange :=
  ⟨high, low, h.1, h.2⟩

def ofBounds (high low : Nat) : Except Fault BitRange :=
  if h : low ≤ high ∧ high < 32 then .ok ⟨high, low, h.1, h.2⟩
  else .error (.badRange high low)

def bit (i : Nat) : Except Fault BitRange := ofBounds i i

def width (r : BitRange) : Nat := r.high - r.low + 1

theorem low_add_width (r : BitRange) : r.low + r.width = r.high + 1 := by
  have := r.low_le_high
  unfold width
  omega

def max (r : BitRange) : Nat := (1 <<< r.width) - 1

def fits (r : BitRange) (v : Nat) : Bool := decide (v ≤ r.max)

theorem fits_iff {r : BitRange} {v : Nat} : r.fits v = true ↔ v < 1 <<< r.width := by
  have := Nat.two_pow_pos r.width
  rw [fits, decide_eq_true_iff, max, Nat.one_shiftLeft]
  omega

def mask (r : BitRange) : Word := BitVec.ofNat 32 (r.max <<< r.low)

@[simp] theorem getLsbD_mask (r : BitRange) (i : Nat) : r.mask.getLsbD i = decide (i ∈ r) := by
  have := r.low_add_width
  have := r.high_lt
  simp only [mask, max, Nat.one_shiftLeft, BitVec.getLsbD_ofNat, Nat.testBit_shiftLeft,
    Nat.testBit_two_pow_sub_one, ← Bool.decide_and, mem_def, ge_iff_le, decide_eq_decide]
  omega

/-- The word that holds `v` in the range and zero elsewhere; what exceeds the width is cut off. -/
def place (r : BitRange) (v : Nat) : Word := BitVec.ofNat 32 ((v % (1 <<< r.width)) <<< r.low)

@[simp] theorem getLsbD_place (r : BitRange) (v i : Nat) :
    (r.place v).getLsbD i = (decide (i ∈ r) && v.testBit (i - r.low)) := by
  have := r.low_add_width
  have := r.high_lt
  have h : (i < 32 ∧ r.low ≤ i ∧ i - r.low < r.width) ↔ i ∈ r := by
    rw [mem_def]
    omega
  simp only [place, Nat.one_shiftLeft, BitVec.getLsbD_ofNat, Nat.testBit_shiftLeft,
    Nat.testBit_mod_two_pow, ← Bool.and_assoc, ← Bool.decide_and, ge_iff_le, h]

def extract (r : BitRange) (w : Word) : Nat := (w.toNat >>> r.low) % (1 <<< r.width)

@[simp] theorem testBit_extract (r : BitRange) (w : Word) (i : Nat) :
    (r.extract w).testBit i = (decide (i < r.width) && w.getLsbD (r.low + i)) := by
  simp only [extract, Nat.one_shiftLeft, Nat.testBit_mod_two_pow, Nat.testBit_shiftRight,
    BitVec.testBit_toNat]

def text (r : BitRange) : String :=
  if r.high = r.low then r.high.repr else r.high.repr ++ ".." ++ r.low.repr

end BitRange

end OpcodeTable
