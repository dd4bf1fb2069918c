import OpcodeTable.BitRange

namespace OpcodeTable

namespace Word

theorem ext_bits {v w : Word} (h : ∀ i, v.getLsbD i = w.getLsbD i) : v = w :=
  BitVec.eq_of_getLsbD_eq fun i _ => h i

theorem and_eq_zero_iff {v w : Word} :
    v &&& w = 0 ↔ ∀ i, v.getLsbD i = true → w.getLsbD i = false := by
  constructor
  · intro h i hv
    have hi : (v &&& w).getLsbD i = false := by simp [h]
    simpa [hv] using hi
  · intro h
    apply ext_bits
    intro i
    cases hv : v.getLsbD i with
    | false => simp [hv]
    | true => simp [hv, h i hv]

theorem or_and_eq_zero_iff {u v w : Word} :
    (u ||| v) &&& w = 0 ↔ u &&& w = 0 ∧ v &&& w = 0 := by
  simp only [and_eq_zero_iff, BitVec.getLsbD_or, Bool.or_eq_true, ← forall_and, or_imp]

theorem and_eq_left_iff {v w : Word} :
    v &&& w = v ↔ ∀ i, v.getLsbD i = true → w.getLsbD i = true := by
  constructor
  · intro h i hv
    have hi : (v &&& w).getLsbD i = true := by rw [h, hv]
    simpa [hv] using hi
  · intro h
    apply ext_bits
    intro i
    cases hv : v.getLsbD i with
    | false => simp [hv]
    | true => simp [hv, h i hv]

theorem and_not_eq_zero_iff {v w : Word} : v &&& ~~~w = 0 ↔ v &&& w = v := by
  rw [and_eq_zero_iff, and_eq_left_iff]
  apply forall_congr'
  intro i
  apply imp_congr_right
  intro hi
  simp [BitVec.lt_of_getLsbD hi]

def union : List Word → Word
  | [] => 0
  | w :: ws => w ||| union ws

@[simp] theorem getLsbD_union (ws : List Word) (i : Nat) :
    (union ws).getLsbD i = ws.any fun w => w.getLsbD i := by
  induction ws with
  | nil => simp [union]
  | cons w ws ih => simp [union, ih]

theorem union_append (vs ws : List Word) : union (vs ++ ws) = union vs ||| union ws := by
  apply ext_bits
  intro i
  simp

end Word

namespace BitRange

theorem ofBounds_eq_ok_iff {high low : Nat} {r : BitRange} :
    ofBounds high low = .ok r ↔ r.high = high ∧ r.low = low := by
  unfold ofBounds
  split
  next h =>
    rw [Except.ok.injEq]
    constructor
    · rintro rfl
      exact ⟨rfl, rfl⟩
    · rintro ⟨rfl, rfl⟩
      rfl
  next h =>
    refine ⟨nofun, ?_⟩
    rintro ⟨rfl, rfl⟩
    exact absurd ⟨r.low_le_high, r.high_lt⟩ h

theorem ofBounds_eq_error_iff {high low : Nat} {e : Fault} :
    ofBounds high low = .error e ↔
      ¬ (low ≤ high ∧ high < 32) ∧ e = .badRange high low := by
  unfold ofBounds
  split
  next h => exact ⟨nofun, fun h' => absurd h h'.1⟩
  next h => rw [Except.error.injEq, eq_comm, and_iff_right h]

def Disjoint (r s : BitRange) : Prop := ∀ i ∈ r, i ∉ s

theorem Disjoint.symm {r s : BitRange} (h : r.Disjoint s) : s.Disjoint r :=
  fun i hs hr => h i hr hs

theorem disjoint_comm {r s : BitRange} : r.Disjoint s ↔ s.Disjoint r :=
  ⟨Disjoint.symm, Disjoint.symm⟩

theorem disjoint_iff {r s : BitRange} : r.Disjoint s ↔ r.high < s.low ∨ s.high < r.low := by
  have hr := r.low_le_high
  have hs := s.low_le_high
  constructor
  · intro h
    have hl := h r.low
    have hh := h s.low
    simp only [mem_def] at hl hh
    omega
  · intro h i hi hj
    rw [mem_def] at hi hj
    omega

instance (r s : BitRange) : Decidable (r.Disjoint s) := decidable_of_iff _ disjoint_iff.symm

theorem mask_and_mask_eq_zero_iff {r s : BitRange} : r.mask &&& s.mask = 0 ↔ r.Disjoint s := by
  rw [Word.and_eq_zero_iff]
  simp [Disjoint]

theorem lt_of_mem {r : BitRange} {i : Nat} (h : i ∈ r) : i < 32 := by
  have := r.high_lt
  rw [mem_def] at h
  omega

theorem mem_iff_lt_width {r : BitRange} {i : Nat} : r.low + i ∈ r ↔ i < r.width := by
  have := r.low_add_width
  rw [mem_def]
  omega

def cover (rs : List BitRange) : Word := Word.union (rs.map mask)

@[simp] theorem cover_nil : cover [] = 0 := rfl

@[simp] theorem cover_cons (r : BitRange) (rs : List BitRange) :
    cover (r :: rs) = r.mask ||| cover rs := rfl

@[simp] theorem cover_append (rs ss : List BitRange) : cover (rs ++ ss) = cover rs ||| cover ss := by
  rw [cover, List.map_append, Word.union_append]
  rfl

theorem getLsbD_cover {rs : List BitRange} {i : Nat} :
    (cover rs).getLsbD i = true ↔ ∃ r ∈ rs, i ∈ r := by
  simp [cover]

theorem cover_and_mask_eq_zero_iff {rs : List BitRange} {r : BitRange} :
    cover rs &&& r.mask = 0 ↔ ∀ s ∈ rs, s.Disjoint r := by
  rw [Word.and_eq_zero_iff]
  simp only [getLsbD_cover, getLsbD_mask, decide_eq_false_iff_not, forall_exists_index, and_imp,
    Disjoint]
  exact ⟨fun h s hs i his => h i s hs his, fun h i s hs his => h s hs i his⟩

theorem cover_perm {rs ss : List BitRange} (h : rs.Perm ss) : cover rs = cover ss := by
  apply Word.ext_bits
  intro i
  rw [Bool.eq_iff_iff, getLsbD_cover, getLsbD_cover]
  simp only [h.mem_iff]

end BitRange

end OpcodeTable
