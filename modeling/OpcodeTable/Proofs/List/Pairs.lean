import Mathlib.Data.List.Nodup
import Mathlib.Data.Prod.Lex

namespace OpcodeTable

variable {α β : Type} {xs : List α} {x y z : α}

def Before (xs : List α) (x y : α) : Prop :=
  ∃ i j : Nat, i < j ∧ xs[i]? = some x ∧ xs[j]? = some y

theorem not_before_nil : ¬ Before [] x y := by
  rintro ⟨i, j, -, hi, -⟩
  simp at hi

theorem before_cons_iff : Before (z :: xs) x y ↔ (x = z ∧ y ∈ xs) ∨ Before xs x y := by
  constructor
  · rintro ⟨i, j, hij, hi, hj⟩
    obtain ⟨k, rfl⟩ : ∃ k, j = k + 1 := ⟨j - 1, by omega⟩
    cases i with
    | zero =>
      rw [List.getElem?_cons_zero, Option.some.injEq] at hi
      exact .inl ⟨hi.symm, List.mem_of_getElem? hj⟩
    | succ i => exact .inr ⟨i, k, by omega, hi, hj⟩
  · rintro (⟨rfl, hy⟩ | ⟨i, j, hij, hi, hj⟩)
    · obtain ⟨k, hk⟩ := List.getElem?_of_mem hy
      exact ⟨0, k + 1, Nat.zero_lt_succ k, rfl, hk⟩
    · exact ⟨i + 1, j + 1, by omega, hi, hj⟩

theorem before_append {ys : List α} (h : x ∈ xs) : Before (xs ++ y :: ys) x y := by
  obtain ⟨i, hi⟩ := List.getElem?_of_mem h
  obtain ⟨hlt, -⟩ := List.getElem?_eq_some_iff.1 hi
  refine ⟨i, xs.length, hlt, ?_, by simp⟩
  rw [List.getElem?_append_left hlt, hi]

theorem pairwise_before (xs : List α) : xs.Pairwise (Before xs) :=
  List.pairwise_iff_getElem.2 fun i j hi hj hij =>
    ⟨i, j, hij, List.getElem?_eq_getElem hi, List.getElem?_eq_getElem hj⟩

namespace Before

theorem mem_left (h : Before xs x y) : x ∈ xs := by
  obtain ⟨i, j, -, hi, -⟩ := h
  exact List.mem_of_getElem? hi

theorem mem_right (h : Before xs x y) : y ∈ xs := by
  obtain ⟨i, j, -, -, hj⟩ := h
  exact List.mem_of_getElem? hj

theorem of_pairwise {R : α → α → Prop} (h : Before xs x y) (hxs : xs.Pairwise R) : R x y := by
  induction hxs with
  | nil => exact absurd h not_before_nil
  | cons hz _ ih =>
    cases before_cons_iff.1 h with
    | inl h =>
      obtain ⟨rfl, hy⟩ := h
      exact hz y hy
    | inr h => exact ih h

end Before

theorem pairwise_iff_before {R : α → α → Prop} :
    xs.Pairwise R ↔ ∀ x y, Before xs x y → R x y := by
  constructor
  · intro h x y hxy
    exact hxy.of_pairwise h
  · intro h
    exact (pairwise_before xs).imp (h _ _)

/-- The list of the pairs of entries that are related, the earlier entry first. It has each of them
once, ordered by the earlier entry and then by the later one. -/
structure ListsPairs (p : α → α → Prop) (xs : List α) (ps : List (α × α)) : Prop where
  mem_iff : ∀ x y, (x, y) ∈ ps ↔ Before xs x y ∧ p x y
  nodup : ps.Nodup
  ordered : ps.Pairwise (Prod.Lex (Before xs) (Before xs))

theorem ListsPairs.eq_nil_iff {p : α → α → Prop} {ps : List (α × α)} (h : ListsPairs p xs ps) :
    ps = [] ↔ xs.Pairwise fun x y => ¬ p x y := by
  simp only [List.eq_nil_iff_forall_not_mem, Prod.forall, h.mem_iff, pairwise_iff_before, not_and]

def pairsWhere (test : α → α → Bool) : List α → List (α × α)
  | [] => []
  | x :: xs => (xs.filter (test x)).map (fun y => (x, y)) ++ pairsWhere test xs

variable {test : α → α → Bool}

theorem mem_pairsWhere_iff :
    (x, y) ∈ pairsWhere test xs ↔ Before xs x y ∧ test x y = true := by
  induction xs with
  | nil => simp [pairsWhere, not_before_nil]
  | cons z xs ih =>
    rw [pairsWhere, List.mem_append, ih, before_cons_iff, or_and_right]
    apply or_congr_left
    simp only [List.mem_map, List.mem_filter, Prod.mk.injEq, exists_eq_right_right]
    constructor
    · rintro ⟨⟨hy, htest⟩, rfl⟩
      exact ⟨⟨rfl, hy⟩, htest⟩
    · rintro ⟨⟨rfl, hy⟩, htest⟩
      exact ⟨⟨hy, htest⟩, rfl⟩

theorem pairwise_pairsWhere {R : α → α → Prop} (h : xs.Pairwise R) :
    (pairsWhere test xs).Pairwise (Prod.Lex R R) := by
  induction h with
  | nil => exact .nil
  | @cons x xs hx hxs ih =>
    rw [pairsWhere, List.pairwise_append, List.pairwise_map]
    refine ⟨(hxs.filter _).imp (Prod.Lex.right x), ih, ?_⟩
    -- What the outer loop comes to later is paired with later entries only.
    rintro _ hleft ⟨y, z⟩ hright
    obtain ⟨w, -, rfl⟩ := List.mem_map.1 hleft
    exact .left w z (hx y (mem_pairsWhere_iff.1 hright).1.mem_left)

theorem pairsWhere_filter (p : α → Bool) (xs : List α) :
    pairsWhere test (xs.filter p) = (pairsWhere test xs).filter fun q => p q.1 && p q.2 := by
  induction xs with
  | nil => rfl
  | cons x xs ih =>
    simp only [pairsWhere, List.filter_append, List.filter_map, List.filter_filter,
      Function.comp_def]
    cases hx : p x with
    | true =>
      simp only [List.filter_cons, hx, if_true, pairsWhere, ih, List.filter_filter,
        Bool.true_and, Bool.and_comm]
    | false => simp [hx, ih]

theorem pairsWhere_map (f : β → α) (ys : List β) :
    pairsWhere test (ys.map f) =
      (pairsWhere (fun a b => test (f a) (f b)) ys).map (Prod.map f f) := by
  induction ys with
  | nil => rfl
  | cons y ys ih =>
    simp only [List.map_cons, pairsWhere, List.filter_map, List.map_map, List.map_append, ih]
    rfl

theorem listsPairs_pairsWhere {p : α → α → Prop} {q : α → Bool} (hxs : xs.Nodup)
    (hp : ∀ x ∈ xs, ∀ y ∈ xs, p x y ↔ q x = true ∧ q y = true ∧ test x y = true) :
    ListsPairs p xs (pairsWhere test (xs.filter q)) := by
  rw [pairsWhere_filter]
  refine ⟨?_, .filter _ ?_, (pairwise_pairsWhere (pairwise_before xs)).filter _⟩
  · intro x y
    rw [List.mem_filter, mem_pairsWhere_iff, and_assoc]
    refine and_congr_right fun h => ?_
    rw [hp x h.mem_left y h.mem_right, Bool.and_eq_true]
    exact ⟨fun h => ⟨h.2.1, h.2.2, h.1⟩, fun h => ⟨h.2.2, h.1, h.2.1⟩⟩
  · refine (pairwise_pairsWhere hxs).imp ?_
    rintro _ _ h rfl
    cases h with
    | left _ _ h => exact h rfl
    | right _ h => exact h rfl

theorem find?_map_pair [DecidableEq α] (h : y ∈ xs) :
    ((xs.filter (test x)).map fun z => (x, z)).find? (fun q => q.2 = y) =
      if test x y then some (x, y) else none := by
  split
  next hxy =>
    have hmem : ∃ q ∈ (xs.filter (test x)).map fun z => (x, z), decide (q.2 = y) = true :=
      ⟨(x, y), List.mem_map_of_mem (List.mem_filter.2 ⟨h, hxy⟩), decide_eq_true rfl⟩
    obtain ⟨q, hq⟩ := Option.isSome_iff_exists.1 (List.find?_isSome.2 hmem)
    obtain ⟨z, -, rfl⟩ := List.mem_map.1 (List.mem_of_find?_eq_some hq)
    obtain rfl : z = y := by simpa using List.find?_some hq
    exact hq
  next hxy =>
    rw [List.find?_eq_none]
    intro q hq
    obtain ⟨z, hz, rfl⟩ := List.mem_map.1 hq
    rw [decide_eq_true_iff]
    rintro rfl
    exact hxy (List.mem_filter.1 hz).2

/-- The first pair that ends at an entry starts at the first entry before it that passes. -/
theorem find?_pairsWhere [DecidableEq α] (xs : List α) {ys : List α} (hy : y ∉ ys) :
    (pairsWhere test (xs ++ y :: ys)).find? (fun q => q.2 = y) =
      (xs.find? fun x => test x y).map fun x => (x, y) := by
  induction xs with
  | nil =>
    rw [List.nil_append, List.find?_nil, Option.map_none, List.find?_eq_none]
    rintro ⟨x, z⟩ hmem
    rw [decide_eq_true_iff]
    rintro rfl
    cases before_cons_iff.1 (mem_pairsWhere_iff.1 hmem).1 with
    | inl h => exact hy h.2
    | inr h => exact hy h.mem_right
  | cons x xs ih =>
    rw [List.cons_append, pairsWhere, List.find?_append, find?_map_pair (by simp), ih,
      List.find?_cons]
    cases test x y <;> rfl

end OpcodeTable
