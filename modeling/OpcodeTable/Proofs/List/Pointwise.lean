import Mathlib.Data.List.Forall2

namespace OpcodeTable

variable {α β γ : Type} {R : α → β → Prop} {xs : List α} {ys : List β}

theorem filter_map_eq {f : α → β} {p : β → Bool} {q : α → Bool} (h : ∀ x ∈ xs, p (f x) = q x) :
    (xs.map f).filter p = (xs.filter q).map f := by
  rw [List.filter_map]
  exact congrArg (List.map f) (List.filter_congr h)

theorem map_eq_map_iff_forall₂ {f : α → γ} {g : β → γ} :
    xs.map f = ys.map g ↔ List.Forall₂ (fun x y => f x = g y) xs ys := by
  rw [← List.forall₂_eq_eq_eq, List.forall₂_map_left_iff, List.forall₂_map_right_iff]

theorem map_eq_map_of_forall₂ {f : α → γ} {g : β → γ} (h : List.Forall₂ R xs ys)
    (hfg : ∀ x y, R x y → f x = g y) : xs.map f = ys.map g :=
  map_eq_map_iff_forall₂.2 (h.imp hfg)

theorem forall_mem_of_forall₂ {p : α → Prop} {q : β → Prop} (h : List.Forall₂ R xs ys)
    (hpq : ∀ x y, R x y → p x → q y) (hxs : ∀ x ∈ xs, p x) : ∀ y ∈ ys, q y := by
  induction h with
  | nil => simp
  | cons hxy _ ih =>
    rw [List.forall_mem_cons] at hxs ⊢
    exact ⟨hpq _ _ hxy hxs.1, ih hxs.2⟩

theorem pairwise_of_forall₂ {p : α → α → Prop} {q : β → β → Prop} (h : List.Forall₂ R xs ys)
    (hpq : ∀ x y x' y', R x y → R x' y' → p x x' → q y y') (hxs : xs.Pairwise p) :
    ys.Pairwise q := by
  induction h with
  | nil => exact .nil
  | cons hxy hrest ih =>
    rw [List.pairwise_cons] at hxs ⊢
    exact ⟨forall_mem_of_forall₂ hrest (fun x' y' => hpq _ _ x' y' hxy) hxs.1, ih hxs.2⟩

theorem forall₂_filter_filterMap {f : α → Option β} {p : α → Bool}
    (hsome : ∀ x ∈ xs, ∀ y, f x = some y → p x = true ∧ R x y)
    (hnone : ∀ x ∈ xs, f x = none → p x = false) :
    List.Forall₂ R (xs.filter p) (xs.filterMap f) := by
  induction xs with
  | nil => exact .nil
  | cons x xs ih =>
    rw [List.forall_mem_cons] at hsome hnone
    have hrest := ih hsome.2 hnone.2
    cases hx : f x with
    | none =>
      rw [List.filterMap_cons_none hx, List.filter_cons_of_neg (by simp [hnone.1 hx])]
      exact hrest
    | some y =>
      obtain ⟨hp, hxy⟩ := hsome.1 y hx
      rw [List.filterMap_cons_some hx, List.filter_cons_of_pos hp]
      exact hrest.cons hxy

theorem map_eq_map_some_iff {f : α → Option β} :
    xs.map f = ys.map some ↔ xs.filterMap f = ys ∧ ∀ x ∈ xs, (f x).isSome = true := by
  induction xs generalizing ys with
  | nil => cases ys <;> simp
  | cons x xs ih =>
    rw [List.map_cons, List.forall_mem_cons]
    cases hx : f x with
    | none => cases ys <;> simp
    | some z =>
      rw [List.filterMap_cons_some hx]
      cases ys with
      | nil => simp
      | cons y ys => simp [ih, and_assoc]

end OpcodeTable
