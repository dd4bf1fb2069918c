import Mathlib.Data.Nat.Dist
import OpcodeTable.Operand
import OpcodeTable.Proofs.Draft.Edits
import OpcodeTable.Proofs.Field.Names
import OpcodeTable.Proofs.Text.Reading

/-!
The two sides of an assignment, as relations between a text and what it says. Reading a side decides
its relation, and where nothing is related to the text, the reader knows the one fault to report.
-/

namespace OpcodeTable

namespace Bounds

/-- The left sides of an assignment, and the bounds that each of them gives. -/
inductive Spells : String → Bounds → Prop
  | span {high low : String} : Text.IsNumeral high → Text.IsNumeral low →
      Spells (high ++ ".." ++ low) (.span (Text.position high) (Text.position low))
  | bit {i : String} : Text.IsNumeral i → Spells i (.bit (Text.position i))
  | field (f : Field) : Spells f.name (.field f)

def Valid : Bounds → Prop
  | span high low => low < high ∧ high ≤ 31
  | bit i => i ≤ 31
  | field _ => True

inductive Selects : Bounds → Target → Prop
  | span {r : BitRange} : r.low < r.high → Selects (.span r.high r.low) (.range r)
  | bit {r : BitRange} : r.low = r.high → Selects (.bit r.high) (.range r)
  | field (f : Field) : Selects (.field f) (.field f)

theorem ofText?_eq_some_iff {left : String} {b : Bounds} :
    ofText? left.toList = some b ↔ Spells left b := by
  have hdots : "..".toList = ['.', '.'] := by decide
  have hdot {s : String} (h : Text.IsNumeral s) : '.' ∉ s.toList := h.not_mem (by decide)
  unfold ofText?
  constructor
  · intro h
    split at h
    next high low hcut =>
      obtain ⟨i, hi, h⟩ := Option.bind_eq_some_iff.1 h
      obtain ⟨j, hj, h⟩ := Option.bind_eq_some_iff.1 h
      obtain rfl := Option.some.inj h
      obtain ⟨high, rfl⟩ := Text.exists_toList high
      obtain ⟨low, rfl⟩ := Text.exists_toList low
      obtain ⟨hhigh, rfl⟩ := Text.position?_eq_some_iff.1 hi
      obtain ⟨hlow, rfl⟩ := Text.position?_eq_some_iff.1 hj
      have hleft : left = high ++ ".." ++ low := by
        rw [← String.toList_inj, Text.eq_append_of_cut? hcut]
        simp [hdots]
      rw [hleft]
      exact .span hhigh hlow
    next =>
      split at h
      next i hi =>
        obtain rfl := Option.some.inj h
        obtain ⟨hnumeral, rfl⟩ := Text.position?_eq_some_iff.1 hi
        exact .bit hnumeral
      next =>
        obtain ⟨f, hf, rfl⟩ := Option.map_eq_some_iff.1 h
        rw [String.ofList_toList] at hf
        rw [Field.ofName?_eq_some_iff.1 hf]
        exact .field f
  · intro h
    cases h with
    | span hhigh hlow =>
      rw [String.toList_append, String.toList_append, List.append_assoc, hdots,
        Text.cut?_append (hdot hhigh)]
      dsimp only
      rw [Text.position?_eq_some_iff.2 ⟨hhigh, rfl⟩, Text.position?_eq_some_iff.2 ⟨hlow, rfl⟩]
      rfl
    | bit hi =>
      rw [Text.cut?_eq_none_of_not_mem (hdot hi), Text.position?_eq_some_iff.2 ⟨hi, rfl⟩]
    | field f =>
      have hposition : Text.position? f.name.toList = none := by
        rw [Option.eq_none_iff_forall_ne_some]
        exact fun i hi => f.not_isNumeral_name (Text.position?_eq_some_iff.1 hi).1
      rw [Text.cut?_eq_none_of_not_mem (f.not_mem_name (by decide)), hposition,
        String.ofList_toList, Field.ofName?_name]
      rfl

theorem ofText?_eq_none_iff {left : String} :
    ofText? left.toList = none ↔ ∀ b, ¬ Spells left b := by
  simp only [Option.eq_none_iff_forall_ne_some, ne_eq, ofText?_eq_some_iff]

theorem target_eq_ok_iff {b : Bounds} {t : Target} : b.target = .ok t ↔ b.Selects t := by
  constructor
  · intro h
    cases b with
    | span high low =>
      simp only [target] at h
      split at h
      · cases h
      next hlt =>
        obtain ⟨r, hr, rfl⟩ := Except.map_eq_ok_iff.1 h
        obtain ⟨rfl, rfl⟩ := BitRange.ofBounds_eq_ok_iff.1 hr
        exact .span (Nat.not_le.1 hlt)
    | bit i =>
      obtain ⟨r, hr, rfl⟩ := Except.map_eq_ok_iff.1 h
      obtain ⟨rfl, hlow⟩ := BitRange.ofBounds_eq_ok_iff.1 hr
      exact .bit hlow
    | field f =>
      obtain rfl := Except.ok.inj h
      exact .field f
  · intro h
    cases h with
    | @span r hlt =>
      rw [target, if_neg (Nat.not_le.2 hlt), BitRange.ofBounds_eq_ok_iff.2 ⟨rfl, rfl⟩]
      rfl
    | @bit r heq =>
      rw [target, BitRange.bit, BitRange.ofBounds_eq_ok_iff.2 ⟨rfl, heq⟩]
      rfl
    | field f => rfl

theorem target_eq_error_iff {b : Bounds} {e : Fault} :
    b.target = .error e ↔ ¬ b.Valid ∧ e = .badRange b.high b.low := by
  cases b with
  | span high low =>
    rw [target, Valid]
    split
    next hle =>
      have hvalid : ¬ (low < high ∧ high ≤ 31) := fun h => absurd h.1 (Nat.not_lt.2 hle)
      rw [Except.error.injEq, eq_comm]
      exact (and_iff_right hvalid).symm
    next hlt =>
      have hvalid : low ≤ high ∧ high < 32 ↔ low < high ∧ high ≤ 31 := by omega
      rw [Except.map_eq_error_iff, BitRange.ofBounds_eq_error_iff, hvalid]
      rfl
  | bit i =>
    have hvalid : i ≤ i ∧ i < 32 ↔ i ≤ 31 := by omega
    rw [target, Valid, Except.map_eq_error_iff, BitRange.bit, BitRange.ofBounds_eq_error_iff,
      hvalid]
    rfl
  | field f =>
    constructor
    · intro h
      cases h
    · intro h
      exact absurd trivial h.1

theorem Selects.width_eq {b : Bounds} {t : Target} (h : b.Selects t) :
    t.bits.width = Nat.dist b.high b.low + 1 := by
  have hrange (r : BitRange) : r.width = Nat.dist r.high r.low + 1 := by
    have := r.low_le_high
    unfold Nat.dist BitRange.width
    omega
  cases h with
  | span => exact hrange _
  | @bit r heq =>
    rw [Target.bits, hrange, heq]
    rfl
  | field f => exact hrange _

end Bounds

namespace Setting

/-- The right sides, and what each of them sets. A value has to fit between the bounds as they
stand, whether these are valid or not. -/
inductive Spells (b : Bounds) : String → Setting → Prop
  | literal {text : String} {v : Nat} : Text.value? text = some v →
      v < 2 ^ (Nat.dist b.high b.low + 1) → Spells b text (.literal v)
  | ignore : Spells b "ignore" .ignore

theorem lt_iff_of_value? {text : String} {b : Bounds} {v : Nat} (h : Text.value? text = some v) :
    v < 1 <<< min b.width 64 ↔ v < 2 ^ (Nat.dist b.high b.low + 1) := by
  have hwidth : Nat.dist b.high b.low + 1 = b.width := by
    unfold Nat.dist Bounds.width
    omega
  have hbound : v < 2 ^ 64 := of_decide_eq_true (Option.filter_eq_some_iff.1 h).2
  rw [hwidth, Nat.one_shiftLeft]
  cases Nat.le_total b.width 64 with
  | inl hle => rw [Nat.min_eq_left hle]
  | inr hle =>
    rw [Nat.min_eq_right hle]
    exact iff_of_true hbound (hbound.trans_le (Nat.pow_le_pow_right (by decide) hle))

theorem ofText_eq_ok_iff {text : String} {b : Bounds} {s : Setting} :
    ofText text b = .ok s ↔ Spells b text s := by
  constructor
  · intro h
    unfold ofText at h
    split at h
    next hword =>
      obtain rfl := Except.ok.inj h
      rw [hword]
      exact .ignore
    next =>
      split at h
      next v hv =>
        split at h
        next hlt =>
          obtain rfl := Except.ok.inj h
          exact .literal hv ((lt_iff_of_value? hv).1 hlt)
        · cases h
      · cases h
  · intro h
    cases h with
    | @literal text v hv hlt =>
      have hnone : Text.value? ignoreWord = none := by decide
      have hword : text ≠ ignoreWord := by
        rintro rfl
        rw [hnone] at hv
        cases hv
      rw [ofText, if_neg hword, hv]
      exact if_pos ((lt_iff_of_value? hv).2 hlt)
    | ignore => exact if_pos rfl

theorem ofText_eq_error_iff {text : String} {b : Bounds} {e : Fault} :
    ofText text b = .error e ↔ (∀ s, ¬ Spells b text s) ∧ e = .badValue text b.high b.low := by
  have hfault {e : Fault} (h : ofText text b = .error e) : e = .badValue text b.high b.low := by
    unfold ofText at h
    split at h
    · cases h
    · split at h
      · split at h
        · cases h
        · exact (Except.error.inj h).symm
      · exact (Except.error.inj h).symm
  constructor
  · intro h
    refine ⟨fun s hs => ?_, hfault h⟩
    rw [ofText_eq_ok_iff.2 hs] at h
    cases h
  · rintro ⟨hnone, rfl⟩
    cases h : ofText text b with
    | ok s => exact absurd (ofText_eq_ok_iff.1 h) (hnone s)
    | error e => rw [hfault h]

end Setting

end OpcodeTable
