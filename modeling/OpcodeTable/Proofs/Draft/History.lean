import OpcodeTable.Proofs.Draft.Edits
import OpcodeTable.Proofs.Word.Place

/-!
Series of edits in which some are refused. A refused edit leaves no trace, not even where the draft
is changed in place and step by step; what becomes of an edit is told by the edits that were granted
before it.
-/

namespace OpcodeTable

namespace Edit

def value? : Edit → Option Nat
  | field _ => none
  | assign _ value => some value
  | literal _ value => some value
  | ignore _ => none

theorem fits_iff {e : Edit} : e.Fits ↔ ∀ v ∈ e.value?, v < 2 ^ e.range.width := by
  cases e with
  | field f => simp [Fits, value?]
  | assign f v => simp [Fits, value?, range, BitRange.fits_iff_lt_two_pow]
  | literal r v => simp [Fits, value?, range, BitRange.fits_iff_lt_two_pow]
  | ignore r => simp [Fits, value?]

end Edit

/-- Editing in place. A step that fails leaves the draft as the steps before it have made it. -/
abbrev Editing := EStateM Fault Draft

namespace Editing

def claim (r : BitRange) : Editing Unit := do
  let d ← get
  match d.coverage.claim r with
  | .ok c => set { d with coverage := c }
  | .error fault => throw fault

def field (f : Field) : Editing Unit := do
  claim f.range
  modify fun d => { d with fields := d.fields ++ [f] }

def literal (r : BitRange) (value : Nat) : Editing Unit := do
  unless r.fits value do throw (.badValue value.repr r.high r.low)
  claim r
  modify fun d => { d with encoding.value := d.encoding.value ||| r.place value }
  modify fun d => { d with encoding.mask := d.encoding.mask ||| r.mask }
  modify fun d => { d with literals := d.literals ++ [⟨r, BitVec.ofNat 32 value⟩] }

def ignore (r : BitRange) : Editing Unit := do
  claim r
  modify fun d => { d with ignored := d.ignored ++ [r] }

def perform : Edit → Editing Unit
  | .field f => field f
  | .assign f value => literal f.range value
  | .literal r value => literal r value
  | .ignore r => ignore r

theorem run_claim_bind (r : BitRange) (m : Editing Unit) (d : Draft) :
    (claim r >>= fun _ => m).run d =
      match d.coverage.claim r with
      | .ok c => m.run { d with coverage := c }
      | .error fault => .error fault d := by
  have hclaim : claim r d =
      (match d.coverage.claim r with
        | .ok c => set { d with coverage := c }
        | .error fault => throw fault : Editing Unit) d := rfl
  change EStateM.bind (claim r) (fun _ => m) d = _
  rw [EStateM.bind, hclaim]
  cases d.coverage.claim r <;> rfl

theorem run_literal (r : BitRange) (v : Nat) (d : Draft) :
    (literal r v).run d =
      match d.literal r v with
      | .ok d' => .ok () d'
      | .error fault => .error fault d := by
  unfold literal Draft.literal
  cases hfits : r.fits v with
  | true =>
    rw [if_pos rfl, if_pos rfl, run_claim_bind]
    cases d.coverage.claim r <;> rfl
  | false => rfl

theorem run_perform (e : Edit) (d : Draft) :
    (perform e).run d =
      match d.perform e with
      | .ok d' => .ok () d'
      | .error fault => .error fault d := by
  cases e with
  | field f =>
    rw [perform, field, run_claim_bind, Draft.perform, Draft.field]
    cases d.coverage.claim f.range <;> rfl
  | assign f v => exact run_literal f.range v d
  | literal r v => exact run_literal r v d
  | ignore r =>
    rw [perform, ignore, run_claim_bind, Draft.perform, Draft.ignore]
    cases d.coverage.claim r <;> rfl

end Editing

theorem Coverage.map_claim_eq_error {c : Coverage} {r : BitRange} (h : c.bits &&& r.mask ≠ 0)
    (f : Coverage → α) : (c.claim r).map f = .error (.overspecified (c.bits &&& r.mask)) := by
  rw [claim, if_neg h]
  rfl

namespace Draft

variable {d : Draft} {e : Edit}

theorem perform_of_not_fits {v : Nat} (hv : v ∈ e.value?) (h : ¬ e.Fits) :
    d.perform e = .error (.badValue v.repr e.range.high e.range.low) := by
  cases e with
  | field f => cases hv
  | assign f w =>
    cases hv
    exact if_neg h
  | literal r w =>
    cases hv
    exact if_neg h
  | ignore r => cases hv

theorem perform_of_taken (hfits : e.Fits) (h : d.coverage.bits &&& e.range.mask ≠ 0) :
    d.perform e = .error (.overspecified (d.coverage.bits &&& e.range.mask)) := by
  cases e with
  | field f => exact Coverage.map_claim_eq_error h _
  | assign f v => exact (if_pos hfits).trans (Coverage.map_claim_eq_error h _)
  | literal r v => exact (if_pos hfits).trans (Coverage.map_claim_eq_error h _)
  | ignore r => exact Coverage.map_claim_eq_error h _

def blank (name : String) (isPseudo : Bool) (span : Option Span) : Draft := { name, isPseudo, span }

def after (d : Draft) : List Edit → Draft
  | [] => d
  | e :: es =>
    match d.perform e with
    | .ok d' => d'.after es
    | .error _ => d.after es

/-- The edits of a series that are not refused. -/
def granted (d : Draft) : List Edit → List Edit
  | [] => []
  | e :: es =>
    match d.perform e with
    | .ok d' => e :: d'.granted es
    | .error _ => d.granted es

theorem after_eq_extend_granted (d : Draft) (es : List Edit) :
    d.after es = d.extend (d.granted es) := by
  induction es generalizing d with
  | nil => exact d.extend_nil.symm
  | cons e es ih =>
    rw [after, granted]
    cases h : d.perform e with
    | ok d' =>
      obtain ⟨-, -, rfl⟩ := perform_eq_ok_iff.1 h
      exact (ih _).trans (d.extend_append [e] _).symm
    | error fault => exact ih d

theorem coverage_after_blank (name : String) (isPseudo : Bool) (span : Option Span)
    (es : List Edit) :
    ((blank name isPseudo span).after es).coverage.bits =
      BitRange.cover (((blank name isPseudo span).granted es).map Edit.range) := by
  rw [after_eq_extend_granted]
  exact BitVec.zero_or

/-- What becomes of an edit after any series of them: it is granted when its value fits and its
range keeps clear of the ranges granted before. A value that does not fit is reported before bits
that are taken, of which exactly the shared ones are reported. A refusal, in place as well, changes
nothing. -/
theorem verdict_by_history (name : String) (isPseudo : Bool) (span : Option Span)
    (es : List Edit) (e : Edit) :
    let d := (blank name isPseudo span).after es
    let held := ((blank name isPseudo span).granted es).map Edit.range
    ((∃ d', d.perform e = .ok d') ↔
        (∀ v ∈ e.value?, v < 2 ^ e.range.width) ∧ ∀ r ∈ held, r.Disjoint e.range) ∧
      (∀ v ∈ e.value?, 2 ^ e.range.width ≤ v →
        d.perform e = .error (.badValue v.repr e.range.high e.range.low)) ∧
      ((∀ v ∈ e.value?, v < 2 ^ e.range.width) → (∃ r ∈ held, ¬ r.Disjoint e.range) →
        ∃ bits, d.perform e = .error (.overspecified bits) ∧
          ∀ i, bits.getLsbD i = true ↔ i ∈ e.range ∧ ∃ r ∈ held, i ∈ r) ∧
      (∀ d', d.perform e = .ok d' → (Editing.perform e).run d = .ok () d') ∧
      ∀ fault, d.perform e = .error fault → (Editing.perform e).run d = .error fault d := by
  intro d held
  have hbits : d.coverage.bits = BitRange.cover held := coverage_after_blank name isPseudo span es
  have hfree : d.coverage.bits &&& e.range.mask = 0 ↔ ∀ r ∈ held, r.Disjoint e.range := by
    rw [hbits, BitRange.cover_and_mask_eq_zero_iff]
  refine ⟨?_, ?_, ?_, ?_, ?_⟩
  · simp only [perform_eq_ok_iff, Edit.fits_iff, hfree]
    exact ⟨fun ⟨d', h⟩ => ⟨h.1, h.2.1⟩, fun h => ⟨_, h.1, h.2, rfl⟩⟩
  · intro v hv hle
    refine perform_of_not_fits hv fun hfits => ?_
    exact absurd (Edit.fits_iff.1 hfits v hv) (Nat.not_lt.2 hle)
  · intro hfits hshared
    have htaken : d.coverage.bits &&& e.range.mask ≠ 0 := by
      obtain ⟨r, hr, hne⟩ := hshared
      exact fun h => hne (hfree.1 h r hr)
    refine ⟨_, perform_of_taken (Edit.fits_iff.2 hfits) htaken, fun i => ?_⟩
    rw [BitVec.getLsbD_and, Bool.and_eq_true, hbits, BitRange.getLsbD_cover, BitRange.getLsbD_mask,
      decide_eq_true_iff, and_comm]
  · intro d' h
    rw [Editing.run_perform, h]
  · intro fault h
    rw [Editing.run_perform, h]

example :
    ((blank "x" false none).after [.field .opcode]).perform (.assign .opcode 128) =
      .error (.badValue "128" 6 0) := by decide

end Draft

end OpcodeTable
