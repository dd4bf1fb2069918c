import OpcodeTable.Diagnostic
import OpcodeTable.Proofs.Text.Plain

namespace OpcodeTable

namespace Fault

def quoted : Fault → List String
  | malformedLine _ => []
  | badRange _ _ => []
  | badValue text _ _ => [text]
  | unknownToken text => [text]
  | overspecified _ => []
  | incompleteCoverage _ => []
  | overlap other => [other]
  | duplicateName => []

def Legible (fault : Fault) : Prop := ∀ s ∈ fault.quoted, Text.Unbroken s

theorem legible_of_quoted_eq_nil {fault : Fault} (h : fault.quoted = []) : fault.Legible := by
  simp [Legible, h]

theorem plain_code (fault : Fault) : Text.Plain fault.code := by
  cases fault <;> (simp only [code]; decide +kernel)

theorem plain_message {fault : Fault} (h : fault.Legible) : Text.Plain fault.message := by
  have hquoted : ∀ s ∈ fault.quoted, Text.Plain s := fun s hs => (h s hs).plain
  have hnumber (n : Nat) : Text.Plain n.repr := (Text.unbroken_repr n).plain
  have hhex (w : Word) : Text.Plain w.paddedHex :=
    Text.plain_append.2 ⟨by decide, (Text.unbroken_leftpad (by decide) (by decide) 8 w.toNat).plain⟩
  have hbinary (w : Word) : Text.Plain w.paddedBinary :=
    Text.plain_append.2
      ⟨by decide, (Text.unbroken_leftpad (by decide) (by decide) 32 w.toNat).plain⟩
  unfold message
  -- What is left of a message without the texts and the numbers in it is fixed.
  cases fault with
  | malformedLine n =>
    simp only [Text.plain_append, hnumber, and_true]
    decide +kernel
  | badRange high low =>
    simp only [Text.plain_append, hnumber, and_true]
    decide +kernel
  | badValue text high low =>
    simp only [Text.plain_append, hnumber, hquoted text List.mem_cons_self, and_true]
    decide +kernel
  | unknownToken text =>
    simp only [Text.plain_append, hquoted text List.mem_cons_self, and_true]
    decide +kernel
  | overspecified bits =>
    simp only [Text.plain_append, hhex, and_true]
    decide +kernel
  | incompleteCoverage coverage =>
    simp only [Text.plain_append, hhex, hbinary, and_true]
    decide +kernel
  | overlap other =>
    simp only [Text.plain_append, hquoted other List.mem_cons_self, and_true]
    decide +kernel
  | duplicateName => decide +kernel

end Fault

structure Rejection.Legible (path : String) (r : Rejection) : Prop where
  instruction : Text.Unbroken r.instruction
  fault : r.fault.Legible
  span : ∃ s : Span, r.span = some s ∧ s.path = path

theorem Rejection.Legible.plainAround {path : String} {r : Rejection} (h : r.Legible path) :
    Text.PlainAround path r.diagnostic.text := by
  obtain ⟨s, hs, rfl⟩ := h.span
  refine ⟨"Error" ++ " " ++ r.fault.code ++ ": " ++ (r.instruction ++ ": ") ++ r.fault.message ++
    " @ ", ":" ++ s.start.line.repr ++ ":" ++ s.start.column.repr, ?_, ?_, ?_, ?_⟩
  · simp only [Text.plain_append, Fault.plain_code, Fault.plain_message h.fault,
      h.instruction.plain, and_true]
    decide +kernel
  · simp only [Text.plain_append, (Text.unbroken_repr _).plain, and_true]
    decide +kernel
  · simp
  · rw [Diagnostic.text, Rejection.diagnostic, hs]
    simp only [Severity.text, Span.text, String.append_assoc]

/-- The failures that are worded so that nothing but the path can break a line of their report. -/
inductive Failure.Legible (path : String) : Failure → Prop
  | input {reason : String} : Text.Plain reason → Legible path (.input reason)
  | artifact {reason : String} : Text.Plain reason → Legible path (.artifact reason)
  | rejected {r : Rejection} : r.Legible path → Legible path (.rejected r)
  | findings {rs : List Rejection} : rs ≠ [] → (∀ r ∈ rs, r.Legible path) →
      Legible path (.findings (rs.map Rejection.diagnostic))

namespace Failure.Legible

variable {path : String} {f : Failure}

theorem plainAround (h : f.Legible path) : ∀ d ∈ f.diagnostics, Text.PlainAround path d.text := by
  cases h with
  | input => simp [diagnostics]
  | artifact => simp [diagnostics]
  | rejected hr =>
    rw [diagnostics, List.forall_mem_singleton]
    exact hr.plainAround
  | findings _ hrs =>
    rw [diagnostics, List.forall_mem_map]
    exact fun r hr => (hrs r hr).plainAround

theorem plain_message (h : f.Legible path) (hnone : f.diagnostics = []) :
    Text.Plain f.message := by
  cases h with
  | input hreason => exact Text.plain_append.2 ⟨by decide +kernel, hreason⟩
  | artifact hreason => exact Text.plain_append.2 ⟨by decide +kernel, hreason⟩
  | rejected => cases hnone
  | findings hne => exact absurd (List.map_eq_nil_iff.1 hnone) hne

end Failure.Legible

end OpcodeTable
