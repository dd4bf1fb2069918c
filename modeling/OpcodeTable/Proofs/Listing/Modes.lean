import OpcodeTable.Proofs.Listing.Run

/-!
The two error modes. Up to the first rejection they are in the same state, and after it only one of
them goes on; a line that is not text can stop either of them, before the rejection or after it.
-/

namespace OpcodeTable.Listing

theorem readFrom_collectAll_of_not_isText {path : String} {number : Nat} {t : Table}
    {findings : List Diagnostic} {lines : List (List UInt8)}
    (h : ∃ line ∈ lines, ¬ Text.IsText line) :
    readFrom .collectAll path number t findings lines = .error (.input notText) := by
  induction lines generalizing number t findings with
  | nil => simp at h
  | cons line rest ih =>
    rw [readFrom]
    cases htext : Text.ofBytes? line with
    | none => rfl
    | some text =>
      have hrest : ∃ line ∈ rest, ¬ Text.IsText line := by
        rw [List.exists_mem_cons_iff] at h
        exact h.resolve_left fun hline => hline ⟨text, htext⟩
      simp only
      -- Taken or rejected, this line does not keep the other one from being met.
      cases t.readLine path number text with
      | ok t' => exact ih hrest
      | error r => exact ih hrest

theorem read_collectAll_of_not_isText {path : String} {bytes : List UInt8}
    (h : ¬ Text.IsText bytes) : read .collectAll path bytes = .error (.input notText) := by
  rw [read, readFrom_collectAll_of_not_isText (Text.not_isText_iff.1 h)]

theorem readFrom_eq_input {mode : ErrorMode} {path : String} {number : Nat} {t : Table}
    {findings : List Diagnostic} {lines : List (List UInt8)} {reason : String}
    (h : readFrom mode path number t findings lines = .error (.input reason)) :
    reason = notText := by
  fun_induction readFrom mode path number t findings lines with
  | case1 => cases h
  | case2 =>
    cases h
    rfl
  | case3 number t findings line rest text htext t' hline ih => exact ih h
  | case4 => cases h
  | case5 number t findings line rest text htext r hline hmode ih =>
    subst hmode
    exact ih h

theorem read_eq_input {mode : ErrorMode} {path reason : String} {bytes : List UInt8}
    (h : read mode path bytes = .error (.input reason)) : reason = notText := by
  unfold read at h
  split at h
  next hfrom =>
    cases h
    exact readFrom_eq_input hfrom
  · cases h
  · cases h

theorem read_ne_input_of_isText {mode : ErrorMode} {path reason : String} {bytes : List UInt8}
    (h : Text.IsText bytes) : read mode path bytes ≠ .error (.input reason) := by
  obtain ⟨text, htext⟩ := h
  rw [read_of_text htext]
  cases run path 1 .empty (Text.linesOf text) with
  | mk t rs => cases rs <;> cases mode <;> simp

theorem read_collectAll_of_rejected {path : String} {bytes : List UInt8} {r : Rejection}
    (htext : Text.IsText bytes) (h : read .failFast path bytes = .error (.rejected r)) :
    ∃ ds, read .collectAll path bytes = .error (.findings (r.diagnostic :: ds)) := by
  obtain ⟨text, htext⟩ := htext
  rw [read_of_text htext] at h ⊢
  cases hrun : run path 1 .empty (Text.linesOf text) with
  | mk t rs =>
    rw [hrun] at h
    cases rs with
    | nil => cases h
    | cons s ss =>
      cases h
      exact ⟨ss.map Rejection.diagnostic, rfl⟩

theorem read_failFast_eq_ok_iff {path : String} {bytes : List UInt8} {c : Compilation} :
    read .failFast path bytes = .ok c ↔ read .collectAll path bytes = .ok c := by
  by_cases htext : Text.IsText bytes
  · obtain ⟨text, htext⟩ := htext
    rw [read_eq_ok_iff_run htext, read_eq_ok_iff_run htext]
  · exact ⟨fun h => absurd (isText_of_read_eq_ok h) htext,
      fun h => absurd (isText_of_read_eq_ok h) htext⟩

/-- The modes agree on what is accepted and on the first thing that is wrong. A line that is not
text takes the findings from the mode that collects them. -/
theorem modes_agree (path : String) (bytes : List UInt8) :
    (∀ c, read .failFast path bytes = .ok c ↔ read .collectAll path bytes = .ok c) ∧
      (∀ r, read .failFast path bytes = .error (.rejected r) →
        ((∀ line ∈ Text.lines bytes, Text.IsText line) ∧
            ∃ ds, read .collectAll path bytes = .error (.findings (r.diagnostic :: ds))) ∨
          ((∃ line ∈ Text.lines bytes, ¬ Text.IsText line) ∧
            read .collectAll path bytes = .error (.input notText))) ∧
        ∀ reason, read .failFast path bytes = .error (.input reason) →
          read .collectAll path bytes = .error (.input reason) := by
  refine ⟨fun c => read_failFast_eq_ok_iff, ?_, ?_⟩
  · intro r hr
    by_cases htext : Text.IsText bytes
    · left
      exact ⟨Text.isText_iff_forall_lines.1 htext, read_collectAll_of_rejected htext hr⟩
    · right
      exact ⟨Text.not_isText_iff.1 htext, read_collectAll_of_not_isText htext⟩
  · intro reason hreason
    have htext : ¬ Text.IsText bytes := fun htext => read_ne_input_of_isText htext hreason
    rw [read_eq_input hreason]
    exact read_collectAll_of_not_isText htext

def faulty : String := "a 31..0=1\nb 31..0=1\nc\n"

def faultyBytes : List UInt8 := Text.toBytes faulty.toList

def repeated : Rejection := ⟨"b", .overlap "a", some ⟨"", ⟨2, 1⟩, ⟨2, 2⟩⟩⟩

theorem modes_agree_faultyBytes :
    (∃ ds, read .collectAll "" faultyBytes = .error (.findings (repeated.diagnostic :: ds))) ∧
      read .collectAll "" (faultyBytes ++ [0xFF]) = .error (.input notText) := by
  have rejected (bytes : List UInt8)
      (h : (read .failFast "" bytes).map (fun _ => ()) = .error (.rejected repeated)) :=
    (modes_agree "" bytes).2.1 repeated (Except.map_eq_error_iff.1 h)
  constructor
  · cases rejected faultyBytes (by decide +kernel) with
    | inl h => exact h.2
    | inr h => exact absurd ⟨faulty, ofBytes?_toBytes faulty⟩ (Text.not_isText_iff.2 h.1)
  · cases rejected (faultyBytes ++ [0xFF]) (by decide +kernel) with
    | inl h =>
      have hnone : ¬ ∀ line ∈ Text.lines (faultyBytes ++ [0xFF]), (Text.ofBytes? line).isSome := by
        decide +kernel
      refine absurd (fun line hline => ?_) hnone
      exact Option.isSome_iff_exists.2 (h.1 line hline)
    | inr h => exact h.2

end OpcodeTable.Listing
