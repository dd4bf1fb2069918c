import Mathlib.Data.List.Forall2
import OpcodeTable.Proofs.Artifact.Header

namespace OpcodeTable

section Results

variable {ε α β : Type} {f : α → Except ε β} {xs : List α}

theorem mapM_eq_ok_iff {ys : List β} :
    xs.mapM f = .ok ys ↔ List.Forall₂ (fun x y => f x = .ok y) xs ys := by
  induction xs generalizing ys with
  | nil => simp [pure, Except.pure, eq_comm]
  | cons x xs ih =>
    rw [List.mapM_cons, List.forall₂_cons_left_iff, Except.bind_eq_ok_iff]
    simp only [Except.bind_eq_ok_iff, pure, Except.pure, Except.ok.injEq, ih, ← exists_and_left,
      @eq_comm _ ys]

theorem exists_mapM_iff : (∃ ys, xs.mapM f = .ok ys) ↔ ∀ x ∈ xs, ∃ y, f x = .ok y := by
  refine ⟨fun h => ?_, exists_mapM⟩
  simp only [mapM_eq_ok_iff] at h
  obtain ⟨ys, h⟩ := h
  induction h with
  | nil => simp
  | cons hxy _ ih => exact List.forall_mem_cons.2 ⟨⟨_, hxy⟩, ih⟩

theorem mapM_cons_eq_error_iff {x : α} {e : ε} :
    (x :: xs).mapM f = .error e ↔
      f x = .error e ∨ (∃ y, f x = .ok y) ∧ xs.mapM f = .error e := by
  rw [List.mapM_cons]
  cases f x with
  | error e' => simp [bind, Except.bind]
  | ok y => cases xs.mapM f <;> simp [bind, Except.bind, pure, Except.pure]

theorem mapM_eq_error_iff {e : ε} :
    xs.mapM f = .error e ↔ ∃ before x after, xs = before ++ x :: after ∧
      (∀ y ∈ before, ∃ z, f y = .ok z) ∧ f x = .error e := by
  induction xs with
  | nil => simp [pure, Except.pure]
  | cons x xs ih =>
    rw [mapM_cons_eq_error_iff, ih]
    constructor
    · rintro (hx | ⟨hx, before, y, after, rfl, hbefore, hy⟩)
      · exact ⟨[], x, xs, rfl, by simp, hx⟩
      · exact ⟨x :: before, y, after, rfl, List.forall_mem_cons.2 ⟨hx, hbefore⟩, hy⟩
    · rintro ⟨before, y, after, hxs, hbefore, hy⟩
      cases before with
      | nil =>
        obtain ⟨rfl, rfl⟩ := List.cons_eq_cons.1 hxs
        exact .inl hy
      | cons w before =>
        obtain ⟨rfl, rfl⟩ := List.cons_eq_cons.1 hxs
        obtain ⟨hx, hbefore⟩ := List.forall_mem_cons.1 hbefore
        exact .inr ⟨hx, before, y, after, rfl, hbefore, hy⟩

theorem exists_of_mapM_eq_error {e : ε} (h : xs.mapM f = .error e) : ∃ x ∈ xs, f x = .error e := by
  obtain ⟨before, x, after, rfl, -, hx⟩ := mapM_eq_error_iff.1 h
  exact ⟨x, by simp, hx⟩

end Results

/-- Every field of every record can be written in an assembler row. -/
def Table.Coded (t : Table) : Prop := ∀ r ∈ t.records, ∀ f ∈ r.fields, f.operandCode.isSome = true

namespace Record

def missingCode (r : Record) (f : Field) : Failure :=
  .artifact (r.name ++ ": field " ++ f.name ++ " has no assembler operand code")

theorem exists_operandRow_iff {r : Record} :
    (∃ row, r.operandRow = .ok row) ↔ ∀ f ∈ r.fields, f.operandCode.isSome = true := by
  refine ⟨fun h f hf => ?_, exists_operandRow⟩
  obtain ⟨row, hrow⟩ := h
  obtain ⟨codes, hcodes, -⟩ := Except.map_eq_ok_iff.1 hrow
  obtain ⟨code, hcode⟩ := exists_mapM_iff.1 ⟨codes, hcodes⟩ f (List.mem_mergeSort.2 hf)
  cases hnone : f.operandCode with
  | none =>
    rw [hnone] at hcode
    cases hcode
  | some _ => rfl

theorem operandRow_eq_error {r : Record} {e : Failure} (h : r.operandRow = .error e) :
    ∃ f ∈ r.fields, f.operandCode = none ∧ e = r.missingCode f := by
  obtain ⟨f, hf, hcode⟩ := exists_of_mapM_eq_error (Except.map_eq_error_iff.1 h)
  refine ⟨f, List.mem_mergeSort.1 hf, ?_⟩
  cases hnone : f.operandCode with
  | none =>
    rw [hnone] at hcode
    exact ⟨rfl, (Except.error.inj hcode).symm⟩
  | some _ =>
    rw [hnone] at hcode
    cases hcode

end Record

namespace Artifact

variable {t : Table}

theorem OperandRows.exists_lines_iff : (∃ ls, OperandRows.lines t = .ok ls) ↔ t.Coded := by
  refine ⟨fun h r hr => ?_, exists_lines⟩
  obtain ⟨ls, hls⟩ := h
  obtain ⟨rows, hrows, -⟩ := Except.map_eq_ok_iff.1 hls
  exact Record.exists_operandRow_iff.1 (exists_mapM_iff.1 ⟨rows, hrows⟩ r hr)

theorem OperandRows.lines_eq_error {e : Failure} (h : OperandRows.lines t = .error e) :
    ∃ r ∈ t.records, ∃ f ∈ r.fields, f.operandCode = none ∧ e = r.missingCode f := by
  obtain ⟨r, hr, hrow⟩ := exists_of_mapM_eq_error (Except.map_eq_error_iff.1 h)
  exact ⟨r, hr, Record.operandRow_eq_error hrow⟩

theorem Header.exists_render_iff : (∃ text, header.render t = .ok text) ↔ t.Coded := by
  refine ⟨fun h => ?_, exists_render⟩
  obtain ⟨text, htext⟩ := h
  obtain ⟨ls, hls, -⟩ := Except.map_eq_ok_iff.1 htext
  obtain ⟨rows, hrows, -⟩ := Except.map_eq_ok_iff.1 hls
  exact OperandRows.exists_lines_iff.1 ⟨rows, hrows⟩

theorem Header.render_eq_error {e : Failure} (h : header.render t = .error e) :
    ∃ r ∈ t.records, ∃ f ∈ r.fields, f.operandCode = none ∧ e = r.missingCode f :=
  OperandRows.lines_eq_error (Except.map_eq_error_iff.1 (Except.map_eq_error_iff.1 h))

end Artifact

end OpcodeTable
