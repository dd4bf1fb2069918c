import OpcodeTable.Artifact.OperandRows
import OpcodeTable.Proofs.Artifact.Names
import OpcodeTable.Proofs.Draft.Edits

namespace OpcodeTable

theorem exists_of_mem_mapM {ε α β : Type} {f : α → Except ε β} {xs : List α} {ys : List β}
    (h : xs.mapM f = .ok ys) : ∀ y ∈ ys, ∃ x ∈ xs, f x = .ok y := by
  induction xs generalizing ys with
  | nil =>
    cases h
    simp
  | cons x xs ih =>
    rw [List.mapM_cons, Except.bind_eq_ok_iff] at h
    obtain ⟨z, hz, h⟩ := h
    obtain ⟨zs, hzs, h⟩ := Except.bind_eq_ok_iff.1 h
    cases h
    rw [List.forall_mem_cons]
    refine ⟨⟨x, List.mem_cons_self, hz⟩, fun y hy => ?_⟩
    obtain ⟨w, hw, hwy⟩ := ih hzs y hy
    exact ⟨w, List.mem_cons_of_mem x hw, hwy⟩

theorem exists_mapM {ε α β : Type} {f : α → Except ε β} {xs : List α}
    (h : ∀ x ∈ xs, ∃ y, f x = .ok y) : ∃ ys, xs.mapM f = .ok ys := by
  induction xs with
  | nil => exact ⟨[], rfl⟩
  | cons x xs ih =>
    rw [List.forall_mem_cons] at h
    obtain ⟨⟨y, hy⟩, hxs⟩ := h
    obtain ⟨ys, hys⟩ := ih hxs
    refine ⟨y :: ys, ?_⟩
    rw [List.mapM_cons, hy, hys]
    rfl

theorem Text.oneLine_intercalate {s : String} (hs : OneLine s) {ls : List String}
    (hls : ∀ l ∈ ls, OneLine l) : OneLine (s.intercalate ls) := by
  induction ls with
  | nil =>
    rw [String.intercalate_nil]
    decide
  | cons l ls ih =>
    rw [List.forall_mem_cons] at hls
    cases ls with
    | nil =>
      rw [String.intercalate_singleton]
      exact hls.1
    | cons m ls =>
      rw [String.intercalate_cons_cons, oneLine_append, oneLine_append]
      exact ⟨⟨hls.1, hs⟩, ih hls.2⟩

theorem Field.oneLine_name (f : Field) : Text.OneLine f.name := by
  have hall : ∀ g ∈ all, Text.OneLine g.name := by decide +kernel
  exact hall f (mem_all f)

theorem Field.oneLine_operandCode {f : Field} {code : String} (h : f.operandCode = some code) :
    Text.OneLine code := by
  have hall : ∀ g ∈ all, ∀ c ∈ g.operandCode, Text.OneLine c := by decide +kernel
  exact hall f (mem_all f) code h

theorem Record.oneLine_of_mem_operandCodes {r : Record} {codes : List String}
    (h : r.operandCodes = .ok codes) : ∀ c ∈ codes, Text.OneLine c := by
  intro c hc
  obtain ⟨f, -, hf⟩ := exists_of_mem_mapM h c hc
  split at hf
  next code hcode =>
    cases hf
    exact Field.oneLine_operandCode hcode
  next => cases hf

theorem Record.exists_operandRow {r : Record} (h : ∀ f ∈ r.fields, f.operandCode.isSome) :
    ∃ row, r.operandRow = .ok row := by
  have hcodes : ∃ codes, r.operandCodes = .ok codes := by
    refine exists_mapM fun f hf => ?_
    obtain ⟨code, hcode⟩ := Option.isSome_iff_exists.1 (h f (List.mem_mergeSort.1 hf))
    exact ⟨code, by rw [hcode]⟩
  obtain ⟨codes, hcodes⟩ := hcodes
  exact ⟨_, Except.map_eq_ok_iff.2 ⟨codes, hcodes, rfl⟩⟩

def Field.definitionMarks : List String :=
  ["#define OP_MASK_", "#define OP_SH_", "#define ENCODE_X_", "#define EXTRACT_X_"]

section Aside

variable {mark : String}

theorem Field.aside_definitions (hmark : ∀ p ∈ definitionMarks, Text.Apart p mark) (f : Field) :
    ∀ l ∈ f.definitions, Text.Aside mark l := by
  have hupper : Text.OneLine (f.name.map Char.toUpper) := f.oneLine_name.map_toUpper
  have hones : Text.OneLine (String.ofList (List.replicate f.range.width '1')) := by
    intro c hc
    rw [String.toList_ofList, List.mem_replicate] at hc
    obtain ⟨-, rfl⟩ := hc
    decide
  have hlow : Text.OneLine f.range.low.repr := Text.oneLine_repr (Int.ofNat f.range.low)
  simp only [definitionMarks, List.forall_mem_cons, List.not_mem_nil, false_implies,
    implies_true, and_true] at hmark
  obtain ⟨hmask, hshift, hencode, hextract⟩ := hmark
  simp only [definitions, List.forall_mem_cons, List.not_mem_nil, false_implies, implies_true,
    and_true, String.append_assoc]
  refine ⟨?_, ?_, ?_, ?_⟩
  · apply Text.aside_append hmask (by decide)
    simp only [Text.oneLine_append]
    exact ⟨hupper, by decide, hones⟩
  · apply Text.aside_append hshift (by decide)
    simp only [Text.oneLine_append]
    exact ⟨hupper, by decide, hlow⟩
  · apply Text.aside_append hencode (by decide)
    simp only [Text.oneLine_append]
    exact ⟨hupper, by decide, hupper, by decide, hupper, by decide⟩
  · apply Text.aside_append hextract (by decide)
    simp only [Text.oneLine_append]
    exact ⟨hupper, by decide, hupper, by decide, hupper, by decide⟩

namespace Artifact.OperandRows

theorem aside_definitions (hmark : ∀ p ∈ Field.definitionMarks, Text.Apart p mark) :
    ∀ l ∈ definitions, Text.Aside mark l := by
  intro l hl
  rw [definitions, List.mem_mergeSort] at hl
  obtain ⟨f, -, hl⟩ := List.mem_flatMap.1 hl
  exact f.aside_definitions hmark l hl

theorem aside_operandRow (hmark : Text.Apart "\x7b\"" mark) {r : Record} {row : String}
    (h : Text.Unbroken r.name) (hrow : r.operandRow = .ok row) : Text.Aside mark row := by
  obtain ⟨codes, hcodes, rfl⟩ := Except.map_eq_ok_iff.1 hrow
  have hcapitals : Text.OneLine r.macroName := (Instruction.unbroken_macroName h).oneLine
  have hlist : Text.OneLine (",".intercalate codes) :=
    Text.oneLine_intercalate (by decide) (Record.oneLine_of_mem_operandCodes hcodes)
  simp only [String.append_assoc]
  apply Text.aside_append hmark (by decide)
  simp only [Text.oneLine_append]
  exact ⟨h.oneLine, by decide, hlist, by decide, hcapitals, by decide, hcapitals, by decide⟩

theorem aside_lines (hdefinitions : ∀ p ∈ Field.definitionMarks, Text.Apart p mark)
    (hrows : Text.Apart "\x7b\"" mark) {t : Table} {ls : List String}
    (hnames : ∀ r ∈ t.records, Text.Unbroken r.name) (h : lines t = .ok ls) :
    ∀ l ∈ ls, Text.Aside mark l := by
  obtain ⟨rows, hmap, rfl⟩ := Except.map_eq_ok_iff.1 h
  rw [List.forall_mem_append]
  refine ⟨aside_definitions hdefinitions, fun row hrow => ?_⟩
  obtain ⟨r, hr, hrow⟩ := exists_of_mem_mapM hmap row hrow
  exact aside_operandRow hrows (hnames r hr) hrow

theorem exists_lines {t : Table}
    (h : ∀ r ∈ t.records, ∀ f ∈ r.fields, f.operandCode.isSome) : ∃ ls, lines t = .ok ls := by
  obtain ⟨rows, hrows⟩ := exists_mapM fun r hr => Record.exists_operandRow (h r hr)
  exact ⟨_, Except.map_eq_ok_iff.2 ⟨rows, hrows, rfl⟩⟩

end Artifact.OperandRows

end Aside

end OpcodeTable
