import OpcodeTable.Artifact
import OpcodeTable.Proofs.Definition.Reorder
import OpcodeTable.Proofs.List.Pointwise
import OpcodeTable.Proofs.Record.Bytes

namespace OpcodeTable

theorem pairwise_mergeSort_of_key {α : Type} (key : α → String) (xs : List α) :
    (xs.mergeSort fun a b => decide (key a ≤ key b)).Pairwise fun a b => key a ≤ key b := by
  have htrans (a b c : α) (hab : decide (key a ≤ key b) = true)
      (hbc : decide (key b ≤ key c) = true) : decide (key a ≤ key c) = true :=
    decide_eq_true (String.le_trans (of_decide_eq_true hab) (of_decide_eq_true hbc))
  have htotal (a b : α) : (decide (key a ≤ key b) || decide (key b ≤ key a)) = true := by
    simpa using String.le_total (key a) (key b)
  exact (List.pairwise_mergeSort htrans htotal xs).imp of_decide_eq_true

namespace Record

theorem fieldsByName_perm (r : Record) : r.fieldsByName.Perm r.fields :=
  List.mergeSort_perm _ _

theorem pairwise_fieldsByName (r : Record) :
    r.fieldsByName.Pairwise fun f g => f.name ≤ g.name :=
  pairwise_mergeSort_of_key Field.name r.fields

theorem eq_fieldsByName {r : Record} {fs : List Field} (hperm : fs.Perm r.fields)
    (hsorted : fs.Pairwise fun f g => f.name ≤ g.name) : fs = r.fieldsByName := by
  apply List.Perm.eq_of_pairwise _ hsorted r.pairwise_fieldsByName
  · exact hperm.trans r.fieldsByName_perm.symm
  · intro f g _ _ hfg hgf
    exact Field.name_injective (String.le_antisymm hfg hgf)

theorem operandRow_eq_of_perm {r s : Record} (hname : r.name = s.name)
    (hfields : r.fields.Perm s.fields) : r.operandRow = s.operandRow := by
  have hsorted : r.fieldsByName = s.fieldsByName :=
    s.eq_fieldsByName (r.fieldsByName_perm.trans hfields) r.pairwise_fieldsByName
  simp only [operandRow, operandCodes, hsorted, Instruction.macroName, Instruction.identifier, hname]

namespace Reordered

variable {r s : Record}

theorem identifier_eq (h : r.Reordered s) : r.identifier = s.identifier := by
  rw [Instruction.identifier, Instruction.identifier, h.name_eq]

theorem macroName_eq (h : r.Reordered s) : r.macroName = s.macroName := by
  rw [Instruction.macroName, Instruction.macroName, h.identifier_eq]

theorem label_eq (h : r.Reordered s) : r.label = s.label := by
  rw [Instruction.label, Instruction.label, h.name_eq]

open Artifact in
theorem matchLines_eq (h : r.Reordered s) : Header.matchLines r = Header.matchLines s := by
  rw [Header.matchLines, Header.matchLines, h.macroName_eq, h.encoding_eq]

open Artifact in
theorem declareInstruction_eq (h : r.Reordered s) :
    Header.declareInstruction r = Header.declareInstruction s := by
  unfold Header.declareInstruction
  rw [h.macroName_eq, h.identifier_eq]

open Artifact in
theorem instructionLine_eq (h : r.Reordered s) :
    BitPatterns.instructionLine r = BitPatterns.instructionLine s := by
  rw [BitPatterns.instructionLine, BitPatterns.instructionLine, h.macroName_eq, h.encoding_eq]

open Artifact in
theorem caseLines_eq (h : r.Reordered s) :
    SelectorSwitch.caseLines r = SelectorSwitch.caseLines s := by
  rw [SelectorSwitch.caseLines, SelectorSwitch.caseLines, h.label_eq, h.encoding_eq]

theorem operandRow_eq (h : r.Reordered s) : r.operandRow = s.operandRow :=
  operandRow_eq_of_perm h.name_eq h.fields_perm

end Reordered

end Record

namespace Artifact

variable {t u : Table}

theorem OperandRows.lines_eq_of_forall₂
    (h : List.Forall₂ (fun r s => r.operandRow = s.operandRow) t.records u.records) :
    OperandRows.lines t = OperandRows.lines u := by
  have hmap (rs : List Record) :
      rs.mapM Record.operandRow = (rs.map Record.operandRow).mapM id := by
    rw [List.mapM_map]
    rfl
  rw [OperandRows.lines, OperandRows.lines, hmap, hmap, map_eq_map_iff_forall₂.2 h]

theorem OperandRows.lines_eq_of_reordered (h : List.Forall₂ Record.Reordered t.records u.records) :
    OperandRows.lines t = OperandRows.lines u :=
  lines_eq_of_forall₂ (h.imp fun _ _ => Record.Reordered.operandRow_eq)

theorem Header.encodingLines_eq_of_reordered
    (h : List.Forall₂ Record.Reordered t.records u.records) :
    Header.encodingLines t = Header.encodingLines u := by
  have hmatch := map_eq_map_of_forall₂ h fun _ _ => Record.Reordered.matchLines_eq
  have hdeclare := map_eq_map_of_forall₂ h fun _ _ => Record.Reordered.declareInstruction_eq
  simp only [Header.encodingLines, List.flatMap_def, hmatch, hdeclare]

theorem BitPatterns.lines_eq_of_reordered
    (h : List.Forall₂ Record.Reordered t.records u.records) :
    BitPatterns.lines t = BitPatterns.lines u := by
  have hline := map_eq_map_of_forall₂ h fun _ _ => Record.Reordered.instructionLine_eq
  simp only [BitPatterns.lines, hline]

theorem SelectorSwitch.lines_eq_of_reordered
    (h : List.Forall₂ Record.Reordered t.records u.records) :
    SelectorSwitch.lines t = SelectorSwitch.lines u := by
  have hcase := map_eq_map_of_forall₂ h fun _ _ => Record.Reordered.caseLines_eq
  simp only [SelectorSwitch.lines, List.flatMap_def, hcase]

theorem render_eq_of_reordered {a : Artifact} (ha : a ≠ summary)
    (h : List.Forall₂ Record.Reordered t.records u.records) : a.render t = a.render u := by
  have hlines : a.lines t = a.lines u := by
    cases a with
    | header =>
      simp only [lines, Header.lines, OperandRows.lines_eq_of_reordered h,
        Header.encodingLines_eq_of_reordered h]
    | bitPatterns => simp only [lines, BitPatterns.lines_eq_of_reordered h]
    | selectorSwitch => simp only [lines, SelectorSwitch.lines_eq_of_reordered h]
    | summary => exact absurd rfl ha
    | operandRows => exact OperandRows.lines_eq_of_reordered h
  rw [render, render, hlines]

end Artifact

end OpcodeTable
