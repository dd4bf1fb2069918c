import OpcodeTable.Proofs.Artifact.Names
import OpcodeTable.Proofs.Artifact.OperandRows

namespace OpcodeTable

namespace Artifact.Header

def matchMark : String := "#define MATCH_"

def maskMark : String := "#define MASK_"

def read (cs : List Char) (_ : String) : Option (String × Nat) := do
  let (name, rest) ← Text.cut? [' '] cs
  let number ← Text.hex? (rest.dropWhile (· = ' '))
  some (String.ofList name, number)

def entries (mark text : String) : List (Option (String × Nat)) :=
  Text.entries mark read (Text.linesOf text)

def definitionLine (mark name blanks : String) (number : Nat) : String :=
  mark ++ name ++ blanks ++ Text.hex number

theorem matchLines_eq (r : Record) :
    matchLines r = [definitionLine matchMark r.macroName " " r.encoding.value.toNat,
      definitionLine maskMark r.macroName "  " r.encoding.mask.toNat] := rfl

theorem entries_definitionLine {mark name blanks : String} {k : Nat} (hname : ' ' ∉ name.toList)
    (hblanks : blanks.toList = ' ' :: List.replicate k ' ') (number : Nat) (rest : List String) :
    Text.entries mark read (definitionLine mark name blanks number :: rest) =
      some (name, number) :: Text.entries mark read rest := by
  have hline : (definitionLine mark name blanks number).toList = mark.toList ++ (name.toList ++
      ' ' :: (List.replicate k ' ' ++ (Text.hex number).toList)) := by
    simp only [definitionLine, String.toList_append, hblanks, List.append_assoc, List.cons_append]
  have hcut (cs : List Char) :
      Text.cut? [' '] (name.toList ++ ' ' :: cs) = some (name.toList, cs) :=
    Text.cut?_append hname [] cs
  have hnumber : (List.replicate k ' ' ++ (Text.hex number).toList).dropWhile (· = ' ') =
      (Text.hex number).toList := by
    rw [Text.toList_hex]
    exact Text.dropWhile_replicate_append k (by decide) _
  rw [Text.entries_cons hline]
  simp only [read, hcut, hnumber, Text.hex?_hex, Option.bind_eq_bind, Option.bind_some,
    String.ofList_toList]

section MatchLines

variable {r : Record} (h : Text.Unbroken r.name)

include h

theorem aside_definitionLine {mark other blanks : String} (hapart : Text.Apart other mark)
    (hother : Text.OneLine other) (hblanks : Text.OneLine blanks) (number : Nat) :
    Text.Aside mark (definitionLine other r.macroName blanks number) := by
  rw [definitionLine, String.append_assoc, String.append_assoc]
  apply Text.aside_append hapart hother
  simp only [Text.oneLine_append]
  exact ⟨(Instruction.unbroken_macroName h).oneLine, hblanks, Text.oneLine_hex number⟩

theorem aside_matchLine (number : Nat) :
    Text.Aside maskMark (definitionLine matchMark r.macroName " " number) :=
  aside_definitionLine h (by decide) (by decide) (by decide) number

theorem aside_maskLine (number : Nat) :
    Text.Aside matchMark (definitionLine maskMark r.macroName "  " number) :=
  aside_definitionLine h (by decide) (by decide) (by decide) number

theorem oneLine_matchLines : ∀ l ∈ matchLines r, Text.OneLine l := by
  rw [matchLines_eq, List.forall_mem_cons, List.forall_mem_singleton]
  exact ⟨(aside_matchLine h _).oneLine, (aside_maskLine h _).oneLine⟩

theorem entries_matchMark (rest : List String) :
    Text.entries matchMark read (matchLines r ++ rest) =
      some (r.macroName, r.encoding.value.toNat) :: Text.entries matchMark read rest := by
  have hname : ' ' ∉ r.macroName.toList := (Instruction.unbroken_macroName h).space_not_mem
  have hblanks : " ".toList = ' ' :: List.replicate 0 ' ' := by decide
  have haside : ∀ l ∈ [definitionLine maskMark r.macroName "  " r.encoding.mask.toNat],
      Text.Aside matchMark l := by
    rw [List.forall_mem_singleton]
    exact aside_maskLine h _
  rw [matchLines_eq, List.cons_append, entries_definitionLine hname hblanks,
    Text.entries_append haside]

theorem entries_maskMark (rest : List String) :
    Text.entries maskMark read (matchLines r ++ rest) =
      some (r.macroName, r.encoding.mask.toNat) :: Text.entries maskMark read rest := by
  have hname : ' ' ∉ r.macroName.toList := (Instruction.unbroken_macroName h).space_not_mem
  have hblanks : "  ".toList = ' ' :: List.replicate 1 ' ' := by decide
  have haside : ∀ l ∈ [definitionLine matchMark r.macroName " " r.encoding.value.toNat],
      Text.Aside maskMark l := by
    rw [List.forall_mem_singleton]
    exact aside_matchLine h _
  rw [matchLines_eq, ← List.singleton_append, List.append_assoc, Text.entries_append haside,
    List.singleton_append, entries_definitionLine hname hblanks]

end MatchLines

def opening : List String :=
  ["/* Automatically generated by ise_opcodes.  */",
    "#ifndef RISCV_ENCODING_H",
    "#define RISCV_ENCODING_H"]

def below (t : Table) : List String :=
  ControlRegister.all.map registerLine ++ (TrapCause.all.map causeLine ++ (["#endif"] ++
    (declarations "DECLARE_INSN" (t.records.map declareInstruction) ++
      (declarations "DECLARE_CSR" (ControlRegister.all.map declareRegister) ++
        declarations "DECLARE_CAUSE" (TrapCause.all.map declareCause)))))

theorem encodingLines_eq (t : Table) :
    encodingLines t = opening ++ (t.records.flatMap matchLines ++ below t) := by
  simp only [encodingLines, opening, below, List.append_assoc]

def belowMarks : List String :=
  ["#define CSR_", "#define CAUSE_", "#ifdef ", "DECLARE_INSN(", "DECLARE_CSR(", "DECLARE_CAUSE(\""]

section Aside

variable {mark : String} (hmark : mark ∈ [matchMark, maskMark])

include hmark

theorem aside_opening : ∀ l ∈ opening, Text.Aside mark l := by
  have hall : ∀ m ∈ [matchMark, maskMark], ∀ l ∈ opening, Text.Aside m l := by decide
  exact hall mark hmark

theorem aside_append {p s : String} (hp : p ∈ belowMarks) (hs : Text.OneLine s) :
    Text.Aside mark (p ++ s) := by
  have hapart : ∀ m ∈ [matchMark, maskMark], ∀ p ∈ belowMarks, Text.Apart p m := by decide
  have honeLine : ∀ p ∈ belowMarks, Text.OneLine p := by decide
  exact Text.aside_append (hapart mark hmark p hp) (honeLine p hp) hs

theorem aside_endif : Text.Aside mark "#endif" := by
  have hall : ∀ m ∈ [matchMark, maskMark], Text.Aside m "#endif" := by decide
  exact hall mark hmark

theorem aside_declarations {name : String} {body : List String} (hname : Text.OneLine name)
    (hbody : ∀ l ∈ body, Text.Aside mark l) : ∀ l ∈ declarations name body, Text.Aside mark l := by
  rw [declarations, List.forall_mem_append, List.forall_mem_cons, List.forall_mem_singleton]
  exact ⟨⟨aside_append hmark (by decide) hname, hbody⟩, aside_endif hmark⟩

theorem aside_declareInstruction {r : Record} (h : Text.Unbroken r.name) :
    Text.Aside mark (declareInstruction r) := by
  have hidentifier : Text.OneLine r.identifier := (Instruction.unbroken_identifier h).oneLine
  have hcapitals : Text.OneLine r.macroName := (Instruction.unbroken_macroName h).oneLine
  unfold declareInstruction
  simp only [String.append_assoc]
  apply aside_append hmark (by decide)
  simp only [Text.oneLine_append]
  exact ⟨hidentifier, by decide, hcapitals, by decide, hcapitals, by decide⟩

theorem aside_register {r : ControlRegister} (h : r ∈ ControlRegister.all) :
    Text.Aside mark (registerLine r) ∧ Text.Aside mark (declareRegister r) := by
  have hname : Text.OneLine r.name := ControlRegister.oneLine_name h
  have hcapitals : Text.OneLine r.macroName := hname.map_toUpper
  unfold registerLine declareRegister
  simp only [String.append_assoc]
  constructor
  · apply aside_append hmark (by decide)
    simp only [Text.oneLine_append]
    exact ⟨hcapitals, by decide, Text.oneLine_hex _⟩
  · apply aside_append hmark (by decide)
    simp only [Text.oneLine_append]
    exact ⟨hname, by decide, hcapitals, by decide⟩

theorem aside_cause {c : TrapCause} (h : c ∈ TrapCause.all) :
    Text.Aside mark (causeLine c) ∧ Text.Aside mark (declareCause c) := by
  have hcapitals : Text.OneLine c.macroName := (TrapCause.oneLine_identifier h).map_toUpper
  unfold causeLine declareCause
  simp only [String.append_assoc]
  constructor
  · apply aside_append hmark (by decide)
    simp only [Text.oneLine_append]
    exact ⟨hcapitals, by decide, Text.oneLine_hex _⟩
  · apply aside_append hmark (by decide)
    simp only [Text.oneLine_append]
    exact ⟨TrapCause.oneLine_name h, by decide, hcapitals, by decide⟩

theorem aside_below {t : Table} (hnames : ∀ r ∈ t.records, Text.Unbroken r.name) :
    ∀ l ∈ below t, Text.Aside mark l := by
  have hinstructions : ∀ l ∈ t.records.map declareInstruction, Text.Aside mark l := by
    rw [List.forall_mem_map]
    exact fun r hr => aside_declareInstruction hmark (hnames r hr)
  have hregisters : ∀ l ∈ ControlRegister.all.map declareRegister, Text.Aside mark l := by
    rw [List.forall_mem_map]
    exact fun r hr => (aside_register hmark hr).2
  have hcauses : ∀ l ∈ TrapCause.all.map declareCause, Text.Aside mark l := by
    rw [List.forall_mem_map]
    exact fun c hc => (aside_cause hmark hc).2
  simp only [below, List.forall_mem_append, List.forall_mem_map, List.forall_mem_singleton]
  exact ⟨fun r hr => (aside_register hmark hr).1, fun c hc => (aside_cause hmark hc).1,
    aside_endif hmark, aside_declarations hmark (by decide) hinstructions,
    aside_declarations hmark (by decide) hregisters, aside_declarations hmark (by decide) hcauses⟩

theorem aside_rows {t : Table} {rows : List String}
    (hnames : ∀ r ∈ t.records, Text.Unbroken r.name) (hrows : OperandRows.lines t = .ok rows) :
    ∀ l ∈ rows, Text.Aside mark l := by
  have hdefinitions : ∀ m ∈ [matchMark, maskMark], ∀ p ∈ Field.definitionMarks, Text.Apart p m := by
    decide
  have hrow : ∀ m ∈ [matchMark, maskMark], Text.Apart "\x7b\"" m := by decide
  exact OperandRows.aside_lines (hdefinitions mark hmark) (hrow mark hmark) hnames hrows

end Aside

section Render

variable {t : Table} {text : String} (hnames : ∀ r ∈ t.records, Text.Unbroken r.name)
  (htext : header.render t = .ok text)

include hnames htext

theorem exists_rows : ∃ rows, OperandRows.lines t = .ok rows ∧
    Text.linesOf text = opening ++ (t.records.flatMap matchLines ++ (below t ++ rows)) := by
  obtain ⟨ls, hls, -⟩ := Except.map_eq_ok_iff.1 htext
  obtain ⟨rows, hrows, rfl⟩ := Except.map_eq_ok_iff.1 hls
  have hmark : matchMark ∈ [matchMark, maskMark] := List.mem_cons_self
  have honeLine : ∀ l ∈ encodingLines t ++ rows, Text.OneLine l := by
    simp only [encodingLines_eq, List.forall_mem_append]
    refine ⟨⟨fun l hl => (aside_opening hmark l hl).oneLine, fun l hl => ?_,
      fun l hl => (aside_below hmark hnames l hl).oneLine⟩,
      fun l hl => (aside_rows hmark hnames hrows l hl).oneLine⟩
    obtain ⟨r, hr, hl⟩ := List.mem_flatMap.1 hl
    exact oneLine_matchLines (hnames r hr) l hl
  refine ⟨rows, hrows, ?_⟩
  rw [linesOf_render hls honeLine htext, encodingLines_eq, List.append_assoc, List.append_assoc]

theorem entries_eq {mark : String} (hmark : mark ∈ [matchMark, maskMark])
    {entry : Record → Option (String × Nat)}
    (hread : ∀ r ∈ t.records, ∀ rest,
      Text.entries mark read (matchLines r ++ rest) = entry r :: Text.entries mark read rest) :
    entries mark text = t.records.map entry := by
  obtain ⟨rows, hrows, hlines⟩ := exists_rows hnames htext
  rw [entries, hlines, Text.entries_append (aside_opening hmark), Text.entries_flatMap hread,
    Text.entries_append (aside_below hmark hnames),
    Text.entries_eq_nil (aside_rows hmark hnames hrows), List.append_nil]

theorem entries_render :
    entries matchMark text =
        t.records.map (fun r => some (r.macroName, r.encoding.value.toNat)) ∧
      entries maskMark text =
        t.records.map fun r => some (r.macroName, r.encoding.mask.toNat) := by
  constructor
  · exact entries_eq hnames htext (by decide) fun r hr => entries_matchMark (hnames r hr)
  · exact entries_eq hnames htext (by decide) fun r hr => entries_maskMark (hnames r hr)

end Render

theorem exists_render {t : Table} (h : ∀ r ∈ t.records, ∀ f ∈ r.fields, f.operandCode.isSome) :
    ∃ text, header.render t = .ok text := by
  obtain ⟨rows, hrows⟩ := OperandRows.exists_lines h
  have hlines : header.lines t = .ok (encodingLines t ++ rows) :=
    Except.map_eq_ok_iff.2 ⟨rows, hrows, rfl⟩
  exact ⟨_, Except.map_eq_ok_iff.2 ⟨_, hlines, rfl⟩⟩

end OpcodeTable.Artifact.Header
