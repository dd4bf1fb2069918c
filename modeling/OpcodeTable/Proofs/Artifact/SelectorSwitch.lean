import OpcodeTable.Proofs.Artifact.Names

namespace OpcodeTable.Artifact.SelectorSwitch

def mark : String := "\tcase A"

def readSelector (line : String) : Option Selector := do
  let rest ← Text.after? "\t\treturn &inst\x7b" line.toList
  let (opcode, rest) ← Text.cut? [',', ' '] rest
  let (funct3, rest) ← Text.cut? [',', ' '] rest
  let (rs2, rest) ← Text.cut? [',', ' '] rest
  let (csr, rest) ← Text.cut? [',', ' '] rest
  let (funct7, _) ← Text.cut? ['\x7d'] rest
  let opcode ← Text.hex? opcode
  let funct3 ← Text.hex? funct3
  let rs2 ← Text.hex? rs2
  let csr ← Text.integer? csr
  let funct7 ← Text.hex? funct7
  some { opcode, funct3, rs2, csr, funct7 }

def read (cs : List Char) (next : String) : Option (String × Selector) := do
  let selector ← readSelector next
  if cs.getLast? = some ':' then some (String.ofList cs.dropLast, selector) else none

def entries (text : String) : List (Option (String × Selector)) :=
  Text.entries mark read (Text.linesOf text)

def caseLine (label : String) : String := mark ++ label ++ ":"

def selectorLine (s : Selector) : String :=
  "\t\treturn &inst\x7b" ++ Text.hex s.opcode ++ ", " ++ Text.hex s.funct3 ++ ", " ++
    Text.hex s.rs2 ++ ", " ++ s.csr.repr ++ ", " ++ Text.hex s.funct7 ++ "\x7d, true"

theorem caseLines_eq (r : Record) :
    caseLines r = [caseLine r.label, selectorLine (.ofWord r.encoding.value)] := rfl

theorem readSelector_selectorLine (s : Selector) : readSelector (selectorLine s) = some s := by
  have hcomma : ", ".toList = [',', ' '] := by decide
  have hclose : "\x7d, true".toList = '\x7d' :: ", true".toList := by decide
  have hcut (cs ds : List Char) (h : ',' ∉ cs) :
      Text.cut? [',', ' '] (cs ++ (", ".toList ++ ds)) = some (cs, ds) := by
    rw [hcomma]
    exact Text.cut?_append h [' '] ds
  have hlast (n : Nat) : Text.cut? ['\x7d'] ((Text.hex n).toList ++ "\x7d, true".toList) =
      some ((Text.hex n).toList, ", true".toList) := by
    rw [hclose]
    exact Text.cut?_append (Text.not_mem_hex (by decide) (by decide) n) [] _
  have hnum (n : Nat) : ',' ∉ (Text.hex n).toList := Text.not_mem_hex (by decide) (by decide) n
  have hint (i : Int) : ',' ∉ i.repr.toList := Text.not_mem_repr (by decide) (by decide) i
  unfold selectorLine
  simp only [readSelector, String.toList_append, List.append_assoc, Text.after?_append, hcut, hnum,
    hint, hlast, Text.hex?_hex, Text.integer?_repr, Option.bind_eq_bind, Option.bind_some,
    not_false_eq_true]

theorem aside_selectorLine (s : Selector) : Text.Aside mark (selectorLine s) := by
  unfold selectorLine
  simp only [String.append_assoc]
  apply Text.aside_append (by decide) (by decide)
  simp only [Text.oneLine_append]
  exact ⟨Text.oneLine_hex _, by decide, Text.oneLine_hex _, by decide, Text.oneLine_hex _,
    by decide, Text.oneLine_repr _, by decide, Text.oneLine_hex _, by decide⟩

theorem entries_caseLines (r : Record) (rest : List String) :
    Text.entries mark read (caseLines r ++ rest) =
      some (r.label, Selector.ofWord r.encoding.value) :: Text.entries mark read rest := by
  have haside : ∀ l ∈ [selectorLine (.ofWord r.encoding.value)], Text.Aside mark l := by
    rw [List.forall_mem_singleton]
    exact aside_selectorLine _
  have hcolon : ":".toList = [':'] := by decide
  have hline : (caseLine r.label).toList = mark.toList ++ (r.label.toList ++ [':']) := by
    rw [caseLine, String.toList_append, String.toList_append, hcolon, List.append_assoc]
  rw [caseLines_eq, List.cons_append, Text.entries_cons hline, Text.entries_append haside,
    List.singleton_append, List.headD_cons, read, readSelector_selectorLine]
  simp

theorem aside_opening : ∀ l ∈ opening, Text.Aside mark l := by
  decide +kernel

theorem aside_closing : ∀ l ∈ closing, Text.Aside mark l := by
  decide

theorem oneLine_lines {t : Table} (h : ∀ r ∈ t.records, Text.Unbroken r.name) :
    ∀ l ∈ lines t, Text.OneLine l := by
  have hcase : ∀ r ∈ t.records, ∀ l ∈ caseLines r, Text.OneLine l := by
    intro r hr
    rw [caseLines_eq, List.forall_mem_cons, List.forall_mem_singleton]
    refine ⟨?_, (aside_selectorLine _).oneLine⟩
    simp only [caseLine, Text.oneLine_append]
    exact ⟨⟨by decide, (Instruction.unbroken_label (h r hr)).oneLine⟩, by decide⟩
  rw [lines, List.forall_mem_append, List.forall_mem_append]
  refine ⟨⟨fun l hl => (aside_opening l hl).oneLine, ?_⟩,
    fun l hl => (aside_closing l hl).oneLine⟩
  intro l hl
  obtain ⟨r, hr, hl⟩ := List.mem_flatMap.1 hl
  exact hcase r hr l hl

theorem entries_render {t : Table} {text : String} (h : ∀ r ∈ t.records, Text.Unbroken r.name)
    (htext : selectorSwitch.render t = .ok text) :
    entries text = t.records.map fun r => some (r.label, Selector.ofWord r.encoding.value) := by
  have hread : ∀ r ∈ t.records, ∀ rest, Text.entries mark read (caseLines r ++ rest) =
      some (r.label, Selector.ofWord r.encoding.value) :: Text.entries mark read rest :=
    fun r _ rest => entries_caseLines r rest
  rw [entries, linesOf_render rfl (oneLine_lines h) htext, lines, List.append_assoc,
    Text.entries_append aside_opening, Text.entries_flatMap hread,
    Text.entries_eq_nil aside_closing, List.append_nil]

end OpcodeTable.Artifact.SelectorSwitch
