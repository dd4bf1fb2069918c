import OpcodeTable.Proofs.Artifact.Names
import OpcodeTable.Proofs.Encoding.Pattern

namespace OpcodeTable

theorem Encoding.mem_pattern {e : Encoding} {c : Char} (h : c ∈ e.pattern.toList) :
    c = '0' ∨ c = '1' ∨ c = '?' := by
  rw [pattern, String.toList_ofList, List.mem_map] at h
  obtain ⟨i, -, rfl⟩ := h
  rw [patternMark]
  split
  · split
    · exact .inr (.inl rfl)
    · exact .inl rfl
  · exact .inr (.inr rfl)

theorem Encoding.oneLine_pattern (e : Encoding) : Text.OneLine e.pattern := by
  intro c hc
  rcases mem_pattern hc with rfl | rfl | rfl <;> decide

namespace Artifact.BitPatterns

def mark : String := "  def "

def read (cs : List Char) (_ : String) : Option (String × String) := do
  let (name, rest) ← Text.cut? [' '] cs
  let rest ← Text.after? "= BitPat(\"b" (rest.dropWhile (· = ' '))
  let (pattern, _) ← Text.cut? ['"'] rest
  some (String.ofList name, String.ofList pattern)

def entries (text : String) : List (Option (String × String)) :=
  Text.entries mark read (Text.linesOf text)

theorem oneLine_instructionLine {r : Record} (h : Text.Unbroken r.name) :
    Text.OneLine (instructionLine r) := by
  have hname : Text.OneLine r.macroName := (Instruction.unbroken_macroName h).oneLine
  have hpadded : Text.OneLine (String.ofList (r.macroName.toList.rightpad nameWidth ' ')) := by
    intro c hc
    rw [String.toList_ofList, List.rightpad, List.mem_append, List.mem_replicate] at hc
    rcases hc with hc | ⟨-, rfl⟩
    · exact hname c hc
    · decide
  simp only [instructionLine, Text.oneLine_append]
  exact ⟨⟨⟨⟨by decide, hpadded⟩, by decide⟩, r.encoding.oneLine_pattern⟩, by decide⟩

theorem toList_instructionLine (r : Record) :
    (instructionLine r).toList = mark.toList ++ (r.macroName.toList ++
      ' ' :: (List.replicate (nameWidth - r.macroName.toList.length) ' ' ++
        ("= BitPat(\"b".toList ++ (r.encoding.pattern.toList ++ ['"', ')'])))) := by
  have hopen : " = BitPat(\"b".toList = ' ' :: "= BitPat(\"b".toList := by decide
  have hclose : "\")".toList = ['"', ')'] := by decide
  simp only [instructionLine, String.toList_append, String.toList_ofList, List.rightpad, hopen,
    hclose, List.append_assoc, List.cons_append, Text.replicate_append_cons]
  rfl

theorem entries_instructionLine {r : Record} (h : Text.Unbroken r.name) (rest : List String) :
    Text.entries mark read (instructionLine r :: rest) =
      some (r.macroName, r.encoding.pattern) :: Text.entries mark read rest := by
  have hname : ' ' ∉ r.macroName.toList := (Instruction.unbroken_macroName h).space_not_mem
  have hquote : '"' ∉ r.encoding.pattern.toList := fun hmem => by
    rcases Encoding.mem_pattern hmem with h | h | h <;> revert h <;> decide
  have hblanks (k : Nat) (cs : List Char) :
      (List.replicate k ' ' ++ ("= BitPat(\"b".toList ++ cs)).dropWhile (· = ' ') =
        "= BitPat(\"b".toList ++ cs := by
    have hfirst : "= BitPat(\"b".toList = '=' :: " BitPat(\"b".toList := by decide
    rw [hfirst]
    exact Text.dropWhile_replicate_append k (by decide) _
  have hcut (cs : List Char) : Text.cut? [' '] (r.macroName.toList ++ ' ' :: cs) =
      some (r.macroName.toList, cs) := Text.cut?_append hname [] cs
  have hcut' : Text.cut? ['"'] (r.encoding.pattern.toList ++ ['"', ')']) =
      some (r.encoding.pattern.toList, [')']) := Text.cut?_append hquote [] [')']
  rw [Text.entries_cons (toList_instructionLine r)]
  simp only [read, hcut, hblanks, Text.after?_append, hcut', Option.bind_eq_bind, Option.bind_some,
    String.ofList_toList]

def closing : List String :=
  "\x7d" :: object "Causes"
      (TrapCause.all.map (fun c => value c.identifier c.code) ++
        array "all" emptyBuffer (TrapCause.all.map TrapCause.identifier)) ++
    object "CSRs"
      (ControlRegister.all.map (fun r => value r.name r.number) ++
        array "all" emptyBuffer (ControlRegister.common.map ControlRegister.name) ++
        array "all32" bufferOfAll (ControlRegister.highHalves.map ControlRegister.name))

def opening : List String :=
  ["/* Automatically generated by ise_opcodes */", "object " ++ "Instructions" ++ " \x7b"]

theorem lines_eq (t : Table) :
    lines t = opening ++ (t.records.map instructionLine ++ closing) := by
  simp only [lines, opening, closing, object, List.append_assoc, List.cons_append]
  rfl

theorem aside_value {name : String} (h : Text.OneLine name) (number : Nat) :
    Text.Aside mark (value name number) := by
  rw [value, String.append_assoc, String.append_assoc]
  apply Text.aside_append (by decide) (by decide)
  simp only [Text.oneLine_append]
  exact ⟨h, by decide, Text.oneLine_hex number⟩

theorem aside_array {name first : String} {members : List String} (hname : Text.OneLine name)
    (hfirst : Text.OneLine first) (hmembers : ∀ m ∈ members, Text.OneLine m) :
    ∀ l ∈ array name first members, Text.Aside mark l := by
  intro l hl
  simp only [array, List.mem_append, List.mem_cons, List.mem_map, List.not_mem_nil, or_false] at hl
  rcases hl with ((rfl | rfl) | ⟨m, hm, rfl⟩) | rfl | rfl
  · rw [String.append_assoc]
    exact Text.aside_append (by decide) (by decide) (Text.oneLine_append.2 ⟨hname, by decide⟩)
  · exact Text.aside_append (by decide) (by decide) hfirst
  · exact Text.aside_append (by decide) (by decide) (hmembers m hm)
  · decide
  · decide

theorem aside_object {name : String} {body : List String} (hname : Text.OneLine name)
    (hbody : ∀ l ∈ body, Text.Aside mark l) : ∀ l ∈ object name body, Text.Aside mark l := by
  intro l hl
  simp only [object, List.mem_append, List.mem_cons, List.not_mem_nil, or_false] at hl
  rcases hl with (rfl | hl) | rfl
  · rw [String.append_assoc]
    exact Text.aside_append (by decide) (by decide) (Text.oneLine_append.2 ⟨hname, by decide⟩)
  · exact hbody l hl
  · decide

theorem aside_closing : ∀ l ∈ closing, Text.Aside mark l := by
  have hcause : ∀ m ∈ TrapCause.all.map TrapCause.identifier, Text.OneLine m := by
    rw [List.forall_mem_map]
    exact fun c hc => TrapCause.oneLine_identifier hc
  have hcommon : ∀ m ∈ ControlRegister.common.map ControlRegister.name, Text.OneLine m := by
    rw [List.forall_mem_map]
    exact fun r hr => ControlRegister.oneLine_name (List.mem_append_left _ hr)
  have hhigh : ∀ m ∈ ControlRegister.highHalves.map ControlRegister.name, Text.OneLine m := by
    rw [List.forall_mem_map]
    exact fun r hr => ControlRegister.oneLine_name (List.mem_append_right _ hr)
  have hcauses : ∀ l ∈ object "Causes"
      (TrapCause.all.map (fun c => value c.identifier c.code) ++
        array "all" emptyBuffer (TrapCause.all.map TrapCause.identifier)), Text.Aside mark l := by
    apply aside_object (by decide)
    rw [List.forall_mem_append, List.forall_mem_map]
    exact ⟨fun c hc => aside_value (TrapCause.oneLine_identifier hc) _,
      aside_array (by decide) (by decide) hcause⟩
  have hregisters : ∀ l ∈ object "CSRs"
      (ControlRegister.all.map (fun r => value r.name r.number) ++
        array "all" emptyBuffer (ControlRegister.common.map ControlRegister.name) ++
        array "all32" bufferOfAll (ControlRegister.highHalves.map ControlRegister.name)),
      Text.Aside mark l := by
    apply aside_object (by decide)
    rw [List.forall_mem_append, List.forall_mem_append, List.forall_mem_map]
    exact ⟨⟨fun r hr => aside_value (ControlRegister.oneLine_name hr) _,
      aside_array (by decide) (by decide) hcommon⟩, aside_array (by decide) (by decide) hhigh⟩
  rw [closing, List.forall_mem_append, List.forall_mem_cons]
  exact ⟨⟨by decide, hcauses⟩, hregisters⟩

theorem aside_opening : ∀ l ∈ opening, Text.Aside mark l := by
  decide

theorem oneLine_lines {t : Table} (h : ∀ r ∈ t.records, Text.Unbroken r.name) :
    ∀ l ∈ lines t, Text.OneLine l := by
  rw [lines_eq, List.forall_mem_append, List.forall_mem_append, List.forall_mem_map]
  exact ⟨fun l hl => (aside_opening l hl).oneLine, fun r hr => oneLine_instructionLine (h r hr),
    fun l hl => (aside_closing l hl).oneLine⟩

theorem entries_render {t : Table} {text : String} (h : ∀ r ∈ t.records, Text.Unbroken r.name)
    (htext : bitPatterns.render t = .ok text) :
    entries text = t.records.map fun r => some (r.macroName, r.encoding.pattern) := by
  have hread : ∀ r ∈ t.records, ∀ rest, Text.entries mark read ([instructionLine r] ++ rest) =
      some (r.macroName, r.encoding.pattern) :: Text.entries mark read rest :=
    fun r hr rest => entries_instructionLine (h r hr) rest
  rw [entries, linesOf_render rfl (oneLine_lines h) htext, lines_eq,
    Text.entries_append aside_opening, List.map_eq_flatMap, Text.entries_flatMap hread,
    Text.entries_eq_nil aside_closing, List.append_nil]

end Artifact.BitPatterns

end OpcodeTable
