import OpcodeTable.Proofs.Definition.Sound
import OpcodeTable.Proofs.List.Pointwise
import OpcodeTable.Proofs.Operand.Canonical
import OpcodeTable.Proofs.Token.Layout
import OpcodeTable.Proofs.Token.Runs

namespace OpcodeTable

structure Edit.SameEntries (es fs : List Edit) : Prop where
  fields : es.filterMap field? = fs.filterMap field?
  literals : es.filterMap literal? = fs.filterMap literal?
  ignored : es.filterMap ignored? = fs.filterMap ignored?

namespace Edit.SameEntries

variable {es fs : List Edit}

theorem refl (es : List Edit) : SameEntries es es := ⟨rfl, rfl, rfl⟩

theorem ranges_perm (h : SameEntries es fs) : (fs.map range).Perm (es.map range) := by
  have hes := Edit.ranges_perm es
  rw [h.fields, h.literals, h.ignored] at hes
  exact (Edit.ranges_perm fs).symm.trans hes

end Edit.SameEntries

namespace Instruction

def mnemonic (i : Instruction) : String := (if i.isPseudo then "@" else "") ++ i.name

def operands (i : Instruction) : List String :=
  i.fields.map Field.name ++ i.literals.map Operand.fix ++ i.ignored.map Operand.free

def line (i : Instruction) : String := " ".intercalate (i.mnemonic :: i.operands)

def edits (i : Instruction) : List Edit :=
  i.fields.map .field ++ i.literals.map (fun l => .literal l.range l.value.toNat) ++
    i.ignored.map .ignore

theorem filterMap_field?_edits (i : Instruction) : i.edits.filterMap Edit.field? = i.fields := by
  simp [edits, List.filterMap_map, Function.comp_def, Edit.field?]

theorem filterMap_literal?_edits (i : Instruction) :
    i.edits.filterMap Edit.literal? = i.literals := by
  simp [edits, List.filterMap_map, Function.comp_def, Edit.literal?]

theorem filterMap_ignored?_edits (i : Instruction) :
    i.edits.filterMap Edit.ignored? = i.ignored := by
  simp [edits, List.filterMap_map, Function.comp_def, Edit.ignored?]

variable {i : Instruction}

theorem map_edit?_operands (h : ∀ l ∈ i.literals, l.value.toNat < 2 ^ l.range.width) :
    i.operands.map Operand.edit? = i.edits.map some := by
  have hliterals : (i.literals.map Operand.fix).map Operand.edit? =
      (i.literals.map fun l => Edit.literal l.range l.value.toNat).map some := by
    rw [List.map_map, List.map_map]
    exact List.map_congr_left fun l hl => Operand.edit?_fix (h l hl)
  have hfields : (i.fields.map Field.name).map Operand.edit? = (i.fields.map .field).map some := by
    rw [List.map_map, List.map_map]
    exact List.map_congr_left fun f _ => Operand.edit?_name f
  have hignored : (i.ignored.map Operand.free).map Operand.edit? =
      (i.ignored.map .ignore).map some := by
    rw [List.map_map, List.map_map]
    exact List.map_congr_left fun r _ => Operand.edit?_free r
  rw [operands, edits, List.map_append, List.map_append, List.map_append, List.map_append, hfields,
    hliterals, hignored]

theorem isWord_of_mem_operands {s : String} (h : s ∈ i.operands) : Token.IsWord s := by
  simp only [operands, List.mem_append, List.mem_map] at h
  rcases h with (⟨f, -, rfl⟩ | ⟨l, -, rfl⟩) | ⟨r, -, rfl⟩
  · exact Operand.isWord_name f
  · exact Operand.isWord_fix l
  · exact Operand.isWord_free r

theorem words_line (h : Token.IsWord i.mnemonic) :
    Token.words i.line = i.mnemonic :: i.operands := by
  refine Token.words_intercalate ?_
  rw [List.forall_mem_cons]
  exact ⟨h, fun s => isWord_of_mem_operands⟩

end Instruction

namespace Definition

variable {d e : Definition}

theorem exists_ofLine?_of_words {text mnemonic : String} {operands : List String}
    (h : Token.words text = mnemonic :: operands) (number : Nat) :
    ∃ d, ofLine? number text = some d ∧ d.mnemonic.text = mnemonic ∧
      d.operands.map Token.text = operands := by
  rw [← Token.map_text_scan number] at h
  obtain ⟨t, ts, hscan, hmnemonic, hoperands⟩ := List.map_eq_cons_iff.1 h
  exact ⟨⟨t, ts⟩, ofLine?_eq_some_iff.2 hscan, hmnemonic, hoperands⟩

theorem isWord_mnemonic {number : Nat} {text : String} (h : ofLine? number text = some d) :
    Token.IsWord d.mnemonic.text :=
  Token.isWord_of_mem_scan (mnemonic_mem_scan h)

theorem map_edit?_eq_iff {es : List Edit} :
    (d.operands.map Token.text).map Operand.edit? = es.map some ↔
      d.edits = es ∧ ∀ t ∈ d.operands, ∃ o, Operand.ofText t.text = .ok o := by
  rw [map_eq_map_some_iff, List.forall_mem_map, edits, Edit.ofTokens_eq]
  simp only [Operand.isSome_edit?_iff]

theorem Readable.of_sameEntries (hd : d.Readable) (h : Edit.SameEntries d.edits e.edits)
    (he : ∀ t ∈ e.operands, ∃ o, Operand.ofText t.text = .ok o) : e.Readable where
  operands_ne_nil := by
    -- Every operand makes one edit, so neither line has more operands than the other.
    have hlength := h.ranges_perm.length_eq
    have hdlength := congrArg List.length (map_edit?_eq_iff.2 ⟨rfl, hd.understood⟩)
    have helength := congrArg List.length (map_edit?_eq_iff.2 ⟨rfl, he⟩)
    simp only [List.length_map] at hlength hdlength helength
    rw [← List.length_pos_iff, helength, hlength, ← hdlength, List.length_pos_iff]
    exact hd.operands_ne_nil
  understood := he
  disjoint := (h.ranges_perm.pairwise_iff BitRange.Disjoint.symm).2 hd.disjoint

theorem sameEntries_instruction (d : Definition) (path : String) :
    Edit.SameEntries d.edits (d.instruction path).edits where
  fields := (d.instruction path).filterMap_field?_edits.symm
  literals := (d.instruction path).filterMap_literal?_edits.symm
  ignored := (d.instruction path).filterMap_ignored?_edits.symm

theorem instruction_eq_of_sameEntries (hmnemonic : d.mnemonic.text = e.mnemonic.text)
    (h : Edit.SameEntries d.edits e.edits) (path path' : String) :
    e.instruction path' = { d.instruction path with span := some (e.mnemonic.span path') } := by
  have hliterals : d.literals = e.literals := h.literals
  rw [instruction, instruction, encoding, encoding, isPseudo_congr hmnemonic, name_congr hmnemonic,
    h.fields, hliterals, h.ignored]

end Definition

namespace Draft

variable {path path' text text' : String} {number number' : Nat} {d e : Definition}

theorem ofLine_eq_some_iff {draft : Draft} :
    ofLine path number text = .ok (some draft) ↔
      ∃ d, Definition.ofLine? number text = some d ∧ d.Readable ∧
        draft = (ofMnemonic path d.mnemonic).extend d.edits := by
  cases hd : Definition.ofLine? number text with
  | none =>
    rw [ofLine, Definition.ofLine?_eq_none_iff.1 hd]
    simp [ofTokens]
  | some d =>
    rw [ofLine_eq_ok_iff hd]
    simp

theorem extend_eq_of_sameEntries (hmnemonic : d.mnemonic.text = e.mnemonic.text)
    (h : Edit.SameEntries d.edits e.edits) (path path' : String) :
    (ofMnemonic path' e.mnemonic).extend e.edits =
      { (ofMnemonic path d.mnemonic).extend d.edits with
        span := some (e.mnemonic.span path') } := by
  have hinstruction := Definition.instruction_eq_of_sameEntries hmnemonic h path path'
  rw [← toInstruction_extend, ← toInstruction_extend path] at hinstruction
  have hcoverage : ((ofMnemonic path' e.mnemonic).extend e.edits).coverage =
      ((ofMnemonic path d.mnemonic).extend d.edits).coverage := by
    rw [coverage_extend, coverage_extend, Definition.ranges, Definition.ranges,
      BitRange.cover_perm h.ranges_perm]
  generalize (ofMnemonic path' e.mnemonic).extend e.edits = x,
    (ofMnemonic path d.mnemonic).extend d.edits = y at hinstruction hcoverage ⊢
  cases x
  cases y
  cases hinstruction
  cases hcoverage
  rfl

theorem ofLine_of_sameEntries (hd : d.Readable) {operands : List String} {es : List Edit}
    (hwords : Token.words text' = d.mnemonic.text :: operands)
    (hedits : operands.map Operand.edit? = es.map some) (h : Edit.SameEntries d.edits es)
    (path path' : String) (number' : Nat) :
    ∃ s, ofLine path' number' text' =
      .ok (some { (ofMnemonic path d.mnemonic).extend d.edits with span := s }) := by
  obtain ⟨e, he, hmnemonic, rfl⟩ := Definition.exists_ofLine?_of_words hwords number'
  obtain ⟨rfl, hunderstood⟩ := Definition.map_edit?_eq_iff.1 hedits
  refine ⟨some (e.mnemonic.span path'), ofLine_eq_some_iff.2 ⟨e, he, ?_, ?_⟩⟩
  · exact hd.of_sameEntries h hunderstood
  · exact (extend_eq_of_sameEntries hmnemonic.symm h path path').symm

/-- What a line defines can be written back, and the canonical line defines it again, in another
place. The same is defined when names of fields and their ranges are assigned to in place of each
other. -/
theorem ofLine_canonical {draft : Draft} (h : ofLine path number text = .ok (some draft))
    (path' : String) (number' : Nat) :
    (∃ s, ofLine path' number' draft.toInstruction.line = .ok (some { draft with span := s })) ∧
      ∀ text' mnemonic operands operands',
        Token.words text = mnemonic :: operands → Token.words text' = mnemonic :: operands' →
          List.Forall₂ Operand.Renamed operands operands' →
            ∃ s, ofLine path' number' text' = .ok (some { draft with span := s }) := by
  obtain ⟨d, hline, hreadable, rfl⟩ := ofLine_eq_some_iff.1 h
  constructor
  · have hmnemonic : (d.instruction path).mnemonic = d.mnemonic.text := d.mnemonic_text_eq.symm
    have hwords := Instruction.words_line (hmnemonic ▸ Definition.isWord_mnemonic hline)
    rw [hmnemonic] at hwords
    rw [congrArg Instruction.line (toInstruction_extend path d)]
    exact ofLine_of_sameEntries hreadable hwords
      (Instruction.map_edit?_operands fun _ => Definition.toNat_lt_of_mem_literals)
      (d.sameEntries_instruction path) path path' number'
  · intro text' mnemonic operands operands' htext htext' hrenamed
    obtain ⟨d', hline', rfl, rfl⟩ := Definition.exists_ofLine?_of_words htext number
    obtain rfl := Option.some.inj (hline.symm.trans hline')
    have hsame : (d.operands.map Token.text).map Operand.edit? = operands'.map Operand.edit? :=
      map_eq_map_of_forall₂ hrenamed fun _ _ => Operand.Renamed.edit?_eq
    have hedits := Definition.map_edit?_eq_iff.2 ⟨rfl, hreadable.understood⟩
    exact ofLine_of_sameEntries hreadable htext' (hsame.symm.trans hedits) (.refl _) path path'
      number'

def marked : String := "\t@@x 6..0=0x1_3 rd 20=ignore ca=0b1#"

def markedDraft : Draft where
  name := "@x"
  isPseudo := true
  span := some ⟨"", ⟨1, 2⟩, ⟨1, 5⟩⟩
  encoding := ⟨0x01000013, 0x0100007F⟩
  fields := [.rd]
  literals := [⟨Field.opcode.range, 0x13⟩, ⟨Field.ca.range, 1⟩]
  ignored := [Field.cd.range]
  coverage := ⟨0x01100FFF⟩

theorem ofLine_canonical_marked :
    markedDraft.toInstruction.line = "@@x rd 6..0=19 24=1 20=ignore" ∧
      (∃ s, ofLine "" 2 markedDraft.toInstruction.line =
        .ok (some { markedDraft with span := s })) ∧
      ∃ s, ofLine "" 3 "@@x 6..0=0x1_3 rd 20=ignore 24=0b1" =
        .ok (some { markedDraft with span := s }) := by
  have hmarked : ofLine "" 1 marked = .ok (some markedDraft) := by decide +kernel
  have hrenamed : Operand.Renamed "ca=0b1" "24=0b1" := by
    have hname : "ca=0b1" = Field.ca.name ++ "=" ++ "0b1" := by decide
    have hrange : "24=0b1" = Field.ca.range.text ++ "=" ++ "0b1" := by decide
    rw [hname, hrange]
    exact .toRange .ca "0b1"
  refine ⟨by decide +kernel, (ofLine_canonical hmarked "" 2).1, ?_⟩
  exact (ofLine_canonical hmarked "" 3).2 _ "@@x" ["6..0=0x1_3", "rd", "20=ignore", "ca=0b1"]
    ["6..0=0x1_3", "rd", "20=ignore", "24=0b1"] (by decide +kernel) (by decide +kernel)
    (.cons (.refl _) (.cons (.refl _) (.cons (.refl _) (.cons hrenamed .nil))))

end Draft

end OpcodeTable
