import OpcodeTable.Proofs.Definition.Sound
import OpcodeTable.Proofs.Token.Words

namespace OpcodeTable

theorem Word.union_perm {vs ws : List Word} (h : vs.Perm ws) : Word.union vs = Word.union ws := by
  apply Word.ext_bits
  intro i
  rw [Word.getLsbD_union, Word.getLsbD_union]
  exact h.any_eq

theorem Encoding.ofLiterals_perm {ls ms : List Literal} (h : ls.Perm ms) :
    Encoding.ofLiterals ls = Encoding.ofLiterals ms := by
  rw [ofLiterals, ofLiterals, Word.union_perm (h.map _), BitRange.cover_perm (h.map _)]

/-- The records say the same, but may list it in another order and stand in another place. -/
structure Record.Reordered (r s : Record) : Prop where
  name_eq : r.name = s.name
  isPseudo_eq : r.isPseudo = s.isPseudo
  encoding_eq : r.encoding = s.encoding
  format_eq : r.format = s.format
  fields_perm : r.fields.Perm s.fields
  literals_perm : r.literals.Perm s.literals
  ignored_perm : r.ignored.Perm s.ignored

theorem Edit.ofTokens_perm {ts us : List Token}
    (h : (ts.map Token.text).Perm (us.map Token.text)) :
    (Edit.ofTokens ts).Perm (Edit.ofTokens us) := by
  rw [ofTokens_eq, ofTokens_eq]
  exact h.filterMap _

namespace Definition

structure Reordered (d e : Definition) : Prop where
  mnemonic : d.mnemonic.text = e.mnemonic.text
  operands : (d.operands.map Token.text).Perm (e.operands.map Token.text)

namespace Reordered

variable {d e : Definition}

theorem isPseudo_eq (h : d.Reordered e) : d.isPseudo = e.isPseudo := isPseudo_congr h.mnemonic

theorem name_eq (h : d.Reordered e) : d.name = e.name := name_congr h.mnemonic

theorem edits_perm (h : d.Reordered e) : d.edits.Perm e.edits := Edit.ofTokens_perm h.operands

theorem ranges_perm (h : d.Reordered e) : d.ranges.Perm e.ranges := h.edits_perm.map _

theorem literals_perm (h : d.Reordered e) : d.literals.Perm e.literals := h.edits_perm.filterMap _

theorem encoding_eq (h : d.Reordered e) : d.encoding = e.encoding :=
  Encoding.ofLiterals_perm h.literals_perm

theorem cover_eq (h : d.Reordered e) : BitRange.cover d.ranges = BitRange.cover e.ranges :=
  BitRange.cover_perm h.ranges_perm

theorem record (h : d.Reordered e) (path : String) : (d.record path).Reordered (e.record path) where
  name_eq := h.name_eq
  isPseudo_eq := h.isPseudo_eq
  encoding_eq := h.encoding_eq
  format_eq := by
    change d.format = e.format
    rw [format, format, h.cover_eq]
  fields_perm := h.edits_perm.filterMap _
  literals_perm := h.literals_perm
  ignored_perm := h.edits_perm.filterMap _

theorem understood (h : d.Reordered e)
    (hd : ∀ t ∈ d.operands, ∃ o, Operand.ofText t.text = .ok o) :
    ∀ t ∈ e.operands, ∃ o, Operand.ofText t.text = .ok o := by
  intro t ht
  have hmem := h.operands.mem_iff.2 (List.mem_map_of_mem ht)
  obtain ⟨u, hu, htext⟩ := List.mem_map.1 hmem
  rw [← htext]
  exact hd u hu

theorem tiles (h : d.Reordered e) (hd : d.Tiles) : e.Tiles where
  operands_ne_nil := by
    intro hnil
    have hperm := h.operands
    rw [hnil, List.map_nil, List.perm_nil, List.map_eq_nil_iff] at hperm
    exact hd.operands_ne_nil hperm
  understood := h.understood hd.understood
  disjoint := (h.ranges_perm.pairwise_iff BitRange.Disjoint.symm).1 hd.disjoint
  whole := h.cover_eq ▸ hd.whole

end Reordered

end Definition

end OpcodeTable
