import OpcodeTable.Proofs.Listing.Overlap
import OpcodeTable.Proofs.Table.Without

namespace OpcodeTable

namespace Definition

variable {path : String} {a b a' b' : Definition}

def overlapWarning (path : String) (earlier later : Definition) : Diagnostic :=
  .pseudoOverlap (some later.name)
    ("pseudo instruction overlaps pseudo instruction " ++ earlier.name)
    (some (later.mnemonic.span path))

theorem names_eq_of_overlapWarning_eq
    (h : overlapWarning path a b = overlapWarning path a' b') :
    a.name = a'.name ∧ b.name = b'.name := by
  have hmessage : "pseudo instruction overlaps pseudo instruction " ++ a.name =
      "pseudo instruction overlaps pseudo instruction " ++ a'.name :=
    congrArg Diagnostic.message h
  have hinstruction : some b.name = some b'.name := congrArg Diagnostic.instruction h
  exact ⟨(String.append_right_inj _).1 hmessage, Option.some.inj hinstruction⟩

end Definition

namespace Listing

variable {mode : ErrorMode} {path text : String} {t : Table} {d : Definition}
  {ds : List Definition} {pairs : List (Definition × Definition)}

def pseudoPairs (ds : List Definition) : List (Definition × Definition) :=
  pairsWhere (fun a b => a.encoding.overlaps b.encoding) (ds.filter Definition.isPseudo)

theorem listsPairs_pseudoPairs (h : ds.Nodup) :
    ListsPairs
      (fun a b => a.isPseudo = true ∧ b.isPseudo = true ∧ a.encoding.Meets b.encoding)
      ds (pseudoPairs ds) := by
  apply listsPairs_pairsWhere h
  intro a _ b _
  rw [Encoding.overlaps_iff_meets a.value_mem_encoding b.value_mem_encoding]

theorem warnings_of_records (h : t.records = ds.map (Definition.record path)) :
    t.warnings = (pseudoPairs ds).map fun p => Definition.overlapWarning path p.1 p.2 := by
  have hpseudo : t.pseudo = (ds.filter Definition.isPseudo).map (Definition.record path) := by
    rw [Table.pseudo, h]
    exact filter_map_eq fun _ _ => rfl
  rw [Table.warnings_eq, Table.pseudoOverlaps, hpseudo, overlapping_eq_pairsWhere, pairsWhere_map,
    List.map_map]
  rfl

theorem nodup_map_overlapWarning {p : Definition → Definition → Prop}
    (hnames : (ds.map Definition.name).Nodup) (h : ListsPairs p ds pairs) :
    (pairs.map fun p => Definition.overlapWarning path p.1 p.2).Nodup := by
  refine List.Nodup.map_on ?_ h.nodup
  rintro ⟨a, b⟩ hab ⟨a', b'⟩ hab' heq
  obtain ⟨ha, hb⟩ := Definition.names_eq_of_overlapWarning_eq heq
  have hbefore := ((h.mem_iff a b).1 hab).1
  have hbefore' := ((h.mem_iff a' b').1 hab').1
  rw [List.inj_on_of_nodup_map hnames hbefore.mem_left hbefore'.mem_left ha,
    List.inj_on_of_nodup_map hnames hbefore.mem_right hbefore'.mem_right hb]

theorem exists_marked_line (h : d ∈ definitions text) (path : String) :
    ∃ k line, (Text.linesOf text)[k]? = some line ∧
      Token.scan (k + 1) line = d.mnemonic :: d.operands ∧
      (d.mnemonic.span path).start.line = k + 1 ∧
      (d.mnemonic.span path).Marks line d.mnemonic.text := by
  obtain ⟨k, line, hline, hd⟩ := exists_line_of_mem_definitionsFrom h
  rw [Nat.add_comm] at hd
  exact ⟨k, line, hline, Definition.ofLine?_eq_some_iff.1 hd, Definition.line_of_ofLine? hd,
    Token.marks_span (Definition.mnemonic_mem_scan hd) path⟩

/-- An accepted listing has exactly one warning for each pair of pseudo definitions that match a
word in common, ordered by the earlier and then by the later of the two. It names both and marks the
mnemonic of the later one, and none is about a real definition. -/
theorem warnings_exact {bytes : List UInt8} {c : Compilation} (h : read mode path bytes = .ok c) :
    ∃ text pairs, Text.ofBytes? bytes = some text ∧
      ListsPairs
        (fun a b => a.isPseudo = true ∧ b.isPseudo = true ∧ ∃ w, w ∈ a.encoding ∧ w ∈ b.encoding)
        (definitions text) pairs ∧
      c.warnings = pairs.map (fun p => Definition.overlapWarning path p.1 p.2) ∧
      c.warnings.Nodup ∧
      (∀ p ∈ pairs, ∃ k line, (Text.linesOf text)[k]? = some line ∧
        Token.scan (k + 1) line = p.2.mnemonic :: p.2.operands ∧
        (p.2.mnemonic.span path).start.line = k + 1 ∧
        (p.2.mnemonic.span path).Marks line p.2.mnemonic.text) ∧
      ∀ d ∈ definitions text, d.isPseudo = false → ∀ x ∈ c.warnings, ¬ x.Involves d.name := by
  obtain ⟨text, htext, hwf, hrec, hwarnings⟩ := read_eq_ok_iff.1 h
  have hnames := hwf.names_nodup
  have hpairs := listsPairs_pseudoPairs (.of_map _ hnames)
  rw [warnings_of_records hrec] at hwarnings
  refine ⟨text, pseudoPairs (definitions text), htext, hpairs, hwarnings, ?_, ?_, ?_⟩
  · rw [hwarnings]
    exact nodup_map_overlapWarning hnames hpairs
  · rintro ⟨a, b⟩ hab
    exact exists_marked_line ((hpairs.mem_iff a b).1 hab).1.mem_right path
  · intro d hd hreal x hx hinvolves
    rw [hwarnings, List.mem_map] at hx
    obtain ⟨⟨a, b⟩, hab, rfl⟩ := hx
    obtain ⟨hbefore, ha, hb, -⟩ := (hpairs.mem_iff a b).1 hab
    cases Diagnostic.involves_pseudoOverlap_iff.1 hinvolves with
    | inl hname =>
      rw [List.inj_on_of_nodup_map hnames hbefore.mem_right hd hname, hreal] at hb
      cases hb
    | inr hname =>
      rw [List.inj_on_of_nodup_map hnames hbefore.mem_left hd hname, hreal] at ha
      cases ha

def shadowed : String := "@a 15..0=ignore\nb 15..0=1\n @p 15..0=1\n"

theorem warnings_exact_shadowed :
    ∃ c x, read .failFast "" (Text.toBytes shadowed.toList) = .ok c ∧ x ∈ c.warnings ∧
      x.instruction = some "p" ∧ x.message = "pseudo instruction overlaps pseudo instruction a" ∧
      x.span = some ⟨"", ⟨3, 2⟩, ⟨3, 4⟩⟩ ∧ ∀ y ∈ c.warnings, ¬ y.Involves "b" := by
  obtain ⟨c, hc, -⟩ := @exists_read .failFast "" shadowed _ (ofBytes?_toBytes shadowed)
    (by decide +kernel)
  obtain ⟨text, pairs, htext, hpairs, hwarnings, -, -, hreal⟩ := warnings_exact hc
  obtain rfl : shadowed = text := Option.some.inj ((ofBytes?_toBytes shadowed).symm.trans htext)
  have hdefinitions : definitions shadowed =
      [⟨⟨"@a", 1, 1⟩, [⟨"15..0=ignore", 1, 4⟩]⟩, ⟨⟨"b", 2, 1⟩, [⟨"15..0=1", 2, 3⟩]⟩,
        ⟨⟨"@p", 3, 2⟩, [⟨"15..0=1", 3, 5⟩]⟩] := by
    decide +kernel
  rw [hdefinitions] at hpairs hreal
  have hpair := (hpairs.mem_iff _ _).2
    ⟨⟨0, 2, by decide, rfl, rfl⟩, rfl, rfl, 1, by decide +kernel, by decide +kernel⟩
  have hx := List.mem_map_of_mem (f := fun p => Definition.overlapWarning "" p.1 p.2) hpair
  rw [← hwarnings] at hx
  exact ⟨c, _, hc, hx, rfl, rfl, rfl, hreal _ (List.mem_cons_of_mem _ List.mem_cons_self) rfl⟩

end Listing

end OpcodeTable
