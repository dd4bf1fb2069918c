import Mathlib.Data.List.Nodup
import OpcodeTable.Proofs.Listing.Renderers
import OpcodeTable.Proofs.Record.Identifiers

namespace OpcodeTable.Listing

open Artifact Text

theorem nodup_entries_iff {α : Type} {rs : List Record} {call : Record → String}
    {alike : String → String → Prop} {content : Record → α}
    (hcall : ∀ r s : Record, call r = call s ↔ alike r.name s.name) :
    ((rs.map fun r => some (call r, content r)).map (Option.map Prod.fst)).Nodup ↔
      (rs.map fun r => r.name).Pairwise fun m n => ¬ alike m n := by
  rw [List.map_map, List.Nodup, List.pairwise_map, List.pairwise_map]
  simp [hcall]

/-- An artifact calls two records the same exactly when their names agree in all that it writes.
Thus the header defines no match and no mask twice, and the patterns no name, as long as no two
names are the same in a macro; and no case of the switch comes twice as long as no two names have
the same letters. -/
theorem generated_names {mode : ErrorMode} {path : String} {bytes : List UInt8} {c : Compilation}
    (h : read mode path bytes = .ok c) :
    (∀ r ∈ c.table.records, ∀ s ∈ c.table.records, r ≠ s →
        r.name ≠ s.name ∧ (r.macroName = s.macroName ↔ MacroAlike r.name s.name) ∧
          (r.label = s.label ↔ LabelAlike r.name s.name)) ∧
      (∀ text, header.render c.table = .ok text →
        ∀ mark ∈ [Header.matchMark, Header.maskMark],
          (((Header.entries mark text).map (Option.map Prod.fst)).Nodup ↔
            c.table.names.Pairwise fun m n => ¬ MacroAlike m n)) ∧
      (∀ text, bitPatterns.render c.table = .ok text →
        (((BitPatterns.entries text).map (Option.map Prod.fst)).Nodup ↔
          c.table.names.Pairwise fun m n => ¬ MacroAlike m n)) ∧
      ∀ text, selectorSwitch.render c.table = .ok text →
        (((SelectorSwitch.entries text).map (Option.map Prod.fst)).Nodup ↔
          c.table.names.Pairwise fun m n => ¬ LabelAlike m n) := by
  have hnames := unbroken_name_of_read h
  have hmacro (r s : Record) : r.macroName = s.macroName ↔ MacroAlike r.name s.name :=
    Instruction.macroName_eq_iff
  have hlabel (r s : Record) : r.label = s.label ↔ LabelAlike r.name s.name :=
    Instruction.label_eq_iff
  refine ⟨fun r hr s hs hrs => ⟨?_, hmacro r s, hlabel r s⟩, ?_, ?_, ?_⟩
  · exact fun hname => hrs (List.inj_on_of_nodup_map c.table.names_nodup hr hs hname)
  · intro text htext
    obtain ⟨hmatch, hmask⟩ := Header.entries_render hnames htext
    rw [List.forall_mem_cons, List.forall_mem_singleton, hmatch, hmask]
    exact ⟨nodup_entries_iff hmacro, nodup_entries_iff hmacro⟩
  · intro text htext
    rw [BitPatterns.entries_render hnames htext]
    exact nodup_entries_iff hmacro
  · intro text htext
    rw [SelectorSwitch.entries_render hnames htext]
    exact nodup_entries_iff hlabel

theorem exists_ne_of_not_nodup_map {α β : Type} {f : α → β} {xs : List α} (hxs : xs.Nodup)
    (h : ¬ (xs.map f).Nodup) : ∃ x ∈ xs, ∃ y ∈ xs, x ≠ y ∧ f x = f y := by
  by_contra hno
  refine h (hxs.map_on fun x hx y hy hxy => ?_)
  by_contra hne
  exact hno ⟨x, hx, y, hy, hne, hxy⟩

def meeting : String := "xc.a 31..0=1\nxc_a 31..0=2\nxca 31..0=3\n"

theorem generated_names_meet :
    ∃ c, read .failFast "" (toBytes meeting.toList) = .ok c ∧
      (∃ r ∈ c.table.records, ∃ s ∈ c.table.records, r ≠ s ∧ r.macroName = s.macroName) ∧
      (∃ r ∈ c.table.records, ∃ s ∈ c.table.records, r ≠ s ∧ r.label = s.label) ∧
      ∃ text, header.render c.table = .ok text ∧
        Header.entries Header.matchMark text =
          [some ("XC_A", 1), some ("XC_A", 2), some ("XCA", 3)] := by
  obtain ⟨c, hc, hrec⟩ := @exists_read .failFast "" meeting _ (ofBytes?_toBytes meeting)
    (by decide +kernel)
  have hcodes : ∀ r ∈ (definitions meeting).map (Definition.record ""), ∀ f ∈ r.fields,
      f.operandCode.isSome := by
    decide +kernel
  obtain ⟨text, htext⟩ : ∃ text, header.render c.table = .ok text :=
    Header.exists_render (hrec ▸ hcodes)
  have hnodup : c.table.records.Nodup := .of_map _ c.table.names_nodup
  have hmacros : (c.table.records.map fun r => r.macroName) = ["XC_A", "XC_A", "XCA"] := by
    rw [hrec]
    decide +kernel
  have hlabels : (c.table.records.map fun r => r.label) = ["XCA", "XC_A", "XCA"] := by
    rw [hrec]
    decide +kernel
  refine ⟨c, hc, exists_ne_of_not_nodup_map hnodup ?_, exists_ne_of_not_nodup_map hnodup ?_, text,
    htext, ?_⟩
  · rw [hmacros]
    decide
  · rw [hlabels]
    decide
  · rw [(Header.entries_render (unbroken_name_of_read hc) htext).1, hrec]
    decide +kernel

def apart : String := "xc.a 31..0=1\nxc.b 31..0=2\nxcb 31..0=3\n"

theorem generated_names_apart :
    ∃ c text cases, read .failFast "" (toBytes apart.toList) = .ok c ∧
      header.render c.table = .ok text ∧ selectorSwitch.render c.table = .ok cases ∧
      ((Header.entries Header.matchMark text).map (Option.map Prod.fst)).Nodup ∧
      ¬ ((SelectorSwitch.entries cases).map (Option.map Prod.fst)).Nodup := by
  obtain ⟨c, hc, hrec⟩ := @exists_read .failFast "" apart _ (ofBytes?_toBytes apart)
    (by decide +kernel)
  have hcodes : ∀ r ∈ (definitions apart).map (Definition.record ""), ∀ f ∈ r.fields,
      f.operandCode.isSome := by
    decide +kernel
  obtain ⟨text, htext⟩ : ∃ text, header.render c.table = .ok text :=
    Header.exists_render (hrec ▸ hcodes)
  obtain ⟨-, hheader, -, hswitch⟩ := generated_names hc
  refine ⟨c, text, _, hc, htext, rfl, ?_, ?_⟩
  · rw [hheader text htext Header.matchMark List.mem_cons_self, Table.names, hrec]
    decide +kernel
  · rw [hswitch _ rfl, Table.names, hrec]
    decide +kernel

end OpcodeTable.Listing
