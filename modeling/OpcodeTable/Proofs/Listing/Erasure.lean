import Mathlib.Data.List.Nodup
import OpcodeTable.Proofs.Listing.Definitions
import OpcodeTable.Proofs.Listing.Modes
import OpcodeTable.Proofs.Listing.Repair
import OpcodeTable.Proofs.Table.Without

/-!
Leaving out a pseudo instruction. Two runs, with and without the definitions of a name that only
pseudo instructions go by, stay in step: at every definition the tables differ in the records of
that name and in nothing else, so the others are taken or turned away alike.
-/

namespace OpcodeTable

namespace Table

variable {name path : String} {t u : Table} {d : Definition}

theorem Without.take (h : Without name t u) (hd : d.name ≠ name) :
    Except.Rel Eq (Without name) (t.take path d) (u.take path d) := by
  refine (Except.Rel.self (d.draft path)).bind ?_
  rintro draft _ ⟨rfl, hdraft⟩
  have hname : draft.name = d.name :=
    congrArg Instruction.name (Definition.toInstruction_of_draft hdraft)
  exact enter_rel (h.define (hname.trans_ne hd)) fun _ => rfl

theorem Without.take_pseudo (h : Without name t u) (hname : d.name = name)
    (hd : d.isPseudo = true) {t' : Table} (htake : t.take path d = .ok t') : Without name t' u := by
  obtain ⟨f, hrec⟩ := records_of_take htake
  exact h.concat hrec hname hd

end Table

namespace Listing

variable {name path : String} {t u : Table}

theorem takeAll_filter (h : Table.Without name t u) {ds : List Definition}
    (hds : ∀ d ∈ ds, d.name = name → d.isPseudo = true) :
    Table.Without name (takeAll path t ds).1
        (takeAll path u (ds.filter fun d => d.name ≠ name)).1 ∧
      (takeAll path u (ds.filter fun d => d.name ≠ name)).2 =
        (takeAll path t ds).2.filter fun r => r.instruction ≠ name := by
  induction ds generalizing t u with
  | nil => exact ⟨h, rfl⟩
  | cons d ds ih =>
    rw [List.forall_mem_cons] at hds
    obtain ⟨hd, hds⟩ := hds
    by_cases hname : d.name = name
    -- Only one run meets this definition. Taken or not, it does not part the tables.
    · rw [List.filter_cons_of_neg (by simpa using hname)]
      cases htake : t.take path d with
      | ok t' =>
        rw [takeAll_cons_of_ok htake]
        exact ih (h.take_pseudo hname (hd hname) htake) hds
      | error r =>
        have hr : r.instruction = name := (Table.instruction_of_take htake).trans hname
        obtain ⟨htable, hrejections⟩ := ih h hds
        rw [takeAll_cons_of_error htake, List.filter_cons_of_neg (by simpa using hr)]
        exact ⟨htable, hrejections⟩
    · rw [List.filter_cons_of_pos (by simpa using hname)]
      have hstep : Except.Rel Eq (Table.Without name) (t.take path d) (u.take path d) :=
        h.take hname
      obtain ⟨r, r', htake, htake', rfl⟩ | ⟨t', u', htake, htake', h'⟩ := hstep.error_or_ok
      · have hr : r.instruction ≠ name := fun hr =>
          hname ((Table.instruction_of_take htake).symm.trans hr)
        obtain ⟨htable, hrejections⟩ := ih h hds
        rw [takeAll_cons_of_error htake, takeAll_cons_of_error htake',
          List.filter_cons_of_pos (by simpa using hr)]
        exact ⟨htable, congrArg (r :: ·) hrejections⟩
      · rw [takeAll_cons_of_ok htake, takeAll_cons_of_ok htake']
        exact ih h' hds

theorem reports_of_lines {bytes : List UInt8} {lines : List String}
    (h : Text.lines bytes = encode lines) :
    reports (read .collectAll path bytes) =
      (run path 1 .empty lines).2.map Rejection.diagnostic := by
  rw [read_of_lines h]
  cases run path 1 .empty lines with
  | mk t rs => cases rs <;> rfl

theorem exists_read_iff_reports_eq_nil {bytes : List UInt8} {lines : List String}
    (h : Text.lines bytes = encode lines) :
    (∃ c, read .collectAll path bytes = .ok c) ↔ reports (read .collectAll path bytes) = [] := by
  rw [reports_of_lines h, read_of_lines h]
  cases run path 1 .empty lines with
  | mk t rs => cases rs <;> simp

section Pseudo

variable {text : String} {d : Definition}

theorem eq_of_line_eq {e : Definition} (hd : d ∈ definitions text) (he : e ∈ definitions text)
    (hline : e.mnemonic.line = d.mnemonic.line) : e = d := by
  have hinj : ((definitions text).map fun d => d.mnemonic.line).Nodup :=
    List.pairwise_map.2 ((pairwise_line_definitionsFrom 1 _).imp Nat.ne_of_lt)
  exact List.inj_on_of_nodup_map hinj he hd hline

def NamedOnce (text : String) (d : Definition) : Prop :=
  ∀ e ∈ definitions text, e.name = d.name → e.mnemonic.line = d.mnemonic.line

theorem NamedOnce.name_eq_iff (h : NamedOnce text d) (hd : d ∈ definitions text) {e : Definition}
    (he : e ∈ definitions text) : e.name = d.name ↔ e.mnemonic.line = d.mnemonic.line :=
  ⟨h e he, fun hline => congrArg Definition.name (eq_of_line_eq hd he hline)⟩

theorem NamedOnce.run_replaceLines (h : NamedOnce text d) (hd : d ∈ definitions text) :
    run path 1 .empty (replaceLines "" [d.mnemonic.line] 1 (Text.linesOf text)) =
      takeAll path .empty ((definitions text).filter fun e => e.name ≠ d.name) := by
  rw [run_eq_takeAll, definitionsFrom_replaceLines]
  congr 1
  apply List.filter_congr
  intro e he
  simp [h.name_eq_iff hd he]

theorem NamedOnce.diagnostics_filter (h : NamedOnce text d) (hd : d ∈ definitions text)
    (t : Table) :
    ((takeAll path t (definitions text)).2.filter fun r => r.instruction ≠ d.name).map
        Rejection.diagnostic =
      ((takeAll path t (definitions text)).2.map Rejection.diagnostic).filter fun x =>
        x.line? ≠ some d.mnemonic.line := by
  refine (filter_map_eq fun r hr => ?_).symm
  obtain ⟨before, e, after, hdefinitions, htake⟩ := exists_take_of_mem_takeAll hr
  have he : e ∈ definitions text := by simp [hdefinitions]
  obtain ⟨k, line, -, hline⟩ := exists_line_of_mem_definitionsFrom he
  simp [Table.instruction_of_take htake, Table.line?_of_take hline htake, h.name_eq_iff hd he]

/-- A pseudo instruction does not interfere with the other lines. With its line emptied, what is
reported of them stays as it was, and so do their records and the warnings that do not involve it;
and nothing but what is reported keeps the file from being accepted. -/
theorem pseudo_does_not_interfere {bytes : List UInt8} (htext : Text.ofBytes? bytes = some text)
    (hd : d ∈ definitions text) (hpseudo : d.isPseudo = true) (hname : NamedOnce text d) :
    reports (read .collectAll path (Text.emptyLines [d.mnemonic.line] bytes)) =
        (reports (read .collectAll path bytes)).filter (fun x =>
          x.line? ≠ some d.mnemonic.line) ∧
      ((∃ c, read .collectAll path (Text.emptyLines [d.mnemonic.line] bytes) = .ok c) ↔
        reports (read .collectAll path (Text.emptyLines [d.mnemonic.line] bytes)) = []) ∧
      ∀ c, read .collectAll path bytes = .ok c →
        ∃ c', read .collectAll path (Text.emptyLines [d.mnemonic.line] bytes) = .ok c' ∧
          c'.table.records = c.table.records.filter (fun r => r.name ≠ d.name) ∧
          c'.warnings = c.warnings.filter fun x => ¬ x.Involves d.name := by
  have hlines := lines_emptyLines_of_text htext [d.mnemonic.line]
  have hall : ∀ e ∈ definitions text, e.name = d.name → e.isPseudo = true := by
    intro e he hename
    rw [eq_of_line_eq hd he (hname e he hename)]
    exact hpseudo
  obtain ⟨htable, hrejections⟩ := @takeAll_filter d.name path _ _ (.empty d.name) _ hall
  refine ⟨?_, exists_read_iff_reports_eq_nil hlines, ?_⟩
  · rw [reports_of_lines hlines, reports_of_lines (lines_of_text htext), run_linesOf,
      hname.run_replaceLines hd, hrejections, hname.diagnostics_filter hd]
  · intro c hc
    obtain ⟨hok, hwarnings⟩ := (read_eq_ok_iff_run htext).1 hc
    rw [run_linesOf] at hok
    rw [hok] at htable hrejections
    have hedited := @NamedOnce.run_replaceLines path text d hname hd
    rw [← Prod.eta (takeAll path .empty _), hrejections] at hedited
    exact ⟨_, read_of_run_eq_nil hlines hedited .collectAll, htable.records_eq,
      hwarnings ▸ htable.warnings_eq⟩

end Pseudo

def aliases : String := "@a 31..0=ignore\n@p 31..0=1\nb 31..0=1\n@q 31..0=1\n"

def brokenAlias : String := "b 31..0=1\n@p 31..1=0\nc 31..0=1"

theorem pseudo_does_not_interfere_aliases :
    (∃ c c', read .collectAll "" (Text.toBytes aliases.toList) = .ok c ∧
      read .collectAll "" (Text.emptyLines [2] (Text.toBytes aliases.toList)) = .ok c' ∧
      c.warnings.length = 3 ∧ c'.warnings.length = 1 ∧ c'.table.names = ["a", "b", "q"]) ∧
    (reports (read .collectAll "" (Text.toBytes brokenAlias.toList))).map Diagnostic.line? =
        [some 2, some 3] ∧
      (reports (read .collectAll "" (Text.emptyLines [2] (Text.toBytes brokenAlias.toList)))).map
        Diagnostic.line? = [some 3] := by
  constructor
  · have hd : (⟨⟨"@p", 2, 1⟩, [⟨"31..0=1", 2, 4⟩]⟩ : Definition) ∈ definitions aliases := by
      decide +kernel
    obtain ⟨c, hc, hrec⟩ := @exists_read .collectAll "" aliases _ (ofBytes?_toBytes aliases)
      (by decide +kernel)
    obtain ⟨-, -, hedited⟩ := @pseudo_does_not_interfere "" aliases _ _ (ofBytes?_toBytes aliases)
      hd rfl (by unfold NamedOnce; decide +kernel)
    obtain ⟨c', hc', hrec', hwarnings'⟩ := hedited c hc
    have hwarnings : c.warnings = c.table.warnings :=
      ((read_eq_ok_iff_run (ofBytes?_toBytes aliases)).1 hc).2
    refine ⟨c, c', hc, hc', ?_, ?_, ?_⟩
    · rw [hwarnings, Table.warnings_eq, Table.pseudoOverlaps, Table.pseudo, hrec]
      decide +kernel
    · rw [hwarnings', hwarnings, Table.warnings_eq, Table.pseudoOverlaps, Table.pseudo, hrec]
      decide +kernel
    · rw [Table.names, hrec', hrec]
      decide +kernel
  · have hd : (⟨⟨"@p", 2, 1⟩, [⟨"31..1=0", 2, 4⟩]⟩ : Definition) ∈ definitions brokenAlias := by
      decide +kernel
    have hreports : (reports (read .collectAll "" (Text.toBytes brokenAlias.toList))).map
        Diagnostic.line? = [some 2, some 3] := by
      decide +kernel
    obtain ⟨hedited, -, -⟩ := @pseudo_does_not_interfere "" brokenAlias _ _
      (ofBytes?_toBytes brokenAlias) hd rfl (by unfold NamedOnce; decide +kernel)
    refine ⟨hreports, ?_⟩
    have hfilter (ds : List Diagnostic) : (ds.filter fun x => x.line? ≠ some 2).map
        Diagnostic.line? = (ds.map Diagnostic.line?).filter (· ≠ some 2) :=
      (filter_map_eq (p := fun k => decide (k ≠ some 2)) fun _ _ => rfl).symm
    rw [hedited, hfilter, hreports]
    rfl

end Listing

end OpcodeTable
