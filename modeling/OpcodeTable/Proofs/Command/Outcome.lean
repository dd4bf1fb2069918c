import OpcodeTable.Proofs.Command.Log
import OpcodeTable.Proofs.Listing.Renderers
import OpcodeTable.Proofs.Listing.Reports
import OpcodeTable.Proofs.Listing.Warnings

namespace OpcodeTable

namespace Failure

variable {path : String} {f : Failure}

theorem report_of_eq_nil (h : f.diagnostics = []) : f.report = ["error: " ++ f.message] := by
  rw [report, h]

theorem report_of_ne_nil (h : f.diagnostics ≠ []) :
    f.report = f.diagnostics.map Diagnostic.text := by
  unfold report
  split
  · contradiction
  · rfl

theorem Legible.written_eq (h : f.Legible path) :
    f.written = String.join (f.report.map fun line => line ++ "\n") := by
  cases h <;> rfl

theorem Legible.plain_error (h : f.Legible path) (hnone : f.diagnostics = []) :
    Text.Plain ("error: " ++ f.message) :=
  Text.plain_append.2 ⟨by decide +kernel, h.plain_message hnone⟩

theorem Legible.eq_space_or_mem (h : f.Legible path) {line : String} (hline : line ∈ f.report)
    {c : Char} (hc : c ∈ line.toList) (hblank : Text.isBlank c = true) :
    c = ' ' ∨ c ∈ path.toList := by
  by_cases hnone : f.diagnostics = []
  · rw [report_of_eq_nil hnone, List.mem_singleton] at hline
    subst hline
    exact .inl (h.plain_error hnone c hc hblank)
  · rw [report_of_ne_nil hnone] at hline
    obtain ⟨d, hd, rfl⟩ := List.mem_map.1 hline
    exact (h.plainAround d hd).eq_space_or_mem hc hblank

end Failure

namespace Outcome

/-- The outcome shows the failure after the log and nothing else, with one line for each diagnostic
or one line in all. Whatever is taken for the end of a line, none is in the report but those that
end its lines and those in the path. -/
structure Shows (out : Outcome) (log path : String) (f : Failure) : Prop where
  status : out.status = 1
  stdout : out.stdout = ""
  stderr : out.stderr = log ++ f.written
  diagnostics : f.diagnostics ≠ [] → '\n' ∉ path.toList →
    Text.linesOf f.written = f.diagnostics.map Diagnostic.text
  message : f.diagnostics = [] → Text.linesOf f.written = ["error: " ++ f.message]
  blanks : ∀ c ∈ f.written.toList, Text.isBlank c = true → c = ' ' ∨ c = '\n' ∨ c ∈ path.toList

theorem shows_of_legible {log path : String} {f : Failure} (h : f.Legible path) :
    (ofRun log (.error f)).Shows log path f := by
  constructor
  case status => cases h <;> rfl
  case stdout => rfl
  case stderr => rfl
  case diagnostics =>
    intro hsome hfree
    rw [h.written_eq, ← Failure.report_of_ne_nil hsome]
    apply Text.linesOf_join_of_not_mem
    · intro line hline hmem
      cases h.eq_space_or_mem hline hmem (by decide) with
      | inl hspace => exact absurd hspace (by decide)
      | inr hpath => exact hfree hpath
    · rw [Failure.report_of_ne_nil hsome, List.forall_mem_map]
      exact fun d hd => (h.plainAround d hd).getLast?_ne_return
  case message =>
    intro hnone
    rw [h.written_eq, Failure.report_of_eq_nil hnone]
    apply Text.linesOf_join
    rw [List.forall_mem_singleton]
    exact (h.plain_error hnone).oneLine
  case blanks =>
    intro c hc hblank
    have hfeed : "\n".toList = ['\n'] := by decide
    rw [h.written_eq, String.toList_join, List.mem_flatMap] at hc
    obtain ⟨_, hended, hc⟩ := hc
    obtain ⟨line, hline, rfl⟩ := List.mem_map.1 hended
    rw [String.toList_append, hfeed, List.mem_append, List.mem_singleton] at hc
    cases hc with
    | inl hc =>
      cases h.eq_space_or_mem hline hc hblank with
      | inl hspace => exact .inl hspace
      | inr hpath => exact .inr (.inr hpath)
    | inr hc => exact .inr (.inl hc)

end Outcome

namespace Options

variable {o : Options} {contents : Except String (List UInt8)} {f : Failure}

theorem legible_of_load (hplain : ∀ reason, contents = .error reason → Text.Plain reason)
    (h : o.load contents = .error f) : f.Legible o.sourceName := by
  cases contents with
  | error reason =>
    cases h
    exact .input (hplain reason rfl)
  | ok bytes => exact Listing.legible_of_read h

variable {c : Compilation} (hload : o.load contents = .ok c)

include hload

theorem unbroken_name_of_load : ∀ r ∈ c.table.records, Text.Unbroken r.name := by
  cases contents with
  | error reason => cases hload
  | ok bytes => exact Listing.unbroken_name_of_read hload

theorem legible_of_render (h : o.mode.artifact.render c.table = .error f) :
    f.Legible o.sourceName := by
  by_cases hmode : o.mode = .header
  · rw [hmode] at h
    obtain ⟨r, hr, field, -, -, rfl⟩ := Artifact.Header.render_eq_error h
    have hfield : Text.Plain field.name := by
      cases field <;> decide
    have hname := (unbroken_name_of_load hload r hr).plain
    apply Failure.Legible.artifact
    simp only [Text.plain_append, hname, hfield, true_and, and_true]
    decide +kernel
  · obtain ⟨text, htext⟩ := Mode.exists_render hmode (recheck_of_load hload)
    rw [htext] at h
    cases h

end Options

theorem Mode.flag_of_read {text : String} {m : Mode} (h : read text = .ok m) : m.flag = text := by
  unfold read at h
  split at h
  next m' hfind =>
    cases h
    simpa using List.find?_some hfind
  next => cases h

namespace Host

variable {h : Host} {asked : Option String} {args : List String}

theorem outcome_of_notice {n : Notice} (hparse : h.parse Mode.read args = .error n) :
    h.outcome asked args = if n.isMistake then ⟨2, "", n.text⟩ else ⟨0, n.text, ""⟩ := by
  rw [outcome, hparse]
  cases hmistake : n.isMistake <;>
    simp [Outcome.ofNotice, Outcome.ofRun, hmistake, Failure.exitStatus, Failure.written]

variable {o : Options} (hparse : h.parse Mode.read args = .ok o)

include hparse

theorem outcome_eq_ofRun :
    h.outcome asked args =
      .ofRun (h.logOf asked o)
        ((o.load (h.contents o.source)).bind fun c => o.mode.artifact.render c.table) := by
  have hresult := (o.trace_snd (h.contents o.source)).trans (o.run_withMode o.mode _)
  rw [outcome, hparse, ← hresult]
  rfl

theorem shows_of_load (hdoc : h.Documented) {f : Failure}
    (hload : o.load (h.contents o.source) = .error f) :
    (h.outcome asked args).Shows (h.logOf asked o) o.sourceName f := by
  rw [outcome_eq_ofRun hparse, hload]
  exact Outcome.shows_of_legible
    (Options.legible_of_load (fun reason hreason => hdoc.plain_reason _ reason hreason) hload)

variable {c : Compilation} (hload : o.load (h.contents o.source) = .ok c)

include hload

theorem shows_of_render {f : Failure} (hrender : o.mode.artifact.render c.table = .error f) :
    (h.outcome asked args).Shows (h.logOf asked o) o.sourceName f := by
  rw [outcome_eq_ofRun hparse, hload, Except.bind, hrender]
  exact Outcome.shows_of_legible (Options.legible_of_render hload hrender)

theorem outcome_of_render {text : String} (hrender : o.mode.artifact.render c.table = .ok text) :
    h.outcome asked args = ⟨0, text, h.logOf asked o⟩ := by
  rw [outcome_eq_ofRun hparse, hload, Except.bind, hrender]
  rfl

omit hload

theorem status_outcome_ne_two (hdoc : h.Documented) : (h.outcome asked args).status ≠ 2 := by
  cases hload : o.load (h.contents o.source) with
  | error f => simp [(shows_of_load hparse hdoc hload).status]
  | ok c =>
    cases hrender : o.mode.artifact.render c.table with
    | error f => simp [(shows_of_render hparse hload hrender).status]
    | ok text => simp [outcome_of_render hparse hload hrender]

theorem flag_mem_of_parse (hdoc : h.Documented) : o.mode.flag ∈ args := by
  obtain ⟨text, htext, hmode⟩ := hdoc.mode_of_parse Mode.read args o hparse
  rwa [Mode.flag_of_read hmode]

end Host

/-- A run writes all that it is to write, or a report and nothing of an artifact, whatever the host
gives it. The status is two for arguments that are refused, one for a source that is turned away or a
table that the artifact cannot show, and zero for a text in place of options and for a whole
artifact. The log stands before the report; it is empty where only errors are asked for, and holds
the warnings of the listing where nothing is. -/
theorem Outcome.all_or_nothing (h : Host) (hdoc : h.Documented) (asked : Option String)
    (args : List String) :
    let out := h.outcome asked args
    (out.status = 2 ↔ ∃ n, h.parse Mode.read args = .error n ∧ n.isMistake = true) ∧
      (∀ n, h.parse Mode.read args = .error n →
        out = if n.isMistake then ⟨2, "", n.text⟩ else ⟨0, n.text, ""⟩) ∧
      ∀ o, h.parse Mode.read args = .ok o →
        let contents := h.contents o.source
        let log := h.logOf asked o
        o.mode.flag ∈ args ∧
          (asked = some "error" → log = "") ∧
          (∀ f, o.load contents = .error f →
            (asked = none → log = "") ∧ out.Shows log o.sourceName f) ∧
          ∀ c, o.load contents = .ok c →
            (asked = none → log = h.written (c.warnings.map .warned)) ∧
            (∀ f, o.mode.artifact.render c.table = .error f → out.Shows log o.sourceName f) ∧
            ∀ text, o.mode.artifact.render c.table = .ok text → out = ⟨0, text, log⟩ := by
  intro out
  cases hparse : h.parse Mode.read args with
  | error n =>
    have hout : out = if n.isMistake then ⟨2, "", n.text⟩ else ⟨0, n.text, ""⟩ :=
      Host.outcome_of_notice hparse
    refine ⟨?_, ?_, nofun⟩
    · rw [hout]
      cases hmistake : n.isMistake <;> simp [hmistake]
    · intro n' hn
      cases hn
      exact hout
  | ok o =>
    have hstatus : out.status ≠ 2 := Host.status_outcome_ne_two hparse hdoc
    refine ⟨by simp [hstatus], nofun, fun o' ho => ?_⟩
    cases ho
    intro contents log
    refine ⟨Host.flag_mem_of_parse hparse hdoc, ?_, fun f hload => ⟨?_, ?_⟩,
      fun c hload => ⟨?_, fun f hf => ?_, fun text htext => ?_⟩⟩
    · rintro rfl
      exact hdoc.logOf_error
    · rintro rfl
      exact hdoc.logOf_none_of_error hload
    · exact Host.shows_of_load hparse hdoc hload
    · rintro rfl
      exact hdoc.logOf_none_of_ok hload
    · exact Host.shows_of_render hparse hload hf
    · exact Host.outcome_of_render hparse hload htext

def uncoded : String := "@a rs2 31..25=0 19..0=1\n@b rs2 31..25=0 19..0=1\n"

theorem Outcome.all_or_nothing_uncoded :
    let h := Host.ofContents (Directory.contents [] (Text.toBytes uncoded.toList))
    let f := Failure.artifact "a: field rs2 has no assembler operand code"
    h.Documented ∧ (h.outcome none []).status = 2 ∧
      (h.outcome (some "error") ["-c"]).Shows "" "<stdin>" f ∧
      (h.outcome none ["-c"]).Shows
        (" WARN Warning collision.pseudo-overlap: b: " ++
          "pseudo instruction overlaps pseudo instruction a @ <stdin>:2:1\n") "<stdin>" f := by
  intro h f
  have hdoc : h.Documented := Host.documented_ofContents [] _
  let o : Options := ⟨.header, false, none⟩
  have hparse : h.parse Mode.read ["-c"] = .ok o := by decide +kernel
  obtain ⟨c, hload, hrec⟩ := @Listing.exists_read .failFast "<stdin>" uncoded _
    (Listing.ofBytes?_toBytes uncoded) (by decide +kernel)
  have hrender : o.mode.artifact.render c.table = .error f := by
    have hrun : o.run (h.contents none) = .error f := by decide +kernel
    have hbind := o.run_withMode o.mode (h.contents none)
    rw [show o.load (h.contents none) = .ok c from hload] at hbind
    exact hbind.symm.trans hrun
  refine ⟨hdoc, ?_, ?_, ?_⟩
  · obtain ⟨hstatus, -, -⟩ := Outcome.all_or_nothing h hdoc none []
    exact hstatus.2 ⟨_, rfl, rfl⟩
  · obtain ⟨-, -, hrun⟩ := Outcome.all_or_nothing h hdoc (some "error") ["-c"]
    obtain ⟨-, hlog, -, hloaded⟩ := hrun o hparse
    rw [← hlog rfl]
    exact (hloaded c hload).2.1 f hrender
  · obtain ⟨-, -, hrun⟩ := Outcome.all_or_nothing h hdoc none ["-c"]
    obtain ⟨-, -, -, hloaded⟩ := hrun o hparse
    obtain ⟨hlog, hshows, -⟩ := hloaded c hload
    have hwarnings : h.logOf none o =
        " WARN Warning collision.pseudo-overlap: b: " ++
          "pseudo instruction overlaps pseudo instruction a @ <stdin>:2:1\n" := by
      obtain ⟨-, -, -, -, hwarnings⟩ := Listing.read_eq_ok_iff.1 hload
      refine (hlog rfl).trans ?_
      rw [hwarnings, Listing.warnings_of_records hrec]
      decide +kernel
    rw [← hwarnings]
    exact hshows f hrender

example :
    Outcome.ofArguments ["-chisel"] (Directory.contents [] "a 31..0=1\nb 31..0=1".toUTF8.toList) =
      ⟨1, "", "Error collision.overlap: b: overlaps with a @ <stdin>:2:1\n"⟩ := by
  decide +kernel

end OpcodeTable
