import OpcodeTable.Proofs.Command.Host
import OpcodeTable.Proofs.Command.Validity

namespace OpcodeTable

namespace Table

theorem define_eq_bind_examine (t : Table) (d : Draft) : t.define d = (t.examine d).bind t.insert := by
  unfold define examine
  cases d.coverage.format with
  | error fault => rfl
  | ok format =>
    cases hpseudo : d.isPseudo with
    | true => rfl
    | false => cases hoverlap : t.checkOverlap d.encoding <;> rfl

theorem traceLine_snd (t : Table) (path : String) (number : Nat) (text : String) :
    (t.traceLine path number text).2 = t.readLine path number text := by
  unfold traceLine readLine
  cases Draft.ofLine path number text with
  | error r => rfl
  | ok draft =>
    cases draft with
    | none => rfl
    | some d =>
      simp only [define_eq_bind_examine]
      cases t.examine d with
      | error fault => rfl
      | ok r =>
        simp only [Except.bind]
        cases t.insert r <;> rfl

theorem filter_traceLine (t : Table) (path : String) (number : Nat) (text : String) :
    (t.traceLine path number text).1.filter Level.warn.admits = [] := by
  unfold traceLine
  split
  · rfl
  · rfl
  · split
    · rfl
    · split <;> rfl

end Table

namespace Listing

theorem traceFrom_snd (mode : ErrorMode) (path : String) (number : Nat) (t : Table)
    (log : List Event) (findings : List Diagnostic) (lines : List (List UInt8)) :
    (traceFrom mode path number t log findings lines).2 =
      readFrom mode path number t findings lines := by
  induction lines generalizing number t log findings with
  | nil => rfl
  | cons line lines ih =>
    rw [traceFrom, readFrom]
    cases Text.ofBytes? line with
    | none => rfl
    | some text =>
      simp only [← Table.traceLine_snd]
      obtain ⟨events, result⟩ := t.traceLine path number text
      cases result with
      | ok t' => exact ih ..
      | error r =>
        cases mode with
        | failFast => rfl
        | collectAll => exact ih ..

theorem filter_traceFrom (mode : ErrorMode) (path : String) (number : Nat) (t : Table)
    (log : List Event) (findings : List Diagnostic) (lines : List (List UInt8)) :
    (traceFrom mode path number t log findings lines).1.filter Level.warn.admits =
      log.filter Level.warn.admits := by
  induction lines generalizing number t log findings with
  | nil => rfl
  | cons line lines ih =>
    rw [traceFrom]
    cases Text.ofBytes? line with
    | none => rfl
    | some text =>
      have hline := t.filter_traceLine path number text
      cases htrace : t.traceLine path number text with
      | mk events result =>
        rw [htrace] at hline
        have hgrown : (log ++ events).filter Level.warn.admits = log.filter Level.warn.admits := by
          rw [List.filter_append, hline, List.append_nil]
        dsimp only
        rw [htrace]
        cases result with
        | ok t' => exact (ih ..).trans hgrown
        | error r =>
          cases mode with
          | failFast => exact hgrown
          | collectAll => exact (ih ..).trans hgrown

variable (mode : ErrorMode) (path : String) (bytes : List UInt8)

theorem trace_snd : (trace mode path bytes).2 = read mode path bytes := by
  unfold trace read
  rw [← traceFrom_snd mode path 1 .empty []]
  obtain ⟨log, result⟩ := traceFrom mode path 1 .empty [] [] (Text.lines bytes)
  rcases result with failure | ⟨t, findings⟩
  · rfl
  · cases findings <;> rfl

theorem filter_warned (ds : List Diagnostic) :
    (ds.map Event.warned).filter Level.warn.admits = ds.map Event.warned := by
  simp [Level.admits, Event.warned]

theorem filter_trace :
    (trace mode path bytes).1.filter Level.warn.admits =
      match read mode path bytes with
      | .error _ => []
      | .ok c => c.warnings.map .warned := by
  rw [← trace_snd]
  unfold trace
  have hlog := filter_traceFrom mode path 1 .empty [] [] (Text.lines bytes)
  cases hfrom : traceFrom mode path 1 .empty [] [] (Text.lines bytes) with
  | mk log result =>
    rw [hfrom] at hlog
    rcases result with failure | ⟨t, findings⟩
    · exact hlog
    · cases findings with
      | nil =>
        have hlast : [Event.compiled t path].filter Level.warn.admits = [] := rfl
        rw [List.filter_append, List.filter_append, hlog, hlast, filter_warned]
        simp
      | cons d ds => exact hlog

end Listing

namespace Options

variable (o : Options) (contents : Except String (List UInt8))

theorem trace_snd : (o.trace contents).2 = o.run contents := by
  cases contents with
  | error reason => rfl
  | ok bytes =>
    simp only [trace, run, ← Listing.trace_snd]
    obtain ⟨log, result⟩ := Listing.trace o.errorMode o.sourceName bytes
    cases result with
    | error f => rfl
    | ok c => cases hrender : o.mode.artifact.render c.table <;> simp [hrender]

/-- Of all that a run logs, only the warnings of the listing have the weight of warnings. -/
theorem filter_trace :
    (o.trace contents).1.filter Level.warn.admits =
      match o.load contents with
      | .error _ => []
      | .ok c => c.warnings.map .warned := by
  cases contents with
  | error reason => rfl
  | ok bytes =>
    have hlog := Listing.filter_trace o.errorMode o.sourceName bytes
    rw [load, ← hlog, trace]
    obtain ⟨log, result⟩ := Listing.trace o.errorMode o.sourceName bytes
    cases result with
    | error f => rfl
    | ok c =>
      have haccepted : [Event.accepted c.warnings o.mode].filter Level.warn.admits = [] := rfl
      dsimp only
      cases o.mode.artifact.render c.table with
      | error f => simp only [List.filter_append, haccepted, List.append_nil]
      | ok text =>
        have hrendered :
            [Event.rendered o.mode.artifact text].filter Level.warn.admits = [] := rfl
        simp only [List.filter_append, haccepted, hrendered, List.append_nil]

theorem filter_trace_error : (o.trace contents).1.filter Level.error.admits = [] := by
  have hfilter (log : List Event) :
      log.filter Level.error.admits =
        (log.filter Level.warn.admits).filter Level.error.admits := by
    rw [List.filter_filter]
    apply List.filter_congr
    intro e _
    simp only [Level.admits, Level.rank]
    grind
  rw [hfilter, filter_trace]
  cases o.load contents with
  | error f => rfl
  | ok c => simp [Level.admits, Level.rank, Event.warned]

end Options

def Host.logOf (h : Host) (asked : Option String) (o : Options) : String :=
  h.log asked (o.trace (h.contents o.source)).1

namespace Host.Documented

variable {h : Host} (hdoc : h.Documented) {o : Options}

include hdoc

theorem logOf_error : h.logOf (some Level.error.name) o = "" := by
  rw [logOf, log, hdoc.filterFor_name, o.filter_trace_error]
  rfl

theorem logOf_none_of_error {f : Failure} (hload : o.load (h.contents o.source) = .error f) :
    h.logOf none o = "" := by
  rw [logOf, log, hdoc.filterFor_none, o.filter_trace, hload]
  rfl

theorem logOf_none_of_ok {c : Compilation} (hload : o.load (h.contents o.source) = .ok c) :
    h.logOf none o = h.written (c.warnings.map .warned) := by
  rw [logOf, log, hdoc.filterFor_none, o.filter_trace, hload]

end Host.Documented

end OpcodeTable
