import OpcodeTable.Command.Arguments
import OpcodeTable.Command.Options

/-!
One run of the command. It writes an artifact or a report, never a part of an artifact. What it is
given from outside, the reading of arguments and of files and the log, is gathered in a host.
-/

namespace OpcodeTable

/-- What the reading of the arguments says in place of options. A mistake is told on the error
output. -/
structure Notice where
  text : String
  isMistake : Bool
  deriving DecidableEq, Repr

/-- What a run takes from outside. `parse` reads the arguments, with what reads a mode; `contents`
gives a file, or standard input for `none`; `filter?` and `filter` make a filter of a text, one only
if it makes sense and the other of as much of it as does; `entry` is what is written of an event at
its place in the log, where the clock is read as well. -/
structure Host where
  parse : (String → Except String Mode) → List String → Except Notice Options
  contents : Option String → Except String (List UInt8)
  filter? : String → Option (Event → Bool)
  filter : String → Event → Bool
  entry : Nat → Event → String

namespace Host

variable (h : Host)

/-- The filter that is asked for. Warnings are logged where none is, or one that makes no sense. -/
def filterFor (asked : Option String) : Event → Bool :=
  (asked.bind h.filter?).getD (h.filter Level.warn.name)

def written (events : List Event) : String := String.join (events.mapIdx h.entry)

def log (asked : Option String) (events : List Event) : String :=
  h.written (events.filter (h.filterFor asked))

end Host

namespace Failure

/-- One line for each diagnostic, or one for a failure without any. -/
def report (f : Failure) : List String :=
  match f.diagnostics with
  | [] => ["error: " ++ f.message]
  | ds => ds.map Diagnostic.text

def written : Failure → String
  | usage text => text
  | f => String.join (f.report.map fun line => line ++ "\n")

end Failure

structure Outcome where
  status : Nat
  stdout : String := ""
  stderr : String := ""
  deriving DecidableEq, Repr

namespace Outcome

def ofRun (log : String) : Except Failure String → Outcome
  | .ok text => { status := 0, stdout := text, stderr := log }
  | .error f => { status := f.exitStatus, stderr := log ++ f.written }

def ofNotice (n : Notice) : Outcome :=
  if n.isMistake then ofRun "" (.error (.usage n.text)) else { status := 0, stdout := n.text }

end Outcome

def Host.outcome (h : Host) (asked : Option String) (args : List String) : Outcome :=
  match h.parse Mode.read args with
  | .error n => .ofNotice n
  | .ok o =>
    let (events, result) := o.trace (h.contents o.source)
    .ofRun (h.log asked events) result

def Reply.notice (r : Reply) : Notice where
  text := r.text
  isMistake :=
    match r with
    | .misuse _ => true
    | .help | .version => false

def Level.admits (l : Level) (e : Event) : Bool := decide (e.level.rank ≤ l.rank)

def Event.text (e : Event) : String :=
  let label := String.ofList ((e.level.name.toList.map Char.toUpper).leftpad 5 ' ')
  let fields := e.fields.map fun (name, value) => name ++ "=" ++ value
  " ".intercalate (label :: e.message :: fields)

/-- The host with our own reading of arguments. Its filters are single levels, and its log has no
times in it. -/
def Host.ofContents (contents : Option String → Except String (List UInt8)) : Host where
  parse readMode args := (Arguments.parse readMode args).mapError Reply.notice
  contents := contents
  filter? text := (Level.ofName? text).map Level.admits
  filter text := ((Level.ofName? text).getD .error).admits
  entry _ e := e.text ++ "\n"

/-- The outcome for the given arguments, with nothing in the log but errors; `contents` is what
reading a source gives, and `none` is standard input. -/
def Outcome.ofArguments (args : List String)
    (contents : Option String → Except String (List UInt8)) : Outcome :=
  (Host.ofContents contents).outcome (some Level.error.name) args

end OpcodeTable
