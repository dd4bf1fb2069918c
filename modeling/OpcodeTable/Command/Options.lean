import OpcodeTable.Artifact
import OpcodeTable.Listing

namespace OpcodeTable

def Mode.read (flag : String) : Except String Mode :=
  match ofFlag? flag with
  | some m => .ok m
  | none => .error ("expected one of " ++ ", ".intercalate (all.map Mode.flag))

structure Options where
  mode : Mode
  allErrors : Bool
  file : Option String
  deriving DecidableEq, Repr

namespace Options

def errorMode (o : Options) : ErrorMode := if o.allErrors then .collectAll else .failFast

def source (o : Options) : Option String := o.file.filter (· ≠ "-")

def sourceName (o : Options) : String := o.source.getD "<stdin>"

def run (o : Options) (contents : Except String (List UInt8)) : Except Failure String :=
  match contents with
  | .error reason => .error (.input reason)
  | .ok bytes =>
    match Listing.read o.errorMode o.sourceName bytes with
    | .error failure => .error failure
    | .ok compilation => o.mode.artifact.render compilation.table

end Options

inductive Level
  | error | warn | info | debug | trace
  deriving DecidableEq, Repr

namespace Level

def all : List Level := [error, warn, info, debug, trace]

def name : Level → String
  | error => "error"
  | warn => "warn"
  | info => "info"
  | debug => "debug"
  | trace => "trace"

def ofName? (name : String) : Option Level := all.find? fun l => l.name == name

/-- A higher rank is of less weight. -/
def rank : Level → Nat
  | error => 0
  | warn => 1
  | info => 2
  | debug => 3
  | trace => 4

end Level

inductive Origin
  | listing | artifact | command
  deriving DecidableEq, Repr

structure Event where
  level : Level
  origin : Origin
  message : String
  fields : List (String × String) := []
  deriving DecidableEq, Repr

namespace Event

def checked (r : Record) : Event where
  level := .debug
  origin := .listing
  message := "match=" ++ r.encoding.value.paddedHex ++ " mask=" ++ r.encoding.mask.paddedHex
  fields := [("name", r.name), ("pseudo", if r.isPseudo then "true" else "false")]

def warned (d : Diagnostic) : Event where
  level := .warn
  origin := .listing
  message := d.text

def compiled (t : Table) (path : String) : Event where
  level := .info
  origin := .listing
  message := "compiled " ++ path
  fields := [("instructions", t.size.repr), ("pseudo", t.pseudo.length.repr)]

def accepted (warnings : List Diagnostic) (m : Mode) : Event where
  level := .debug
  origin := .command
  message := "listing accepted"
  fields := [("warnings", warnings.length.repr), ("mode", m.flag)]

def rendered (a : Artifact) (text : String) : Event where
  level := .debug
  origin := .artifact
  message := "rendered artifact"
  fields := [("backend", a.name), ("bytes", text.utf8ByteSize.repr)]

end Event

namespace Table

/-- The record of a definition that may stand beside the others, as far as its bits go. -/
def examine (t : Table) (d : Draft) : Except Fault Record := do
  let format ← d.coverage.format
  unless d.isPseudo do t.checkOverlap d.encoding
  return d.record format

def traceLine (t : Table) (path : String) (number : Nat) (text : String) :
    List Event × Except Rejection Table :=
  match Draft.ofLine path number text with
  | .error r => ([], .error r)
  | .ok none => ([], .ok t)
  | .ok (some d) =>
    match t.examine d with
    | .error fault => ([], .error ⟨d.name, fault, d.span⟩)
    | .ok r =>
      match t.insert r with
      | .error fault => ([.checked r], .error ⟨d.name, fault, d.span⟩)
      | .ok t' => ([.checked r], .ok t')

end Table

namespace Listing

def traceFrom (mode : ErrorMode) (path : String) (number : Nat) (t : Table) (log : List Event)
    (findings : List Diagnostic) :
    List (List UInt8) → List Event × Except Failure (Table × List Diagnostic)
  | [] => (log, .ok (t, findings))
  | line :: rest =>
    match Text.ofBytes? line with
    | none => (log, .error (.input notText))
    | some text =>
      match t.traceLine path number text with
      | (events, .ok t') => traceFrom mode path (number + 1) t' (log ++ events) findings rest
      | (events, .error r) =>
        match mode with
        | .failFast => (log ++ events, .error (.rejected r))
        | .collectAll =>
          traceFrom mode path (number + 1) t (log ++ events) (findings ++ [r.diagnostic]) rest

def trace (mode : ErrorMode) (path : String) (bytes : List UInt8) :
    List Event × Except Failure Compilation :=
  match traceFrom mode path 1 .empty [] [] (Text.lines bytes) with
  | (log, .error failure) => (log, .error failure)
  | (log, .ok (t, [])) =>
    (log ++ t.warnings.map .warned ++ [.compiled t path], .ok ⟨t, t.warnings⟩)
  | (log, .ok (_, findings)) => (log, .error (.findings findings))

end Listing

def Options.trace (o : Options) (contents : Except String (List UInt8)) :
    List Event × Except Failure String :=
  match contents with
  | .error reason => ([], .error (.input reason))
  | .ok bytes =>
    match Listing.trace o.errorMode o.sourceName bytes with
    | (log, .error failure) => (log, .error failure)
    | (log, .ok c) =>
      let log := log ++ [.accepted c.warnings o.mode]
      match o.mode.artifact.render c.table with
      | .error failure => (log, .error failure)
      | .ok text => (log ++ [.rendered o.mode.artifact text], .ok text)

end OpcodeTable
