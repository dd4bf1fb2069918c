import OpcodeTable.Fault

namespace OpcodeTable

structure Position where
  line : Nat
  column : Nat
  deriving DecidableEq, Repr

structure Span where
  path : String
  start : Position
  stop : Position
  deriving DecidableEq, Repr

def Span.text (s : Span) : String :=
  s.path ++ ":" ++ s.start.line.repr ++ ":" ++ s.start.column.repr

inductive Severity
  | error | warning
  deriving DecidableEq, Repr

def Severity.text : Severity → String
  | error => "Error"
  | warning => "Warning"

structure Diagnostic where
  phase : Phase
  severity : Severity
  code : String
  instruction : Option String
  message : String
  span : Option Span
  deriving DecidableEq, Repr

def Diagnostic.text (d : Diagnostic) : String :=
  d.severity.text ++ " " ++ d.code ++ ": " ++
    (match d.instruction with
      | some name => name ++ ": "
      | none => "") ++
    d.message ++ " @ " ++
    (match d.span with
      | some span => span.text
      | none => "<unknown>")

structure Rejection where
  instruction : String
  fault : Fault
  span : Option Span
  deriving DecidableEq, Repr

def Rejection.diagnostic (r : Rejection) : Diagnostic where
  phase := r.fault.phase
  severity := .error
  code := r.fault.code
  instruction := some r.instruction
  message := r.fault.message
  span := r.span

inductive Failure
  | input (reason : String)
  | usage (reason : String)
  | artifact (reason : String)
  | rejected (rejection : Rejection)
  | findings (diagnostics : List Diagnostic)
  deriving DecidableEq, Repr

namespace Failure

def layout : Failure :=
  artifact "formatting failed: an error occurred when formatting an argument"

def diagnostics : Failure → List Diagnostic
  | rejected r => [r.diagnostic]
  | findings ds => ds
  | input _ | usage _ | artifact _ => []

def message : Failure → String
  | input reason => "I/O error: " ++ reason
  | usage reason => "usage error: " ++ reason
  | artifact reason => "backend error: " ++ reason
  | rejected r => r.instruction ++ ": " ++ r.fault.message
  | findings ds =>
    "compilation produced " ++ ds.length.repr ++ " issue(s):\n" ++
      String.join (ds.map fun d => "  - " ++ d.text ++ "\n")

def cause : Failure → Option String
  | input reason => some reason
  | rejected r => some r.fault.message
  | usage _ | artifact _ | findings _ => none

def exitStatus : Failure → Nat
  | usage _ => 2
  | input _ | artifact _ | rejected _ | findings _ => 1

end Failure

end OpcodeTable
