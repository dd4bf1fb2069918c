import OpcodeTable.Command.Options
import OpcodeTable.Text.Split
import OpcodeTable.Text.Visible

/-!
The command line: a mode, then a file. The mode looks like an option, so at its place any argument
that is not an option of ours is taken for it. A positional value is checked when the next one
arrives, when an option acts, or at the end.
-/

namespace OpcodeTable

inductive Misuse
  | missingMode
  | unknownMode (text reason : String)
  | emptyFile
  | unexpectedArgument (text : String)
  | unexpectedValue (name value : String)
  | repeatedOption (name : String)
  deriving DecidableEq, Repr

def Misuse.message : Misuse → String
  | missingMode => "error: the following required arguments were not provided:"
  | unknownMode text reason =>
    "error: invalid value '" ++ Text.visible text ++ "' for '<MODE>': " ++ reason
  | emptyFile => "error: a value is required for '[FILE]' but none was supplied"
  | unexpectedArgument text =>
    "error: unexpected argument '" ++ Text.visible text ++ "' found"
  | unexpectedValue name value =>
    "error: unexpected value '" ++ Text.visible value ++ "' for '" ++ name ++
      "' found; no more were expected"
  | repeatedOption name => "error: the argument '" ++ name ++ "' cannot be used multiple times"

inductive Reply
  | help | version
  | misuse (m : Misuse)
  deriving DecidableEq, Repr

def helpLines : List String :=
  ["Compile an opcode listing into encoding tables",
    "",
    "Usage: ise_opcodes [OPTIONS] <MODE> [FILE]",
    "",
    "Arguments:",
    "  <MODE>  Output mode: -c, -chisel, -go or -check",
    "  [FILE]  Opcode listing; standard input when absent or `-`",
    "",
    "Options:",
    "      --all-errors  Report every failing line instead of stopping at the first",
    "  -h, --help        Print help",
    "  -V, --version     Print version"]

def Reply.lines : Reply → List String
  | help => helpLines
  | version => ["ise_opcodes 0.1.0"]
  | misuse m => [m.message]

def Reply.text (r : Reply) : String := String.join (r.lines.map fun line => line ++ "\n")

namespace Arguments

variable (readMode : String → Except String Mode)

inductive Switch
  | allErrors | help | version
  deriving DecidableEq, Repr

def Switch.ofLong? (name : List Char) : Option Switch :=
  if name = "all-errors".toList then some allErrors
  else if name = "help".toList then some help
  else if name = "version".toList then some version
  else none

def Switch.ofLetter? (c : Char) : Option Switch :=
  if c = 'h' then some help else if c = 'V' then some version else none

inductive Shape
  | separator
  | long (name : List Char) (value : Option (List Char))
  | letters (first : Char) (rest : List Char)
  | value
  deriving DecidableEq, Repr

def Shape.ofText (text : String) : Shape :=
  match text.toList with
  | ['-', '-'] => separator
  | '-' :: '-' :: cs =>
    match Text.cut? ['='] cs with
    | some (name, given) => long name (some given)
    | none => long cs none
  | '-' :: c :: cs => letters c cs
  | _ => value

/-- The positional values so far. The last one may still be unchecked. -/
inductive Values
  | empty
  | mode (text : String)
  | checkedMode (mode : Mode)
  | file (mode : Mode) (path : String)
  | checkedFile (mode : Mode) (path : String)
  deriving DecidableEq, Repr

namespace Values

def modeOf (text : String) : Except Misuse Mode :=
  (readMode text).mapError (.unknownMode text)

def check : Values → Except Misuse Values
  | mode text => (modeOf readMode text).map checkedMode
  | file m path => if path = "" then .error .emptyFile else .ok (checkedFile m path)
  | vs => .ok vs

def add (text : String) : Values → Except Misuse Values
  | empty => .ok (mode text)
  | mode first => (modeOf readMode first).map fun m => file m text
  | checkedMode m => .ok (file m text)
  | file _ _ | checkedFile _ _ => .error (.unexpectedArgument text)

end Values

structure State where
  values : Values := .empty
  allErrors : Bool := false
  separated : Bool := false
  deriving DecidableEq, Repr

namespace State

def addValue (s : State) (text : String) : Except Reply State :=
  match s.values.add readMode text with
  | .ok values => .ok { s with values }
  | .error m => .error (.misuse m)

def turnOn (s : State) (switch : Switch) : Except Reply State :=
  match s.values.check readMode with
  | .error m => .error (.misuse m)
  | .ok values =>
    match switch with
    | .help => .error .help
    | .version => .error .version
    | .allErrors =>
      if s.allErrors then .error (.misuse (.repeatedOption "--all-errors"))
      else .ok { s with values, allErrors := true }

/-- Reads one argument. Of a group of letters the first one decides, for both of ours end the
reading. -/
def step (s : State) (text : String) : Except Reply State :=
  if s.separated then s.addValue readMode text
  else
    match Shape.ofText text with
    | .separator => .ok { s with separated := true }
    | .value => s.addValue readMode text
    | .long name value =>
      let written := "--" ++ String.ofList name
      match Switch.ofLong? name, value with
      | some switch, none => s.turnOn readMode switch
      | some _, some value => .error (.misuse (.unexpectedValue written (String.ofList value)))
      | none, _ =>
        if s.values = .empty then s.addValue readMode text
        else .error (.misuse (.unexpectedArgument written))
    | .letters c cs =>
      if s.values = .empty ∧ ¬(c :: cs).all (fun c => (Switch.ofLetter? c).isSome) then
        s.addValue readMode text
      else
        match Switch.ofLetter? c with
        | some switch => s.turnOn readMode switch
        | none => .error (.misuse (.unexpectedArgument (String.ofList ['-', c])))

def finish (s : State) : Except Reply Options :=
  match s.values.check readMode with
  | .error m => .error (.misuse m)
  | .ok (.checkedMode mode) => .ok ⟨mode, s.allErrors, none⟩
  | .ok (.checkedFile mode path) => .ok ⟨mode, s.allErrors, some path⟩
  | .ok _ => .error (.misuse .missingMode)

end State

def parse (args : List String) : Except Reply Options := do
  let s ← args.foldlM (State.step readMode) {}
  s.finish readMode

def read (args : List String) : Except Reply Options := parse Mode.read args

end Arguments

end OpcodeTable
