import OpcodeTable.Coverage
import OpcodeTable.Diagnostic
import OpcodeTable.Field
import OpcodeTable.Word

namespace OpcodeTable

structure Literal where
  range : BitRange
  value : Word
  deriving DecidableEq, Repr

structure Instruction where
  name : String
  /-- A pseudo instruction is another spelling of a real one and may share its words. -/
  isPseudo : Bool := false
  span : Option Span := none
  encoding : Encoding := {}
  fields : List Field := []
  literals : List Literal := []
  ignored : List BitRange := []
  deriving DecidableEq, Repr

namespace Instruction

/-- Every range that the instruction speaks for, once for each mention. -/
def ranges (i : Instruction) : List BitRange :=
  i.fields.map Field.range ++ i.literals.map Literal.range ++ i.ignored

def covered (i : Instruction) : Word :=
  i.ranges.foldl (fun bits r => bits ||| r.mask) 0

def uses (i : Instruction) (f : Field) : Bool := i.fields.contains f

def identifier (i : Instruction) : String :=
  i.name.map fun c => if c = '.' then '_' else c

def macroName (i : Instruction) : String := i.identifier.map Char.toUpper

def label (i : Instruction) : String :=
  String.ofList ((i.name.toList.filter (· ≠ '.')).map Char.toUpper)

end Instruction

/-- An instruction under construction, with the bits that it has claimed so far. -/
structure Draft extends Instruction where
  coverage : Coverage := {}
  deriving DecidableEq, Repr

structure Record extends Instruction where
  format : WordFormat := .full
  deriving DecidableEq, Repr

end OpcodeTable
