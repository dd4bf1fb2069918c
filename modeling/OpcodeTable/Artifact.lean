import OpcodeTable.Artifact.BitPatterns
import OpcodeTable.Artifact.Header
import OpcodeTable.Artifact.SelectorSwitch
import OpcodeTable.Table.Fingerprint
import OpcodeTable.Table.Overlap

namespace OpcodeTable

def Artifact.Summary.lines (t : Table) : Except Failure (List String) :=
  t.recheck.map fun _ =>
    ["instructions: " ++ t.real.length.repr,
      "pseudo: " ++ t.pseudo.length.repr,
      "fields: " ++ " ".intercalate (t.fieldsUsed.map Field.name),
      "sha256: " ++ t.fingerprint]

inductive Artifact
  | header
  | bitPatterns
  | selectorSwitch
  | summary
  | operandRows
  deriving DecidableEq, Repr

namespace Artifact

def name : Artifact → String
  | header => "c-header"
  | bitPatterns => "chisel"
  | selectorSwitch => "go"
  | summary => "check"
  | operandRows => "binutils"

def lines : Artifact → Table → Except Failure (List String)
  | header, t => Header.lines t
  | bitPatterns, t => .ok (BitPatterns.lines t)
  | selectorSwitch, t => .ok (SelectorSwitch.lines t)
  | summary, t => Summary.lines t
  | operandRows, t => OperandRows.lines t

def render (a : Artifact) (t : Table) : Except Failure String :=
  (a.lines t).map fun lines => String.join (lines.map fun line => line ++ "\n")

end Artifact

inductive Mode
  | header | bitPatterns | selectorSwitch | summary
  deriving DecidableEq, Repr

namespace Mode

def all : List Mode := [header, bitPatterns, selectorSwitch, summary]

def flag : Mode → String
  | header => "-c"
  | bitPatterns => "-chisel"
  | selectorSwitch => "-go"
  | summary => "-check"

def ofFlag? (flag : String) : Option Mode := all.find? fun m => m.flag == flag

def artifact : Mode → Artifact
  | header => .header
  | bitPatterns => .bitPatterns
  | selectorSwitch => .selectorSwitch
  | summary => .summary

end Mode

end OpcodeTable
