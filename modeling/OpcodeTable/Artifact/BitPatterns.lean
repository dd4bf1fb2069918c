import OpcodeTable.Architecture
import OpcodeTable.Table

namespace OpcodeTable.Artifact.BitPatterns

def nameWidth : Nat := 18

def instructionLine (r : Record) : String :=
  "  def " ++ String.ofList (r.macroName.toList.rightpad nameWidth ' ') ++ " = BitPat(\"b" ++
    r.encoding.pattern ++ "\")"

def object (name : String) (body : List String) : List String :=
  ("object " ++ name ++ " \x7b") :: body ++ ["\x7d"]

def value (name : String) (number : Nat) : String := "  val " ++ name ++ " = " ++ Text.hex number

def array (name first : String) (members : List String) : List String :=
  ["  val " ++ name ++ " = \x7b", "    val res = " ++ first] ++
    members.map (fun member => "    res += " ++ member) ++
    ["    res.toArray", "  \x7d"]

def emptyBuffer : String := "collection.mutable.ArrayBuffer[Int]()"

def bufferOfAll : String := "collection.mutable.ArrayBuffer(all:_*)"

def lines (t : Table) : List String :=
  "/* Automatically generated by ise_opcodes */" ::
    object "Instructions" (t.records.map instructionLine) ++
    object "Causes"
      (TrapCause.all.map (fun c => value c.identifier c.code) ++
        array "all" emptyBuffer (TrapCause.all.map TrapCause.identifier)) ++
    object "CSRs"
      (ControlRegister.all.map (fun r => value r.name r.number) ++
        array "all" emptyBuffer (ControlRegister.common.map ControlRegister.name) ++
        array "all32" bufferOfAll (ControlRegister.highHalves.map ControlRegister.name))

end OpcodeTable.Artifact.BitPatterns
