import OpcodeTable.Table

namespace OpcodeTable

structure Selector where
  opcode : Nat
  funct3 : Nat
  rs2 : Nat
  csr : Int
  funct7 : Nat
  deriving DecidableEq, Repr

def Selector.ofWord (w : Word) : Selector where
  opcode := Field.opcode.range.extract w
  funct3 := Field.funct3.range.extract w
  rs2 := Field.rs2.range.extract w
  csr := (BitVec.ofNat 12 (Field.imm12.range.extract w)).toInt
  funct7 := Field.funct7.range.extract w

namespace Artifact.SelectorSwitch

def opening : List String :=
  ["// Automatically generated by ise_opcodes",
    "",
    "package riscv",
    "",
    "import \"cmd/internal/obj\"",
    "",
    "type inst struct \x7b",
    "\topcode uint32",
    "\tfunct3 uint32",
    "\trs2    uint32",
    "\tcsr    int64",
    "\tfunct7 uint32",
    "\x7d",
    "",
    "func encode(a obj.As) (i *inst, ok bool) \x7b",
    "\tswitch a \x7b"]

def closing : List String :=
  ["\t\x7d",
    "\treturn nil, false",
    "\x7d"]

def caseLines (r : Record) : List String :=
  let s := Selector.ofWord r.encoding.value
  ["\tcase A" ++ r.label ++ ":",
    "\t\treturn &inst\x7b" ++ Text.hex s.opcode ++ ", " ++ Text.hex s.funct3 ++ ", " ++
      Text.hex s.rs2 ++ ", " ++ s.csr.repr ++ ", " ++ Text.hex s.funct7 ++ "\x7d, true"]

def lines (t : Table) : List String :=
  opening ++ t.records.flatMap caseLines ++ closing

end Artifact.SelectorSwitch

end OpcodeTable
