import OpcodeTable.Architecture
import OpcodeTable.Artifact.OperandRows

namespace OpcodeTable.Artifact.Header

def matchLines (r : Record) : List String :=
  ["#define MATCH_" ++ r.macroName ++ " " ++ r.encoding.value.hex,
    "#define MASK_" ++ r.macroName ++ "  " ++ r.encoding.mask.hex]

def registerLine (r : ControlRegister) : String :=
  "#define CSR_" ++ r.macroName ++ " " ++ Text.hex r.number

def causeLine (c : TrapCause) : String :=
  "#define CAUSE_" ++ c.macroName ++ " " ++ Text.hex c.code

def declareInstruction (r : Record) : String :=
  "DECLARE_INSN(" ++ r.identifier ++ ", MATCH_" ++ r.macroName ++ ", MASK_" ++ r.macroName ++ ")"

def declareRegister (r : ControlRegister) : String :=
  "DECLARE_CSR(" ++ r.name ++ ", CSR_" ++ r.macroName ++ ")"

def declareCause (c : TrapCause) : String :=
  "DECLARE_CAUSE(\"" ++ c.name ++ "\", CAUSE_" ++ c.macroName ++ ")"

def declarations (name : String) (body : List String) : List String :=
  ("#ifdef " ++ name) :: body ++ ["#endif"]

def encodingLines (t : Table) : List String :=
  ["/* Automatically generated by ise_opcodes.  */",
    "#ifndef RISCV_ENCODING_H",
    "#define RISCV_ENCODING_H"] ++
    t.records.flatMap matchLines ++
    ControlRegister.all.map registerLine ++
    TrapCause.all.map causeLine ++
    ["#endif"] ++
    declarations "DECLARE_INSN" (t.records.map declareInstruction) ++
    declarations "DECLARE_CSR" (ControlRegister.all.map declareRegister) ++
    declarations "DECLARE_CAUSE" (TrapCause.all.map declareCause)

def lines (t : Table) : Except Failure (List String) :=
  (OperandRows.lines t).map fun rows => encodingLines t ++ rows

end OpcodeTable.Artifact.Header
