import OpcodeTable.Diagnostic
import OpcodeTable.Table

namespace OpcodeTable

def Field.definitions (f : Field) : List String :=
  let upper := f.name.map Char.toUpper
  let ones := String.ofList (List.replicate f.range.width '1')
  ["#define OP_MASK_" ++ upper ++ " 0b" ++ ones,
    "#define OP_SH_" ++ upper ++ " " ++ f.range.low.repr,
    "#define ENCODE_X_" ++ upper ++ "(X)  ((X &  OP_MASK_" ++ upper ++ ") << OP_SH_" ++ upper ++ ")",
    "#define EXTRACT_X_" ++ upper ++ "(X) ((X >> OP_SH_" ++ upper ++ ")  & OP_MASK_" ++ upper ++ ")"]

namespace Record

def fieldsByName (r : Record) : List Field :=
  r.fields.mergeSort fun f g => decide (f.name ≤ g.name)

def operandCodes (r : Record) : Except Failure (List String) :=
  r.fieldsByName.mapM fun f =>
    match f.operandCode with
    | some code => .ok code
    | none =>
      .error (.artifact (r.name ++ ": field " ++ f.name ++ " has no assembler operand code"))

def operandRow (r : Record) : Except Failure String :=
  r.operandCodes.map fun codes =>
    "\x7b\"" ++ r.name ++ "\", \"X\", \"" ++ ",".intercalate codes ++ "\", MATCH_" ++ r.macroName ++
      ", MASK_" ++ r.macroName ++ ", match_opcode, 0\x7d,"

end Record

namespace Artifact.OperandRows

def definitions : List String :=
  (Field.extensionFields.flatMap Field.definitions).mergeSort fun a b => decide (a ≤ b)

def lines (t : Table) : Except Failure (List String) :=
  (t.records.mapM Record.operandRow).map fun rows => definitions ++ rows

end Artifact.OperandRows

end OpcodeTable
