import OpcodeTable.Proofs.Artifact.Codes
import OpcodeTable.Proofs.Artifact.Reorder

/-!
The assembler's rows as they stand in the text. There are two orders in them: rows follow the
records, and the operands of a row follow the names of its fields. A field that no row can show is
looked for in the same way, so the first record decides, and within it the first name.
-/

namespace OpcodeTable

namespace Record

variable {r : Record}

end Record

namespace Artifact

variable {t : Table}

theorem Header.render_eq :
    header.render t = (operandRows.render t).map fun text =>
      String.join ((Header.encodingLines t).map fun line => line ++ "\n") ++ text := by
  simp only [render, Artifact.lines, Header.lines]
  cases OperandRows.lines t with
  | error e => rfl
  | ok rows => simp [Except.map]

def OperandRows.repeated : Table where
  records := [{ name := "c.swap", fields := [.cb, .ca, .cb] }]

def OperandRows.uncoded : Table where
  records := [{ name := "c", fields := [.rd] }, { name := "b", fields := [.rs2, .rd, .imm12] },
    { name := "a", fields := [.aqrl] }]

end Artifact

end OpcodeTable
