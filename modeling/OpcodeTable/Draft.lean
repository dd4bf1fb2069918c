import OpcodeTable.Instruction

/-!
Building an instruction one edit at a time. An edit claims its range before it changes anything
else, so no bit is spoken for twice and a refused edit leaves no trace.
-/

namespace OpcodeTable

inductive Edit
  | field (f : Field)
  | assign (f : Field) (value : Nat)
  | literal (r : BitRange) (value : Nat)
  | ignore (r : BitRange)
  deriving DecidableEq, Repr

def Edit.range : Edit → BitRange
  | field f | assign f _ => f.range
  | literal r _ | ignore r => r

namespace Draft

def field (d : Draft) (f : Field) : Except Fault Draft :=
  (d.coverage.claim f.range).map fun c =>
    { d with coverage := c, fields := d.fields ++ [f] }

def literal (d : Draft) (r : BitRange) (value : Nat) : Except Fault Draft :=
  if r.fits value then
    (d.coverage.claim r).map fun c =>
      { d with
        coverage := c
        encoding := ⟨d.encoding.value ||| r.place value, d.encoding.mask ||| r.mask⟩
        literals := d.literals ++ [⟨r, BitVec.ofNat 32 value⟩] }
  else .error (.badValue value.repr r.high r.low)

def ignore (d : Draft) (r : BitRange) : Except Fault Draft :=
  (d.coverage.claim r).map fun c =>
    { d with coverage := c, ignored := d.ignored ++ [r] }

def perform (d : Draft) : Edit → Except Fault Draft
  | .field f => d.field f
  | .assign f value => d.literal f.range value
  | .literal r value => d.literal r value
  | .ignore r => d.ignore r

def record (d : Draft) (format : WordFormat) : Record :=
  { toInstruction := d.toInstruction, format }

end Draft

end OpcodeTable
