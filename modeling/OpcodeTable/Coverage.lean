import OpcodeTable.BitRange

namespace OpcodeTable

inductive WordFormat
  | full | compressed
  deriving DecidableEq, Repr

namespace WordFormat

def coverage : WordFormat → Word
  | full => 0xFFFFFFFF
  | compressed => 0x0000FFFF

def width : WordFormat → Nat
  | full => 32
  | compressed => 16

end WordFormat

structure Coverage where
  bits : Word := 0
  deriving DecidableEq, Repr

namespace Coverage

def claim (c : Coverage) (r : BitRange) : Except Fault Coverage :=
  if c.bits &&& r.mask = 0 then .ok ⟨c.bits ||| r.mask⟩
  else .error (.overspecified (c.bits &&& r.mask))

def contains (c : Coverage) (r : BitRange) : Bool := c.bits &&& r.mask == r.mask

def missing (c : Coverage) : Word := ~~~c.bits

def format (c : Coverage) : Except Fault WordFormat :=
  if c.bits = WordFormat.full.coverage then .ok .full
  else if c.bits = WordFormat.compressed.coverage then .ok .compressed
  else .error (.incompleteCoverage c.bits)

end Coverage

end OpcodeTable
