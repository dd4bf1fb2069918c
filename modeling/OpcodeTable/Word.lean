namespace OpcodeTable

def Text.hex (n : Nat) : String := "0x" ++ String.ofList (Nat.toDigits 16 n)

/-- An instruction word. A compressed instruction lives in the low half. -/
abbrev Word := BitVec 32

namespace Word

def bitCount (w : Word) : Nat :=
  (List.range 32).countP w.getLsbD

def bytes (w : Word) : List UInt8 :=
  [⟨w.extractLsb' 24 8⟩, ⟨w.extractLsb' 16 8⟩, ⟨w.extractLsb' 8 8⟩, ⟨w.extractLsb' 0 8⟩]

def hex (w : Word) : String := Text.hex w.toNat

def paddedHex (w : Word) : String :=
  "0x" ++ String.ofList ((Nat.toDigits 16 w.toNat).leftpad 8 '0')

def paddedBinary (w : Word) : String :=
  "0b" ++ String.ofList ((Nat.toDigits 2 w.toNat).leftpad 32 '0')

end Word

/-- `mask` tells which bits are fixed and `value` what they are fixed to. -/
structure Encoding where
  value : Word := 0
  mask : Word := 0
  deriving DecidableEq, Repr

namespace Encoding

instance : Membership Word Encoding :=
  ⟨fun e w => w &&& e.mask = e.value⟩

theorem mem_def {e : Encoding} {w : Word} : w ∈ e ↔ w &&& e.mask = e.value := Iff.rfl

instance (w : Word) (e : Encoding) : Decidable (w ∈ e) :=
  inferInstanceAs (Decidable (w &&& e.mask = e.value))

def overlaps (e f : Encoding) : Bool :=
  e.value &&& (e.mask &&& f.mask) == f.value &&& (e.mask &&& f.mask)

def patternMark (e : Encoding) (i : Nat) : Char :=
  if e.mask.getLsbD i then (if e.value.getLsbD i then '1' else '0') else '?'

/-- One mark for each bit, the most significant first. -/
def pattern (e : Encoding) : String :=
  String.ofList ((List.range 32).reverse.map e.patternMark)

end Encoding

end OpcodeTable
