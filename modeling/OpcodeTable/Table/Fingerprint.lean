import OpcodeTable.Sha256
import OpcodeTable.Table

namespace OpcodeTable

def countByte {α : Type} (entries : List α) : UInt8 := UInt8.ofNat entries.length

def textBytes (s : String) : List UInt8 := s.toUTF8.data.toList ++ [0]

def BitRange.bytes (r : BitRange) : List UInt8 := [UInt8.ofNat r.high, UInt8.ofNat r.low]

def Literal.bytes (l : Literal) : List UInt8 := l.range.bytes ++ l.value.bytes

namespace Record

def bodyBytes (r : Record) : List UInt8 :=
  [if r.isPseudo then 1 else 0] ++ r.encoding.value.bytes ++ r.encoding.mask.bytes ++
    [UInt8.ofNat r.format.width] ++
    (countByte r.fields :: r.fields.flatMap fun f => textBytes f.name) ++
    (countByte r.literals :: r.literals.flatMap Literal.bytes) ++
    (countByte r.ignored :: r.ignored.flatMap BitRange.bytes)

def bytes (r : Record) : List UInt8 := textBytes r.name ++ r.bodyBytes

end Record

namespace Table

def bytes (t : Table) : List UInt8 := t.records.flatMap Record.bytes

/-- The hash of the records in order, as sixty-four hexadecimal digits. -/
def fingerprint (t : Table) : String :=
  String.ofList ((Sha256.hash t.bytes).flatMap fun b =>
    (Nat.toDigits 16 b.toNat).leftpad 2 '0')

end Table

end OpcodeTable
