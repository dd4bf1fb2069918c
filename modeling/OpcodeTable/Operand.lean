import OpcodeTable.Draft
import OpcodeTable.Text.Numeral
import OpcodeTable.Text.Split

namespace OpcodeTable

inductive Bounds
  | span (high low : Nat)
  | bit (i : Nat)
  | field (f : Field)
  deriving DecidableEq, Repr

inductive Target
  | range (r : BitRange)
  | field (f : Field)
  deriving DecidableEq, Repr

def Target.bits : Target → BitRange
  | range r => r
  | field f => f.range

inductive Setting
  | literal (value : Nat)
  | ignore
  deriving DecidableEq, Repr

inductive Operand
  | field (f : Field)
  | assign (t : Target) (s : Setting)
  deriving DecidableEq, Repr

namespace Bounds

/-- The three shapes of a left side. A text with two dots in it can only be a span. -/
def ofText? (cs : List Char) : Option Bounds :=
  match Text.cut? ['.', '.'] cs with
  | some (high, low) => do return span (← Text.position? high) (← Text.position? low)
  | none =>
    match Text.position? cs with
    | some i => some (bit i)
    | none => (Field.ofName? (String.ofList cs)).map field

def high : Bounds → Nat
  | span high _ => high
  | bit i => i
  | field f => f.range.high

def low : Bounds → Nat
  | span _ low => low
  | bit i => i
  | field f => f.range.low

def width (b : Bounds) : Nat := max b.high b.low - min b.high b.low + 1

def target : Bounds → Except Fault Target
  | span high low =>
    if high ≤ low then .error (.badRange high low)
    else (BitRange.ofBounds high low).map .range
  | bit i => (BitRange.bit i).map .range
  | field f => .ok (.field f)

end Bounds

def Setting.ignoreWord : String := "ignore"

/-- The value is measured against the width between the bounds, before these are checked. No
value needs more than 64 bits, so a wider range takes them all. -/
def Setting.ofText (text : String) (b : Bounds) : Except Fault Setting :=
  if text = ignoreWord then .ok ignore
  else
    match Text.value? text with
    | some v =>
      if v < 1 <<< min b.width 64 then .ok (literal v) else .error (.badValue text b.high b.low)
    | none => .error (.badValue text b.high b.low)

namespace Operand

def ofText (text : String) : Except Fault Operand :=
  match Text.cut? ['='] text.toList with
  | none =>
    match Field.ofName? text with
    | some f => .ok (field f)
    | none => .error (.unknownToken text)
  | some (left, right) =>
    if right.contains '=' then .error (.unknownToken text)
    else
      match Bounds.ofText? left with
      | none => .error (.unknownToken text)
      | some bounds => do
        let setting ← Setting.ofText (String.ofList right) bounds
        let target ← bounds.target
        return assign target setting

def edit : Operand → Edit
  | field f => .field f
  | assign t .ignore => .ignore t.bits
  | assign t (.literal v) => .literal t.bits v

end Operand

end OpcodeTable
