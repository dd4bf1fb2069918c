import OpcodeTable.Definition
import OpcodeTable.Table.Overlap
import OpcodeTable.Text.Split

/-!
Listings: the lines of a file, each taken into the table or turned away. What a line does depends
on the table so far and not on what becomes of a rejection.
-/

namespace OpcodeTable

inductive ErrorMode
  | failFast | collectAll
  deriving DecidableEq, Repr

structure Compilation where
  table : Table
  warnings : List Diagnostic

/-- Checks a definition against the rest of the table and adds it: first its coverage, then the
words that it shares, then its name. -/
def Table.define (t : Table) (d : Draft) : Except Fault Table := do
  let format ← d.coverage.format
  unless d.isPseudo do t.checkOverlap d.encoding
  t.insert (d.record format)

def Table.readLine (t : Table) (path : String) (number : Nat) (text : String) :
    Except Rejection Table :=
  match Draft.ofLine path number text with
  | .error r => .error r
  | .ok none => .ok t
  | .ok (some d) =>
    match t.define d with
    | .ok t' => .ok t'
    | .error fault => .error ⟨d.name, fault, d.span⟩

namespace Listing

def notText : String := "stream did not contain valid UTF-8"

/-- Reads on from line `number`, with the findings so far. A line that is not text ends the
reading in either mode. -/
def readFrom (mode : ErrorMode) (path : String) (number : Nat) (t : Table)
    (findings : List Diagnostic) : List (List UInt8) → Except Failure (Table × List Diagnostic)
  | [] => .ok (t, findings)
  | line :: rest =>
    match Text.ofBytes? line with
    | none => .error (.input notText)
    | some text =>
      match t.readLine path number text with
      | .ok t' => readFrom mode path (number + 1) t' findings rest
      | .error r =>
        match mode with
        | .failFast => .error (.rejected r)
        | .collectAll => readFrom mode path (number + 1) t (findings ++ [r.diagnostic]) rest

/-- Reads a whole file. A listing with findings gives no table. -/
def read (mode : ErrorMode) (path : String) (bytes : List UInt8) : Except Failure Compilation :=
  match readFrom mode path 1 .empty [] (Text.lines bytes) with
  | .error failure => .error failure
  | .ok (t, []) => .ok ⟨t, t.warnings⟩
  | .ok (_, findings) => .error (.findings findings)

end Listing

end OpcodeTable
