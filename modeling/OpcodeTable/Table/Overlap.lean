import OpcodeTable.Diagnostic
import OpcodeTable.Table

/-!
Words that two instructions share. Among real instructions that is a fault; among pseudo
instructions it is worth a warning. A finished table is checked again from its records alone: each
record tiles its word, and no two real records overlap.
-/

namespace OpcodeTable

/-- Every pair of records that overlap, ordered by the earlier and then by the later one. -/
def overlapping : List Record → List (Record × Record)
  | [] => []
  | r :: rs =>
    (rs.filter fun s => r.encoding.overlaps s.encoding).map (fun s => (r, s)) ++ overlapping rs

namespace Table

/-- Turns an encoding away if a real record overlaps it, naming the first that does. -/
def checkOverlap (t : Table) (e : Encoding) : Except Fault Unit :=
  match t.real.find? fun r => e.overlaps r.encoding with
  | some r => .error (.overlap r.name)
  | none => .ok ()

def realOverlaps (t : Table) : List (Record × Record) := overlapping t.real

def pseudoOverlaps (t : Table) : List (Record × Record) := overlapping t.pseudo

end Table

def Diagnostic.pseudoOverlap (instruction : Option String) (message : String)
    (span : Option Span) : Diagnostic where
  phase := .collision
  severity := .warning
  code := "collision.pseudo-overlap"
  instruction := instruction
  message := message
  span := span

/-- One warning for each pair of pseudo instructions that overlap, at the later of the two, which
is found again by its name. -/
def Table.warnings (t : Table) : List Diagnostic :=
  t.pseudoOverlaps.map fun (earlier, later) =>
    .pseudoOverlap (some later.name)
      ("pseudo instruction overlaps pseudo instruction " ++ earlier.name) (t.spanOf? later.name)

/-- The widths of the ranges, added up in 32 bits. -/
def Record.claimedBits (r : Record) : Nat :=
  r.ranges.foldr (fun s bits => s.width + bits) 0 % (1 <<< 32)

/-- What is wrong with the ranges of a record. Widths that add up to the number of covered bits are
taken for a sign that no bit is claimed twice. -/
def Record.tilingFault? (r : Record) : Option Fault :=
  if r.claimedBits ≠ r.covered.bitCount then
    some (.overspecified r.covered)
  else if r.covered ≠ r.format.coverage then some (.incompleteCoverage r.covered)
  else none

namespace Table

/-- At most one rejection for each record, then one for each pair of real records that overlap,
laid at the later of the two, which is found again by its name. -/
def rejections (t : Table) : List Rejection :=
  (t.records.filterMap fun r => r.tilingFault?.map fun fault => ⟨r.name, fault, r.span⟩) ++
    t.realOverlaps.map fun (earlier, later) =>
      ⟨later.name, .overlap earlier.name, t.spanOf? later.name⟩

def recheck (t : Table) : Except Failure Unit :=
  match t.rejections with
  | [] => .ok ()
  | rs => .error (.findings (rs.map Rejection.diagnostic))

end Table

end OpcodeTable
