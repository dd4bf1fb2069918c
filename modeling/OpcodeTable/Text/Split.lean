/-!
Taking texts apart. The lines of a file are found among its bytes before any of them is read as
text: a line that is not text spoils nothing before it. A line is cut at its blanks, which are the
characters with the Unicode property White_Space, and a word where a mark stands.
-/

namespace OpcodeTable.Text

def lineFeed : UInt8 := 10

def carriageReturn : UInt8 := 13

def dropReturn (line : List UInt8) : List UInt8 :=
  if line.getLast? = some carriageReturn then line.dropLast else line

/-- Every line, without its end. A line feed at the very end starts no further line. -/
def lines (bytes : List UInt8) : List (List UInt8) :=
  match bytes with
  | [] => []
  | b :: bs =>
    let line := (b :: bs).takeWhile (· != lineFeed)
    match _ : (b :: bs).dropWhile (· != lineFeed) with
    | [] => [line]
    | _ :: rest => dropReturn line :: lines rest
termination_by bytes.length
decreasing_by
  rename_i h
  have hle : ((b :: bs).dropWhile (· != lineFeed)).length ≤ (b :: bs).length :=
    (List.dropWhile_suffix (· != lineFeed)).length_le
  rwa [h] at hle

def ofBytes? (line : List UInt8) : Option String :=
  String.fromUTF8? ⟨line.toArray⟩

def blankRuns : List (Nat × Nat) :=
  [(0x0009, 0x000D), (0x0020, 0x0020), (0x0085, 0x0085), (0x00A0, 0x00A0), (0x1680, 0x1680),
    (0x2000, 0x200A), (0x2028, 0x2029), (0x202F, 0x202F), (0x205F, 0x205F), (0x3000, 0x3000)]

def isBlank (c : Char) : Bool :=
  blankRuns.any fun run => decide (run.1 ≤ c.toNat) && decide (c.toNat ≤ run.2)

/-- What stands before the first `mark` and what stands after it. The mark is not empty. -/
def cut? (mark : List Char) : List Char → Option (List Char × List Char)
  | [] => none
  | c :: cs =>
    if mark.isPrefixOf (c :: cs) then some ([], (c :: cs).drop mark.length)
    else (cut? mark cs).map fun (before, after) => (c :: before, after)

end OpcodeTable.Text
