import OpcodeTable.Word

namespace OpcodeTable

inductive Phase
  | parser | coverage | collision
  deriving DecidableEq, Repr

inductive Fault
  | malformedLine (tokens : Nat)
  | badRange (high low : Nat)
  | badValue (text : String) (high low : Nat)
  | unknownToken (text : String)
  | overspecified (bits : Word)
  | incompleteCoverage (coverage : Word)
  | overlap (other : String)
  | duplicateName
  deriving DecidableEq, Repr

namespace Fault

def code : Fault → String
  | malformedLine _ => "parse.malformed-line"
  | badRange _ _ => "parse.bad-range"
  | badValue _ _ _ => "parse.bad-value"
  | unknownToken _ => "parse.unknown-token"
  | overspecified _ => "coverage.overspecified"
  | incompleteCoverage _ => "coverage.incomplete"
  | overlap _ => "collision.overlap"
  | duplicateName => "collision.duplicate-name"

def phase : Fault → Phase
  | malformedLine _ | badRange _ _ | badValue _ _ _ | unknownToken _ => .parser
  | overspecified _ | incompleteCoverage _ => .coverage
  | overlap _ | duplicateName => .collision

def message : Fault → String
  | malformedLine tokens =>
    "malformed definition: expected a mnemonic and at least one token, found " ++
      tokens.repr ++ " token(s)"
  | badRange high low => "bad range " ++ high.repr ++ ".." ++ low.repr
  | badValue text high low =>
    "bad value " ++ text ++ " for range " ++ high.repr ++ ".." ++ low.repr
  | unknownToken text => "unknown token " ++ text
  | overspecified bits =>
    "overspecified: bits " ++ bits.paddedHex ++ " claimed more than once"
  | incompleteCoverage coverage =>
    "not all bits are covered: " ++ coverage.paddedBinary ++
      " (missing " ++ Word.paddedHex (~~~coverage) ++ ")"
  | overlap other => "overlaps with " ++ other
  | duplicateName => "instruction defined more than once"

end Fault

end OpcodeTable
