namespace OpcodeTable.Text

def isLayout (c : Char) : Bool := c = '\t' || c = '\n' || c = '\x0c' || c = '\r'

def isIntermediate (c : Char) : Bool := decide (' ' ≤ c) && decide (c ≤ '/')

def isParameter (c : Char) : Bool := decide ('0' ≤ c) && decide (c ≤ '?')

def isFinal (c : Char) : Bool := decide ('@' ≤ c) && decide (c ≤ '~')

def hasTerminator (c : Char) : Bool := (String.utf8EncodeChar c).contains 0x9C

/-- Where a text stands with respect to the sequences in it. -/
inductive Sequence
  | outside
  | escape
  | escapeIntermediate
  | control
  | command
  | deviceHead
  | deviceParameters
  | deviceIntermediate
  | string
  deriving DecidableEq, Repr

namespace Sequence

def ofEscaped (c : Char) : Sequence :=
  if c = '[' then control
  else if c = ']' then command
  else if c = 'P' then deviceHead
  else if c = 'X' ∨ c = '^' ∨ c = '_' then string
  else if isIntermediate c then escapeIntermediate
  else if isParameter c || isFinal c || isLayout c then outside
  else escape

/-- Where the text stands after one more character. An escape character opens a sequence anywhere,
and two control characters cancel any. -/
def step (s : Sequence) (c : Char) : Sequence :=
  if c = '\x1b' then escape
  else if c = '\x18' ∨ c = '\x1a' then outside
  else
    match s with
    | outside => outside
    | escape => ofEscaped c
    | escapeIntermediate =>
      if isParameter c || isFinal c || isLayout c then outside else escapeIntermediate
    | control => if isFinal c || isLayout c then outside else control
    | command => if c = '\x07' then outside else command
    | deviceHead =>
      if isIntermediate c then deviceIntermediate
      else if isParameter c then deviceParameters
      else if isFinal c then string
      else deviceHead
    | deviceParameters =>
      if isIntermediate c then deviceIntermediate
      else if '<' ≤ c ∧ c ≤ '~' then string
      else deviceParameters
    | deviceIntermediate => if isParameter c || isFinal c then string else deviceIntermediate
    | string => if hasTerminator c then outside else string

def shows (s : Sequence) (c : Char) : Bool :=
  match s with
  | outside => isLayout c || (decide (' ' ≤ c) && c ≠ '\x7f')
  | escape | escapeIntermediate | control => isLayout c
  | _ => false

def visible : Sequence → List Char → List Char
  | _, [] => []
  | s, c :: cs => if s.shows c then c :: (s.step c).visible cs else (s.step c).visible cs

end Sequence

def visible (text : String) : String := String.ofList (Sequence.outside.visible text.toList)

end OpcodeTable.Text
