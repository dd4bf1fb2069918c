import OpcodeTable.Diagnostic
import OpcodeTable.Operand
import OpcodeTable.Token

namespace OpcodeTable

def pseudoMark : Char := '@'

def Instruction.nameOfMnemonic (text : String) : String × Bool :=
  match text.toList with
  | [] => (text, false)
  | c :: cs => if c = pseudoMark then (String.ofList cs, true) else (text, false)

namespace Draft

def ofMnemonic (path : String) (t : Token) : Draft where
  name := (Instruction.nameOfMnemonic t.text).1
  isPseudo := (Instruction.nameOfMnemonic t.text).2
  span := some (t.span path)

def addToken (d : Draft) (t : Token) : Except Fault Draft := do
  let operand ← Operand.ofText t.text
  d.perform operand.edit

def addTokens (path : String) (d : Draft) : List Token → Except Rejection Draft
  | [] => .ok d
  | t :: ts =>
    match d.addToken t with
    | .ok d' => addTokens path d' ts
    | .error fault => .error ⟨d.name, fault, some (t.span path)⟩

def ofTokens (path : String) : List Token → Except Rejection (Option Draft)
  | [] => .ok none
  | [t] =>
    .error ⟨(ofMnemonic path t).name, .malformedLine 1, (ofMnemonic path t).span⟩
  | t :: operands => ((ofMnemonic path t).addTokens path operands).map some

def ofLine (path : String) (number : Nat) (text : String) : Except Rejection (Option Draft) :=
  ofTokens path (Token.scan number text)

end Draft

end OpcodeTable
