import OpcodeTable.Diagnostic
import OpcodeTable.Text.Split

namespace OpcodeTable

structure Token where
  text : String
  line : Nat
  column : Nat
  deriving DecidableEq, Repr

namespace Token

def span (t : Token) (path : String) : Span where
  path := path
  start := ⟨t.line, t.column⟩
  stop := ⟨t.line, t.column + t.text.length⟩

def commentMark : Char := '#'

def isWordChar (c : Char) : Bool := !Text.isBlank c && c != commentMark

end Token

structure Scanner where
  rest : List Char
  line : Nat
  column : Nat := 1
  deriving DecidableEq, Repr

namespace Scanner

def skipBlanks (s : Scanner) : Scanner :=
  { s with
    rest := s.rest.dropWhile Text.isBlank
    column := s.column + (s.rest.takeWhile Text.isBlank).length }

def takeWord (s : Scanner) : Token × Scanner :=
  let word := s.rest.takeWhile Token.isWordChar
  (⟨String.ofList word, s.line, s.column⟩,
    { s with
      rest := s.rest.dropWhile Token.isWordChar
      column := s.column + word.length })

def next (s : Scanner) : Option Token × Scanner :=
  let s := s.skipBlanks
  match s.rest with
  | [] => (none, s)
  | c :: _ =>
    if c = Token.commentMark then (none, s)
    else (some s.takeWord.1, s.takeWord.2)

theorem length_next_lt {s s' : Scanner} {t : Token} (h : s.next = (some t, s')) :
    s'.rest.length < s.rest.length := by
  have hskip : s.skipBlanks.rest.length ≤ s.rest.length :=
    (List.dropWhile_suffix Text.isBlank).length_le
  simp only [next] at h
  split at h
  · simp at h
  next c cs hrest =>
    split at h
    · simp at h
    next hmark =>
      have hblank : Text.isBlank c = false := by
        have := List.head?_dropWhile_not Text.isBlank s.rest
        simp only [skipBlanks] at hrest
        rw [hrest] at this
        simpa using this
      have hword : Token.isWordChar c = true := by
        simp [Token.isWordChar, hblank, hmark]
      have htail : (cs.dropWhile Token.isWordChar).length ≤ cs.length :=
        (List.dropWhile_suffix Token.isWordChar).length_le
      obtain ⟨-, rfl⟩ := Prod.mk.inj h
      simp only [takeWord, hrest, List.dropWhile_cons, hword, if_true]
      rw [hrest, List.length_cons] at hskip
      omega

def tokens (s : Scanner) : List Token :=
  match _ : s.next with
  | (none, _) => []
  | (some t, s') => t :: s'.tokens
termination_by s.rest.length
decreasing_by exact length_next_lt ‹_›

end Scanner

def Token.scan (line : Nat) (text : String) : List Token :=
  Scanner.tokens { rest := text.toList, line }

end OpcodeTable
