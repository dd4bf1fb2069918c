import OpcodeTable.Proofs.Token.Runs

/-!
Scanning by byte offsets. A cursor holds the whole line and counts the bytes that it has passed; it
cuts the line at its offset again and again, and no cut ever goes through a character. It finds the
tokens that the scanner finds.
-/

namespace OpcodeTable

/-- The text before byte `k` and the text from there on. There is no such cut inside a character or
behind the end. -/
def Text.cutAt? (text : String) (k : Nat) : Option (String × String) :=
  let bytes := text.toUTF8.data.toList
  if k ≤ bytes.length then do return (← ofBytes? (bytes.take k), ← ofBytes? (bytes.drop k)) else none

theorem Text.cutAt?_length {text : String} {before after : List Char}
    (h : text.toList = before ++ after) :
    cutAt? text (toBytes before).length = some (String.ofList before, String.ofList after) := by
  have hbytes : text.toUTF8.data.toList = toBytes before ++ toBytes after := by
    rw [toList_toUTF8, h, toBytes_append]
  have hread (cs : List Char) : ofBytes? (toBytes cs) = some (String.ofList cs) := by
    rw [ofBytes?_eq_some_iff, String.toList_ofList]
  rw [cutAt?, hbytes, if_pos (by simp), List.take_left, List.drop_left, hread, hread]
  rfl

structure Cursor where
  text : String
  line : Nat
  offset : Nat := 0
  column : Nat := 1

namespace Cursor

def peek (c : Cursor) : Option (Option Char) := do
  let (_, rest) ← Text.cutAt? c.text c.offset
  return rest.toList.head?

def advance (c : Cursor) (x : Char) : Cursor :=
  { c with offset := c.offset + x.utf8Size, column := c.column + 1 }

theorem offset_lt_of_peek {c : Cursor} {x : Char} (h : c.peek = some (some x)) :
    c.offset < c.text.toUTF8.data.toList.length := by
  obtain ⟨⟨passed, rest⟩, hcut, hrest⟩ := Option.bind_eq_some_iff.1 h
  have hhead : rest.toList.head? = some x := Option.some.inj hrest
  unfold Text.cutAt? at hcut
  dsimp only at hcut
  split at hcut
  next hle =>
    obtain ⟨_, -, hcut⟩ := Option.bind_eq_some_iff.1 hcut
    obtain ⟨_, hdrop, hpair⟩ := Option.bind_eq_some_iff.1 hcut
    cases hpair
    rw [Text.ofBytes?_eq_some_iff] at hdrop
    refine Nat.lt_of_le_of_ne hle fun heq => ?_
    rw [heq, List.drop_length, eq_comm, Text.toBytes_eq_nil_iff] at hdrop
    rw [hdrop] at hhead
    cases hhead
  next => cases hcut

def skip (p : Char → Bool) (c : Cursor) : Option Cursor :=
  match _ : c.peek with
  | none => none
  | some none => some c
  | some (some x) => if p x then (c.advance x).skip p else some c
termination_by c.text.toUTF8.data.toList.length - c.offset
decreasing_by
  have hlt := offset_lt_of_peek ‹_›
  have hpos := x.utf8Size_pos
  simp only [advance]
  omega

theorem skip_of_end {p : Char → Bool} {c : Cursor} (h : c.peek = some none) :
    c.skip p = some c := by
  rw [skip]
  split
  next hnone =>
    rw [h] at hnone
    cases hnone
  next => rfl
  next hsome =>
    rw [h] at hsome
    cases hsome

theorem skip_of_char {p : Char → Bool} {c : Cursor} {x : Char} (h : c.peek = some (some x)) :
    c.skip p = if p x then (c.advance x).skip p else some c := by
  rw [skip]
  split
  next hnone =>
    rw [h] at hnone
    cases hnone
  next hend =>
    rw [h] at hend
    cases hend
  next hsome =>
    rw [h] at hsome
    cases hsome
    rfl

def takeWord (c : Cursor) : Option (Token × Cursor) := do
  let c' ← c.skip Token.isWordChar
  let (passed, _) ← Text.cutAt? c.text c'.offset
  let (_, word) ← Text.cutAt? passed c.offset
  return (⟨word, c.line, c.column⟩, c')

def next (c : Cursor) : Option (Option Token × Cursor) := do
  let c ← c.skip Text.isBlank
  match ← c.peek with
  | none => return (none, c)
  | some x =>
    if x = Token.commentMark then return (none, c)
    let (t, c') ← c.takeWord
    return (some t, c')

def after (c : Cursor) : Nat → Option Cursor
  | 0 => some c
  | k + 1 => do
    let (_, c') ← c.next
    c'.after k

def answer (c : Cursor) (k : Nat) : Option (Option Token) := do
  let c' ← c.after k
  let (t, _) ← c'.next
  return t

end Cursor

def Scanner.pass (p : Char → Bool) (s : Scanner) : Scanner :=
  { s with
    rest := s.rest.dropWhile p
    column := s.column + (s.rest.takeWhile p).length }

theorem Scanner.pass_of_takeWhile_eq_nil {p : Char → Bool} {s : Scanner}
    (h : s.rest.takeWhile p = []) : s.pass p = s := by
  have hrest := List.takeWhile_append_dropWhile (l := s.rest) (p := p)
  rw [h, List.nil_append] at hrest
  rw [pass, h, hrest]
  rfl

theorem Scanner.pass_of_rest_eq_cons {p : Char → Bool} {s : Scanner} {x : Char} {xs : List Char}
    (h : s.rest = x :: xs) (hx : p x = true) :
    s.pass p = { s with rest := xs, column := s.column + 1 : Scanner }.pass p := by
  simp only [pass, h, List.dropWhile_cons_of_pos hx, List.takeWhile_cons_of_pos hx,
    List.length_cons]
  rw [Nat.add_right_comm, Nat.add_assoc]

namespace Cursor

/-- The cursor and the scanner stand at the same place: between characters, with the same number of
them behind. -/
structure Shows (c : Cursor) (before : List Char) (s : Scanner) : Prop where
  text_eq : c.text.toList = before ++ s.rest
  offset_eq : c.offset = (Text.toBytes before).length
  line_eq : c.line = s.line
  column_eq : c.column = s.column

namespace Shows

variable {c : Cursor} {before : List Char} {s : Scanner}

theorem cutAt?_eq (h : c.Shows before s) :
    Text.cutAt? c.text c.offset = some (String.ofList before, String.ofList s.rest) := by
  rw [h.offset_eq, Text.cutAt?_length h.text_eq]

theorem peek_eq (h : c.Shows before s) : c.peek = some s.rest.head? := by
  rw [peek, h.cutAt?_eq]
  exact congrArg (fun cs => some (List.head? cs)) String.toList_ofList

theorem advance {x : Char} {xs : List Char} (h : c.Shows before s) (hrest : s.rest = x :: xs) :
    (c.advance x).Shows (before ++ [x]) { s with rest := xs, column := s.column + 1 } where
  text_eq := by
    rw [List.append_assoc, List.singleton_append, ← hrest]
    exact h.text_eq
  offset_eq := by
    simp [Cursor.advance, h.offset_eq]
  line_eq := h.line_eq
  column_eq := congrArg (· + 1) h.column_eq

theorem stay {p : Char → Bool} (h : c.Shows before s) (hp : s.rest.takeWhile p = []) :
    c.Shows (before ++ s.rest.takeWhile p) (s.pass p) := by
  rw [hp, List.append_nil, Scanner.pass_of_takeWhile_eq_nil hp]
  exact h

theorem skip (p : Char → Bool) (h : c.Shows before s) :
    ∃ c', c.skip p = some c' ∧ c'.text = c.text ∧
      c'.Shows (before ++ s.rest.takeWhile p) (s.pass p) := by
  induction hrest : s.rest generalizing c before s with
  | nil =>
    have hpeek : c.peek = some none := by
      rw [h.peek_eq, hrest]
      rfl
    rw [← hrest]
    exact ⟨c, skip_of_end hpeek, rfl, h.stay (by simp [hrest])⟩
  | cons x xs ih =>
    have hpeek : c.peek = some (some x) := by
      rw [h.peek_eq, hrest]
      rfl
    cases hx : p x with
    | true =>
      obtain ⟨c', hc', htext, hshows⟩ := ih (h.advance hrest) rfl
      refine ⟨c', ?_, htext, ?_⟩
      · rw [skip_of_char hpeek, if_pos hx, hc']
      · rw [Scanner.pass_of_rest_eq_cons hrest hx, List.takeWhile_cons_of_pos hx]
        simpa using hshows
    | false =>
      refine ⟨c, ?_, rfl, ?_⟩
      · rw [skip_of_char hpeek, if_neg (by simp [hx])]
      · rw [← hrest]
        exact h.stay (by simp [hrest, hx])

theorem takeWord (h : c.Shows before s) :
    ∃ c' before', c.takeWord = some (s.takeWord.1, c') ∧ c'.Shows before' s.takeWord.2 := by
  obtain ⟨c', hskip, htext, hshows⟩ := h.skip Token.isWordChar
  refine ⟨c', _, ?_, hshows⟩
  have hpassed := hshows.cutAt?_eq
  rw [htext] at hpassed
  have hword : Text.cutAt? (String.ofList (before ++ s.rest.takeWhile Token.isWordChar)) c.offset =
      some (String.ofList before, String.ofList (s.rest.takeWhile Token.isWordChar)) := by
    rw [h.offset_eq, Text.cutAt?_length String.toList_ofList]
  rw [Cursor.takeWord, hskip, Option.bind_eq_bind, Option.bind_some, hpassed, Option.bind_eq_bind,
    Option.bind_some]
  dsimp only
  rw [hword, h.line_eq, h.column_eq]
  rfl

theorem next (h : c.Shows before s) :
    ∃ c' before', c.next = some (s.next.1, c') ∧ c'.Shows before' s.next.2 := by
  obtain ⟨c₁, hskip, -, hshows⟩ := h.skip Text.isBlank
  have hblanks : s.pass Text.isBlank = s.skipBlanks := rfl
  rw [hblanks] at hshows
  rw [Cursor.next, hskip, Option.bind_eq_bind, Option.bind_some, hshows.peek_eq,
    Option.bind_eq_bind, Option.bind_some, Scanner.next]
  dsimp only
  cases hrest : s.skipBlanks.rest with
  | nil => exact ⟨c₁, _, rfl, hshows⟩
  | cons x xs =>
    by_cases hx : x = Token.commentMark
    · simp only [List.head?_cons, hx, if_true]
      exact ⟨c₁, _, rfl, hshows⟩
    · obtain ⟨c₂, before₂, hword, hshows₂⟩ := hshows.takeWord
      simp only [List.head?_cons, hx, if_false, hword]
      exact ⟨c₂, before₂, rfl, hshows₂⟩

theorem after (h : c.Shows before s) (k : Nat) :
    ∃ c' before', c.after k = some c' ∧ c'.Shows before' (s.after k) := by
  induction k generalizing c before s with
  | zero => exact ⟨c, before, rfl, h⟩
  | succ k ih =>
    obtain ⟨c₁, before₁, hnext, hshows⟩ := h.next
    rw [Cursor.after, hnext]
    exact ih hshows

theorem answer_eq (h : c.Shows before s) (k : Nat) : c.answer k = some (s.answer k) := by
  obtain ⟨c₁, before₁, hafter, hshows⟩ := h.after k
  obtain ⟨c₂, before₂, hnext, -⟩ := hshows.next
  rw [answer, hafter, Option.bind_eq_bind, Option.bind_some, hnext]
  rfl

end Shows

end Cursor

namespace Token

/-- The tokens of a text are exactly its runs of characters that are neither blank nor the comment
mark, up to the comment and as long as they can be, in order and each in its column. Calls of the
scanner give them one by one and then nothing any more; and so do calls that go by byte offsets, of
which none ever cuts a character. -/
theorem scan_exact (number : Nat) (text : String) :
    (∀ t, t ∈ scan number text ↔ ∃ before word after,
        Text.MaximalRun isWordChar (text.toList.takeWhile (· ≠ '#')) before word after ∧
          t = ⟨String.ofList word, number, 1 + before.length⟩) ∧
      (scan number text).Pairwise (fun t u => t.column < u.column) ∧
      (∀ k, Scanner.answer { rest := text.toList, line := number } k = (scan number text)[k]?) ∧
      ∀ k, Cursor.answer { text, line := number } k = some (scan number text)[k]? := by
  have hstart : Cursor.Shows { text, line := number } [] { rest := text.toList, line := number } :=
    ⟨rfl, rfl, rfl, rfl⟩
  refine ⟨fun t => mem_scan_iff, Scanner.pairwise_column_tokens _, Scanner.answer_eq _, fun k => ?_⟩
  rw [hstart.answer_eq, Scanner.answer_eq]
  rfl

example : scan 1 "\u00a0é x#y" = [⟨"é", 1, 2⟩, ⟨"x", 1, 4⟩] := by decide +kernel

end Token

end OpcodeTable
