import OpcodeTable.Proofs.Text.Lines

namespace OpcodeTable

def replaceLines {α : Type} (blank : α) (ks : List Nat) (number : Nat) : List α → List α
  | [] => []
  | line :: rest => (if number ∈ ks then blank else line) :: replaceLines blank ks (number + 1) rest

theorem map_replaceLines {α β : Type} (f : α → β) (blank : α) (ks : List Nat) (number : Nat)
    (lines : List α) :
    (replaceLines blank ks number lines).map f =
      replaceLines (f blank) ks number (lines.map f) := by
  induction lines generalizing number with
  | nil => rfl
  | cons line rest ih => by_cases h : number ∈ ks <;> simp [replaceLines, h, ih]

@[simp] theorem length_replaceLines {α : Type} (blank : α) (ks : List Nat) (number : Nat)
    (lines : List α) : (replaceLines blank ks number lines).length = lines.length := by
  induction lines generalizing number with
  | nil => rfl
  | cons line rest ih => simp [replaceLines, ih]

theorem replaceLines_append {α : Type} (blank : α) (ks : List Nat) (number : Nat)
    (xs ys : List α) :
    replaceLines blank ks number (xs ++ ys) =
      replaceLines blank ks number xs ++ replaceLines blank ks (number + xs.length) ys := by
  induction xs generalizing number with
  | nil => rfl
  | cons x xs ih =>
    rw [List.cons_append, replaceLines, ih, Nat.add_assoc, Nat.add_comm 1]
    rfl

namespace Text

def endedLines : List UInt8 → List (List UInt8)
  | [] => []
  | b :: bs =>
    if b = lineFeed then [lineFeed] :: endedLines bs
    else
      match endedLines bs with
      | [] => [[b]]
      | line :: rest => (b :: line) :: rest

def content (line : List UInt8) : List UInt8 :=
  if line.getLast? = some lineFeed then dropReturn line.dropLast else line

/-- The lines of some file: a line feed ends every one of them and stands nowhere else, but the last
line may do without. -/
inductive EndedLines : List (List UInt8) → Prop
  | nil : EndedLines []
  | last {line : List UInt8} : line ≠ [] → lineFeed ∉ line → EndedLines [line]
  | cons {line : List UInt8} {rest : List (List UInt8)} :
    lineFeed ∉ line → EndedLines rest → EndedLines ((line ++ [lineFeed]) :: rest)

theorem content_of_not_mem {line : List UInt8} (h : lineFeed ∉ line) : content line = line := by
  rw [content, if_neg fun hlast => h (List.mem_of_getLast? hlast)]

@[simp] theorem content_concat (line : List UInt8) :
    content (line ++ [lineFeed]) = dropReturn line := by
  simp [content]

theorem lines_of_not_mem {line : List UInt8} (hne : line ≠ []) (h : lineFeed ∉ line) :
    lines line = [line] := by
  rw [lines_eq, List.splitOn_eq_singleton h, linesOfPieces, if_neg hne]

theorem lines_append {line rest : List UInt8} (h : lineFeed ∉ line) :
    lines (line ++ lineFeed :: rest) = dropReturn line :: lines rest := by
  rw [lines_eq, lines_eq, List.splitOn_append_cons_self_of_not_mem h]
  cases hrest : rest.splitOn lineFeed with
  | nil => exact absurd hrest (List.splitOn_ne_nil _ _)
  | cons piece pieces => rfl

theorem EndedLines.lines_flatten {ls : List (List UInt8)} (h : EndedLines ls) :
    lines ls.flatten = ls.map content := by
  induction h with
  | nil => simp [lines]
  | last hne hfree => simpa [content_of_not_mem hfree] using lines_of_not_mem hne hfree
  | cons hfree _ ih => simp [ih, lines_append hfree]

theorem EndedLines.take {ls : List (List UInt8)} (h : EndedLines ls) (k : Nat) :
    EndedLines (ls.take k) := by
  induction h generalizing k with
  | nil => simpa using nil
  | last hne hfree =>
    cases k with
    | zero => exact nil
    | succ k => simpa using last hne hfree
  | cons hfree _ ih =>
    cases k with
    | zero => exact nil
    | succ k => exact cons hfree (ih k)

theorem EndedLines.replace {ls : List (List UInt8)} (h : EndedLines ls) (ks : List Nat)
    (number : Nat) : EndedLines (replaceLines [lineFeed] ks number ls) := by
  have hblank {rest : List (List UInt8)} (hrest : EndedLines rest) :
      EndedLines ([lineFeed] :: rest) := cons List.not_mem_nil hrest
  induction h generalizing number with
  | nil => exact nil
  | last hne hfree =>
    by_cases hk : number ∈ ks
    · simpa [replaceLines, hk] using hblank nil
    · simpa [replaceLines, hk] using last hne hfree
  | cons hfree _ ih =>
    by_cases hk : number ∈ ks
    · simpa [replaceLines, hk] using hblank (ih (number + 1))
    · simpa [replaceLines, hk] using cons hfree (ih (number + 1))

theorem flatten_endedLines (bytes : List UInt8) : (endedLines bytes).flatten = bytes := by
  induction bytes with
  | nil => rfl
  | cons b bs ih =>
    rw [endedLines]
    split
    next hb => simp [ih, hb]
    next hb =>
      cases hbs : endedLines bs with
      | nil => simpa [hbs] using ih
      | cons line rest => simpa [hbs] using ih

theorem endedLines_spec (bytes : List UInt8) : EndedLines (endedLines bytes) := by
  induction bytes with
  | nil => exact .nil
  | cons b bs ih =>
    rw [endedLines]
    split
    · exact .cons List.not_mem_nil ih
    next hb =>
      cases hbs : endedLines bs with
      | nil => exact .last (List.cons_ne_nil b []) (by simpa using Ne.symm hb)
      | cons line rest =>
        rw [hbs] at ih
        cases ih with
        | last hne hfree => exact .last (List.cons_ne_nil b line) (by simp [Ne.symm hb, hfree])
        | @cons line _ hfree hrest =>
          have hfree' : lineFeed ∉ b :: line := by simp [Ne.symm hb, hfree]
          exact .cons hfree' hrest

theorem map_content_endedLines (bytes : List UInt8) :
    (endedLines bytes).map content = lines bytes := by
  rw [← (endedLines_spec bytes).lines_flatten, flatten_endedLines]

/-- The file with the lines in `ks` emptied. Every other line stays as it is. -/
def emptyLines (ks : List Nat) (bytes : List UInt8) : List UInt8 :=
  (replaceLines [lineFeed] ks 1 (endedLines bytes)).flatten

def takeLines (k : Nat) (bytes : List UInt8) : List UInt8 := ((endedLines bytes).take k).flatten

theorem lines_emptyLines (ks : List Nat) (bytes : List UInt8) :
    lines (emptyLines ks bytes) = replaceLines [] ks 1 (lines bytes) := by
  rw [emptyLines, ((endedLines_spec bytes).replace ks 1).lines_flatten, map_replaceLines,
    map_content_endedLines]
  rfl

theorem lines_takeLines (k : Nat) (bytes : List UInt8) :
    lines (takeLines k bytes) = (lines bytes).take k := by
  rw [takeLines, ((endedLines_spec bytes).take k).lines_flatten, List.map_take,
    map_content_endedLines]

end Text

end OpcodeTable
