import Mathlib.Data.List.Induction
import OpcodeTable.Proofs.Listing.Definitions
import OpcodeTable.Proofs.Token.Runs

namespace OpcodeTable

section TakeWhile

variable {α : Type} {p : α → Bool} {x : α}

theorem takeWhile_concat_of_neg (hx : p x = false) (xs : List α) :
    (xs ++ [x]).takeWhile p = xs.takeWhile p := by
  induction xs with
  | nil => simp [hx]
  | cons y ys ih => cases hy : p y <;> simp [hy, ih]

theorem dropWhile_concat_of_neg (hx : p x = false) (xs : List α) :
    (xs ++ [x]).dropWhile p = xs.dropWhile p ++ [x] := by
  induction xs with
  | nil => simp [hx]
  | cons y ys ih => cases hy : p y <;> simp [hy, ih]

end TakeWhile

namespace Scanner

variable {s s' : Scanner} {t : Token} {c : Char}

def concat (s : Scanner) (c : Char) : Scanner := { s with rest := s.rest ++ [c] }

theorem takeWord_concat (hc : Text.isBlank c = true) (s : Scanner) :
    (s.concat c).takeWord = (s.takeWord.1, s.takeWord.2.concat c) := by
  have hword : Token.isWordChar c = false := by simp [Token.isWordChar, hc]
  simp only [takeWord, concat, takeWhile_concat_of_neg hword, dropWhile_concat_of_neg hword]

theorem skipBlanks_concat {x : Char} {xs : List Char} (h : s.skipBlanks.rest = x :: xs) (c : Char) :
    (s.concat c).skipBlanks = s.skipBlanks.concat c := by
  have hrest : s.rest.dropWhile Text.isBlank = x :: xs := h
  have htaken : (s.rest ++ [c]).takeWhile Text.isBlank = s.rest.takeWhile Text.isBlank := by
    have hx : Text.isBlank x = false := head?_dropWhile_eq_false _ s.rest x (by simp [hrest])
    have hgap : ∀ y ∈ s.rest.takeWhile Text.isBlank, Text.isBlank y = true :=
      fun y => List.mem_takeWhile_imp
    have hsplit : s.rest ++ [c] = s.rest.takeWhile Text.isBlank ++ x :: (xs ++ [c]) := by
      rw [← List.cons_append, ← hrest, ← List.append_assoc, List.takeWhile_append_dropWhile]
    rw [hsplit, Text.takeWhile_append_of_head? hgap (by simpa using hx)]
  simp only [skipBlanks, concat, htaken, List.dropWhile_append, hrest, List.isEmpty_cons]
  rfl

theorem next_concat_of_none (hc : Text.isBlank c = true) (h : s.next = (none, s')) :
    ∃ u, (s.concat c).next = (none, u) := by
  obtain ⟨-, hmark⟩ := skipBlanks_of_next_none h
  cases hrest : s.skipBlanks.rest with
  | nil =>
    have hnil : (s.concat c).skipBlanks.rest = [] := by
      have hdropped : s.rest.dropWhile Text.isBlank = [] := hrest
      simp [skipBlanks, concat, List.dropWhile_append, hdropped, hc]
    exact ⟨_, by rw [next, hnil]⟩
  | cons x xs =>
    obtain rfl : x = '#' := hmark x (by simp [hrest])
    refine ⟨s.skipBlanks.concat c, ?_⟩
    rw [next, skipBlanks_concat hrest, concat, hrest]
    rfl

theorem next_concat_of_some (hc : Text.isBlank c = true) (h : s.next = (some t, s')) :
    (s.concat c).next = (some t, s'.concat c) := by
  have hword := takeWord_of_next h
  simp only [next] at h
  split at h
  next => cases h
  next x xs hrest =>
    split at h
    next => cases h
    next hmark =>
      rw [next, skipBlanks_concat hrest, takeWord_concat hc, hword, concat, hrest]
      simp [hmark, concat]

theorem tokens_concat (hc : Text.isBlank c = true) (s : Scanner) :
    (s.concat c).tokens = s.tokens := by
  fun_induction tokens s with
  | case1 s s' hnext =>
    obtain ⟨u, hu⟩ := next_concat_of_none hc hnext
    exact tokens_of_next_none hu
  | case2 s t s' hnext ih => rw [tokens_of_next_some (next_concat_of_some hc hnext), ih]

end Scanner

theorem Token.scan_concat {c : Char} (hc : Text.isBlank c = true) (number : Nat) (cs : List Char) :
    scan number (String.ofList (cs ++ [c])) = scan number (String.ofList cs) := by
  rw [scan, scan, String.toList_ofList, String.toList_ofList]
  exact Scanner.tokens_concat hc ⟨cs, number, 1⟩

namespace Text

def Blank (s : String) : Prop := ∀ c ∈ s.toList, isBlank c = true

def Ended (s : String) : Prop := s = "" ∨ s.toList.getLast? = some '\n'

-- The characters of the text are gone through, and not all characters that there are.
instance (s : String) : Decidable (Blank s) :=
  decidable_of_iff (s.toList.all isBlank) (by simp [Blank])

/-- A line that is put behind a text. There may be blanks around it, and those before it end a line
of the text that is still open. -/
structure Addition (text : String) where
  close : String := ""
  line : String
  stop : String := ""
  close_blank : Blank close
  ended : Ended (text ++ close)
  line_free : '\n' ∉ line.toList
  stop_blank : Blank stop

theorem exists_splitOn_append (cs : List Char) :
    ∃ init last, '\n' ∉ last ∧ ∀ ds, (cs ++ ds).splitOn '\n' = init ++ (last ++ ds).splitOn '\n' := by
  induction cs using List.reverseRecOn with
  | nil => exact ⟨[], [], List.not_mem_nil, fun ds => rfl⟩
  | append_singleton cs c ih =>
    obtain ⟨init, last, hlast, hsplit⟩ := ih
    by_cases hc : c = '\n'
    · subst hc
      refine ⟨init ++ [last], [], List.not_mem_nil, fun ds => ?_⟩
      rw [List.append_assoc, hsplit, List.singleton_append,
        List.splitOn_append_cons_self_of_not_mem hlast]
      simp
    · refine ⟨init, last ++ [c], by simp [hlast, Ne.symm hc], fun ds => ?_⟩
      rw [List.append_assoc, hsplit, List.append_assoc]

theorem linesOfPieces_append {α : Type} [DecidableEq α] {mark : α} {ys : List (List α)}
    (hys : ys ≠ []) (xs : List (List α)) :
    linesOfPieces mark (xs ++ ys) = xs.map (dropEnd mark) ++ linesOfPieces mark ys := by
  induction xs with
  | nil => rfl
  | cons x xs ih =>
    obtain ⟨z, zs, hzs⟩ := List.exists_cons_of_ne_nil (List.append_ne_nil_of_right_ne_nil xs hys)
    rw [List.cons_append, hzs, linesOfPieces, ← hzs, ih]
    rfl

theorem linesOf_append {base : String} (h : Ended base) (text : String) :
    linesOf (base ++ text) = linesOf base ++ linesOf text := by
  obtain rfl | hfeed := h
  · rw [String.empty_append]
    rfl
  · obtain ⟨cs, hcs⟩ := List.getLast?_eq_some_iff.1 hfeed
    obtain ⟨init, last, hlast, hsplit⟩ := exists_splitOn_append cs
    have hpieces (ds : List Char) :
        linesOfPieces '\r' ((base.toList ++ ds).splitOn '\n') =
          (init ++ [last]).map (dropEnd '\r') ++ linesOfPieces '\r' (ds.splitOn '\n') := by
      rw [hcs, List.append_assoc, List.singleton_append, hsplit,
        List.splitOn_append_cons_self_of_not_mem hlast, List.append_cons,
        linesOfPieces_append (List.splitOn_ne_nil _ _)]
    have hbase := hpieces []
    rw [List.append_nil] at hbase
    rw [linesOf, linesOf, linesOf, String.toList_append, hpieces, hbase]
    simp [linesOfPieces]

theorem linesOf_of_not_mem {line : String} (hne : line ≠ "") (h : '\n' ∉ line.toList) :
    linesOf line = [line] := by
  rw [linesOf, List.splitOn_eq_singleton h, linesOfPieces, if_neg (by simpa using hne)]
  simp

namespace Addition

variable {text : String}

def added (a : Addition text) : String := a.close ++ a.line ++ a.stop

def number (a : Addition text) : Nat := (linesOf (text ++ a.close)).length + 1

end Addition

end Text

theorem Token.scan_dropEnd (number : Nat) (cs : List Char) :
    scan number (String.ofList (Text.dropEnd '\r' cs)) = scan number (String.ofList cs) := by
  rw [Text.dropEnd]
  split
  next hlast =>
    obtain ⟨ds, rfl⟩ := List.getLast?_eq_some_iff.1 hlast
    rw [List.dropLast_concat, scan_concat rfl]
  next => rfl

namespace Listing

theorem definitionsFrom_append (number : Nat) (xs ys : List String) :
    definitionsFrom number (xs ++ ys) =
      definitionsFrom number xs ++ definitionsFrom (number + xs.length) ys := by
  induction xs generalizing number with
  | nil => rfl
  | cons x xs ih =>
    rw [List.cons_append, definitionsFrom, definitionsFrom, ih, List.length_cons, Nat.add_assoc,
      Nat.add_comm 1]
    cases Definition.ofLine? number x <;> rfl

theorem definitionsFrom_singleton (number : Nat) (line : String) :
    definitionsFrom number [line] = (Definition.ofLine? number line).toList := by
  rw [definitionsFrom]
  cases Definition.ofLine? number line <;> rfl

theorem definitionsFrom_linesOfPieces (number : Nat) (piece : List Char) :
    definitionsFrom number ((Text.linesOfPieces '\r' [piece]).map String.ofList) =
      (Definition.ofLine? number (String.ofList piece)).toList := by
  rw [Text.linesOfPieces]
  split
  next hpiece =>
    have hnone : Definition.ofLine? number "" = none :=
      Definition.ofLine?_eq_none_iff.2 (Token.scan_empty number)
    rw [hpiece, String.ofList_nil, hnone]
    rfl
  next => exact definitionsFrom_singleton number _

theorem definitions_concat {c : Char} (hc : Text.isBlank c = true) (cs : List Char) :
    definitions (String.ofList (cs ++ [c])) = definitions (String.ofList cs) := by
  obtain ⟨init, last, hlast, hsplit⟩ := Text.exists_splitOn_append cs
  have hlines (ds : List Char) : Text.linesOf (String.ofList (cs ++ ds)) =
      (init.map (Text.dropEnd '\r')).map String.ofList ++
        (Text.linesOfPieces '\r' ((last ++ ds).splitOn '\n')).map String.ofList := by
    rw [Text.linesOf, String.toList_ofList, hsplit,
      Text.linesOfPieces_append (List.splitOn_ne_nil _ _), List.map_append]
  have hopen := hlines []
  rw [List.append_nil, List.append_nil, List.splitOn_eq_singleton hlast] at hopen
  rw [definitions, definitions, hlines, hopen, definitionsFrom_append, definitionsFrom_append,
    definitionsFrom_linesOfPieces]
  congr 1
  -- A line feed ends the last line, any other blank stands on it.
  by_cases hfeed : c = '\n'
  · rw [hfeed, List.splitOn_append_cons_self_of_not_mem hlast, List.splitOn_nil]
    simp only [Text.linesOfPieces, if_true, List.map_cons, List.map_nil, definitionsFrom_singleton,
      Definition.ofLine?, Token.scan_dropEnd]
  · rw [List.splitOn_eq_singleton (by simp [hlast, Ne.symm hfeed]), definitionsFrom_linesOfPieces]
    simp only [Definition.ofLine?, Token.scan_concat hc]

theorem definitions_append_of_blank {stop : String} (h : Text.Blank stop) (text : String) :
    definitions (text ++ stop) = definitions text := by
  rw [← String.ofList_toList (s := text), ← String.ofList_toList (s := stop), ← String.ofList_append]
  unfold Text.Blank at h
  generalize stop.toList = cs at h ⊢
  induction cs using List.reverseRecOn with
  | nil => rw [List.append_nil]
  | append_singleton cs c ih =>
    rw [List.forall_mem_append, List.forall_mem_singleton] at h
    rw [← List.append_assoc, definitions_concat h.2, ih h.1]

theorem definitions_addition {text : String} {d : Definition} (a : Text.Addition text)
    (hd : Definition.ofLine? a.number a.line = some d) :
    definitions (text ++ a.added) = definitions text ++ [d] := by
  have hne : a.line ≠ "" := by
    intro hempty
    rw [hempty, Definition.ofLine?_eq_none_iff.2 (Token.scan_empty _)] at hd
    cases hd
  rw [Text.Addition.added, ← String.append_assoc, ← String.append_assoc,
    definitions_append_of_blank a.stop_blank, definitions, Text.linesOf_append a.ended,
    Text.linesOf_of_not_mem hne a.line_free, definitionsFrom_append, definitionsFrom_singleton,
    Nat.add_comm 1]
  change definitions (text ++ a.close) ++ (Definition.ofLine? a.number a.line).toList = _
  rw [hd, definitions_append_of_blank a.close_blank]
  rfl

end Listing

end OpcodeTable
