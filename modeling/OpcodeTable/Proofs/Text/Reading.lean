import Mathlib.Data.List.Basic
import OpcodeTable.Proofs.Text.Lines
import OpcodeTable.Proofs.Text.Numbers
import OpcodeTable.Text.Split

namespace OpcodeTable.Text

section Marks

variable {mark p q : String}

def after? (mark : String) (cs : List Char) : Option (List Char) := cs.dropPrefix? mark.toList

@[simp] theorem after?_append (mark : String) (cs : List Char) :
    after? mark (mark.toList ++ cs) = some cs :=
  List.dropPrefix?_append_of_beq cs (beq_self_eq_true _)

def Starts (mark line : String) : Prop := mark.toList <+: line.toList

instance : DecidableRel Starts := fun mark line =>
  inferInstanceAs (Decidable (mark.toList <+: line.toList))

theorem after?_eq_none_iff {line : String} :
    after? mark line.toList = none ↔ ¬ Starts mark line := by
  rw [Option.eq_none_iff_forall_ne_some, Starts, List.IsPrefix]
  simp only [after?, ne_eq, List.dropPrefix?_eq_some_iff, beq_iff_eq, not_exists, not_and]
  constructor
  · intro h cs hcs
    exact h cs mark.toList hcs.symm rfl
  · rintro h cs _ hcs rfl
    exact h cs hcs.symm

theorem starts_append (mark s : String) : Starts mark (mark ++ s) := by
  rw [Starts, String.toList_append]
  exact List.prefix_append _ _

def Apart (p q : String) : Prop := ¬ Starts p q ∧ ¬ Starts q p

instance : DecidableRel Apart := fun p q =>
  inferInstanceAs (Decidable (¬ Starts p q ∧ ¬ Starts q p))

theorem Apart.not_starts (h : Apart p q) {line : String} (hp : Starts p line) :
    ¬ Starts q line := by
  intro hq
  cases List.prefix_or_prefix_of_prefix hp hq with
  | inl hpq => exact h.1 hpq
  | inr hqp => exact h.2 hqp

end Marks

theorem cut?_append {c : Char} {xs : List Char} (h : c ∉ xs) (mark ys : List Char) :
    cut? (c :: mark) (xs ++ (c :: mark ++ ys)) = some (xs, ys) := by
  induction xs with
  | nil => simp [cut?]
  | cons x xs ih =>
    rw [List.mem_cons, not_or] at h
    simp only [List.cons_append] at ih
    simp [cut?, ih h.2, h.1]

theorem exists_toList (cs : List Char) : ∃ s : String, s.toList = cs :=
  ⟨String.ofList cs, String.toList_ofList⟩

theorem eq_append_of_cut? {mark cs before after : List Char}
    (h : cut? mark cs = some (before, after)) : cs = before ++ (mark ++ after) := by
  induction cs generalizing before with
  | nil => cases h
  | cons c cs ih =>
    rw [cut?] at h
    split at h
    next hprefix =>
      obtain ⟨rfl, rfl⟩ := Prod.mk.inj (Option.some.inj h)
      obtain ⟨rest, hrest⟩ := List.isPrefixOf_iff_prefix.1 hprefix
      rw [← hrest, List.drop_left, List.nil_append]
    next =>
      obtain ⟨⟨before', after'⟩, hcut, hpair⟩ := Option.map_eq_some_iff.1 h
      obtain ⟨rfl, rfl⟩ := Prod.mk.inj hpair
      rw [ih hcut, List.cons_append]

theorem cut?_eq_none_of_not_mem {c : Char} {cs : List Char} (h : c ∉ cs) (mark : List Char) :
    cut? (c :: mark) cs = none := by
  cases hcut : cut? (c :: mark) cs with
  | none => rfl
  | some parts =>
    have hmem : c ∈ cs := by
      rw [eq_append_of_cut? hcut]
      simp
    exact absurd hmem h

theorem cut?_singleton_eq_some_iff {c : Char} {cs before after : List Char} :
    cut? [c] cs = some (before, after) ↔ c ∉ before ∧ cs = before ++ c :: after := by
  constructor
  · intro h
    refine ⟨?_, eq_append_of_cut? h⟩
    induction cs generalizing before with
    | nil => cases h
    | cons x cs ih =>
      rw [cut?] at h
      split at h
      · obtain ⟨rfl, -⟩ := Prod.mk.inj (Option.some.inj h)
        exact List.not_mem_nil
      next hprefix =>
        obtain ⟨⟨before', after'⟩, hcut, hpair⟩ := Option.map_eq_some_iff.1 h
        obtain ⟨rfl, rfl⟩ := Prod.mk.inj hpair
        rw [List.mem_cons, not_or]
        exact ⟨by simpa using hprefix, ih hcut⟩
  · rintro ⟨h, rfl⟩
    exact cut?_append h [] after

theorem cut?_singleton_eq_none_iff {c : Char} {cs : List Char} : cut? [c] cs = none ↔ c ∉ cs := by
  refine ⟨fun h hmem => ?_, fun h => cut?_eq_none_of_not_mem h []⟩
  obtain ⟨before, after, hcs, hbefore⟩ := List.eq_append_cons_of_mem hmem
  rw [cut?_singleton_eq_some_iff.2 ⟨hbefore, hcs⟩] at h
  cases h

section Blanks

theorem replicate_append_cons {α : Type} (k : Nat) (x : α) (xs : List α) :
    List.replicate k x ++ x :: xs = x :: (List.replicate k x ++ xs) := by
  rw [← List.cons_append, ← List.replicate_succ, List.replicate_succ', List.append_assoc]
  rfl

theorem dropWhile_replicate_append (k : Nat) {c : Char} (hc : c ≠ ' ') (cs : List Char) :
    (List.replicate k ' ' ++ c :: cs).dropWhile (· = ' ') = c :: cs := by
  rw [List.dropWhile_append_of_pos (by simp), List.dropWhile_cons_of_neg (by simpa using hc)]

end Blanks

def OneLine (s : String) : Prop := ∀ c ∈ s.toList, c ≠ '\n' ∧ c ≠ '\r'

def Unbroken (s : String) : Prop := ∀ c ∈ s.toList, isBlank c = false

section OneLine

-- The characters of the text are gone through, and not all characters that there are.
instance (s : String) : Decidable (OneLine s) :=
  decidable_of_iff (s.toList.all fun c => c != '\n' && c != '\r') (by simp [OneLine])

theorem Unbroken.oneLine {s : String} (h : Unbroken s) : OneLine s := by
  intro c hc
  have hblank := h c hc
  constructor
  all_goals
    rintro rfl
    revert hblank
    decide

theorem Unbroken.space_not_mem {s : String} (h : Unbroken s) : ' ' ∉ s.toList :=
  fun hmem => absurd (h ' ' hmem) (by decide)

@[simp] theorem oneLine_append {s t : String} : OneLine (s ++ t) ↔ OneLine s ∧ OneLine t := by
  simp only [OneLine, String.toList_append, List.forall_mem_append]

theorem oneLine_of_bytes {s : String} (hfeed : lineFeed ∉ s.toUTF8.data.toList)
    (hreturn : carriageReturn ∉ s.toUTF8.data.toList) : OneLine s := by
  rw [toList_toUTF8] at hfeed hreturn
  intro c hc
  constructor
  · rintro rfl
    exact hfeed (List.mem_flatMap.2 ⟨'\n', hc, lineFeed_mem_utf8EncodeChar_iff.2 rfl⟩)
  · rintro rfl
    exact hreturn (List.mem_flatMap.2 ⟨'\r', hc, carriageReturn_mem_utf8EncodeChar_iff.2 rfl⟩)

theorem linesOf_join_of_not_mem {ls : List String} (hfree : ∀ l ∈ ls, '\n' ∉ l.toList)
    (hlast : ∀ l ∈ ls, l.toList.getLast? ≠ some '\r') :
    linesOf (String.join (ls.map fun l => l ++ "\n")) = ls := by
  unfold linesOf
  induction ls with
  | nil => simp [linesOfPieces]
  | cons l ls ih =>
    rw [List.forall_mem_cons] at hfree hlast
    have hend : dropEnd '\r' l.toList = l.toList := if_neg hlast.1
    have hfeed : "\n".toList = ['\n'] := by decide
    have ih := ih hfree.2 hlast.2
    rw [List.map_cons, String.join_cons, String.toList_append, String.toList_append, hfeed,
      List.append_assoc, List.singleton_append, List.splitOn_append_cons_self_of_not_mem hfree.1]
    cases hrest : (String.join (ls.map fun l => l ++ "\n")).toList.splitOn '\n' with
    | nil => exact absurd hrest (List.splitOn_ne_nil _ _)
    | cons piece pieces =>
      rw [hrest] at ih
      rw [linesOfPieces, List.map_cons, ih, hend, String.ofList_toList]

theorem linesOf_join {ls : List String} (h : ∀ l ∈ ls, OneLine l) :
    linesOf (String.join (ls.map fun l => l ++ "\n")) = ls := by
  refine linesOf_join_of_not_mem (fun l hl hmem => (h l hl _ hmem).1 rfl) fun l hl hlast => ?_
  exact (h l hl _ (List.mem_of_getLast? hlast)).2 rfl

theorem oneLine_hex (n : Nat) : OneLine (hex n) := by
  intro c hc
  constructor
  · rintro rfl
    exact not_mem_hex (by decide) (by decide) n hc
  · rintro rfl
    exact not_mem_hex (by decide) (by decide) n hc

theorem oneLine_repr (i : Int) : OneLine i.repr := by
  intro c hc
  constructor
  · rintro rfl
    exact not_mem_repr (by decide) (by decide) i hc
  · rintro rfl
    exact not_mem_repr (by decide) (by decide) i hc

/-- A line on its own, which a reader that looks for the mark passes over. -/
structure Aside (mark line : String) : Prop where
  oneLine : OneLine line
  not_starts : ¬ Starts mark line

instance (mark line : String) : Decidable (Aside mark line) :=
  decidable_of_iff (OneLine line ∧ ¬ Starts mark line) ⟨fun h => ⟨h.1, h.2⟩, fun h => ⟨h.1, h.2⟩⟩

theorem aside_append {mark p s : String} (h : Apart p mark) (hp : OneLine p) (hs : OneLine s) :
    Aside mark (p ++ s) :=
  ⟨oneLine_append.2 ⟨hp, hs⟩, h.not_starts (starts_append p s)⟩

end OneLine

section Entries

variable {α β : Type} {mark : String} {read : List Char → String → Option α}

/-- What the lines that start with the mark say, as far as they can be read. The reader is shown
what stands behind the mark and the line below. -/
def entries (mark : String) (read : List Char → String → Option α) : List String → List (Option α)
  | [] => []
  | line :: rest =>
    match after? mark line.toList with
    | none => entries mark read rest
    | some cs => read cs (rest.headD "") :: entries mark read rest

theorem entries_cons {line : String} {cs : List Char} (h : line.toList = mark.toList ++ cs)
    (rest : List String) :
    entries mark read (line :: rest) = read cs (rest.headD "") :: entries mark read rest := by
  rw [entries, h, after?_append]

theorem entries_append {ls : List String} (h : ∀ l ∈ ls, Aside mark l) (rest : List String) :
    entries mark read (ls ++ rest) = entries mark read rest := by
  induction ls with
  | nil => rfl
  | cons l ls ih =>
    rw [List.forall_mem_cons] at h
    rw [List.cons_append, entries, after?_eq_none_iff.2 h.1.not_starts]
    exact ih h.2

theorem entries_eq_nil {ls : List String} (h : ∀ l ∈ ls, Aside mark l) :
    entries mark read ls = [] := by
  have happend : entries mark read (ls ++ []) = entries mark read [] := entries_append h []
  rwa [List.append_nil] at happend

theorem entries_flatMap {xs : List β} {block : β → List String} {entry : β → Option α}
    (h : ∀ x ∈ xs, ∀ rest, entries mark read (block x ++ rest) = entry x :: entries mark read rest)
    (rest : List String) :
    entries mark read (xs.flatMap block ++ rest) = xs.map entry ++ entries mark read rest := by
  induction xs with
  | nil => rfl
  | cons x xs ih =>
    rw [List.forall_mem_cons] at h
    rw [List.flatMap_cons, List.append_assoc, h.1, ih h.2]
    rfl

end Entries

end OpcodeTable.Text
