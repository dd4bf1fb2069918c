import OpcodeTable.Proofs.Text.Lines
import OpcodeTable.Proofs.Token.Words

namespace OpcodeTable.Text

def lineWords (line : List Char) : List String :=
  (((line.takeWhile (· ≠ '#')).splitOnP isBlank).filter (· ≠ [])).map String.ofList

/-- The words of a text, line by line. Lines without words do not count. -/
def wordLists (text : String) : List (List String) :=
  ((text.toList.splitOn '\n').map lineWords).filter (· ≠ [])

theorem ne_of_isBlank {c : Char} (h : isBlank c = true) : c ≠ '#' := by
  intro hc
  rw [hc] at h
  cases h

@[simp] theorem lineWords_nil : lineWords [] = [] := by simp [lineWords]

@[simp] theorem lineWords_comment (cs : List Char) : lineWords ('#' :: cs) = [] := by
  simp [lineWords]

theorem lineWords_cons_of_isBlank {c : Char} (h : isBlank c = true) (cs : List Char) :
    lineWords (c :: cs) = lineWords cs := by
  simp [lineWords, ne_of_isBlank h, List.splitOnP_cons_eq_if_modifyHead, h]

theorem lineWords_dropWhile (cs : List Char) : lineWords (cs.dropWhile isBlank) = lineWords cs := by
  induction cs with
  | nil => rfl
  | cons c cs ih =>
    cases h : isBlank c with
    | true => rw [List.dropWhile_cons_of_pos h, lineWords_cons_of_isBlank h, ih]
    | false => rw [List.dropWhile_cons_of_neg (by simp [h])]

theorem lineWords_concat_of_isBlank {c : Char} (h : isBlank c = true) (cs : List Char) :
    lineWords (cs ++ [c]) = lineWords cs := by
  by_cases hcs : ∀ x ∈ cs, x ≠ '#'
  · have hall : ∀ x ∈ cs, decide (x ≠ '#') = true := by simpa using hcs
    rw [lineWords, lineWords, List.takeWhile_append_of_pos hall,
      List.takeWhile_cons_of_pos (by simpa using ne_of_isBlank h), List.splitOnP_append_cons _ _ h,
      List.takeWhile_eq_self_iff.2 hall]
    simp
  · rw [lineWords, lineWords, List.takeWhile_append, if_neg]
    intro hlen
    have hself := (List.takeWhile_prefix (fun x => decide (x ≠ '#'))).eq_of_length hlen
    exact hcs fun x hx => by simpa using List.takeWhile_eq_self_iff.1 hself x hx

theorem lineWords_dropEnd (cs : List Char) : lineWords (dropEnd '\r' cs) = lineWords cs := by
  cases List.eq_nil_or_concat cs with
  | inl h => rw [h]; rfl
  | inr h =>
    obtain ⟨ds, d, rfl⟩ := h
    rw [List.concat_eq_append]
    by_cases hd : d = '\r'
    · subst hd
      rw [dropEnd_concat, lineWords_concat_of_isBlank rfl]
    · rw [dropEnd_append_of_not_mem (by simp) (by simpa using Ne.symm hd)]

theorem filter_lineWords_linesOfPieces (pieces : List (List Char)) :
    ((linesOfPieces '\r' pieces).map lineWords).filter (· ≠ []) =
      (pieces.map lineWords).filter (· ≠ []) := by
  fun_induction linesOfPieces '\r' pieces with
  | case1 => rfl
  | case2 => simp
  | case3 => rfl
  | case4 piece next pieces ih =>
    rw [List.map_cons, List.map_cons, List.filter_cons, List.filter_cons, ih, lineWords_dropEnd]

theorem lineWords_append {word rest : List Char} (hne : word ≠ [])
    (hword : ∀ c ∈ word, Token.isWordChar c = true)
    (hrest : ∀ c ∈ rest.head?, Token.isWordChar c = false) :
    lineWords (word ++ rest) = String.ofList word :: lineWords rest := by
  have hmark : ∀ c ∈ word, decide (c ≠ '#') = true := fun c hc =>
    decide_eq_true (Token.isWordChar_iff.1 (hword c hc)).2
  have hblank : ∀ c ∈ word, isBlank c = false := fun c hc => (Token.isWordChar_iff.1 (hword c hc)).1
  rw [lineWords, List.takeWhile_append_of_pos hmark]
  have alone : ((word.splitOnP isBlank).filter (· ≠ [])).map String.ofList =
      [String.ofList word] := by
    simp [List.splitOnP_eq_singleton hblank, hne]
  cases rest with
  | nil => simpa using alone
  | cons c cs =>
    by_cases hc : c = '#'
    · subst hc
      simpa using alone
    · have hsep : isBlank c = true := by
        have := hrest c rfl
        by_contra hno
        rw [Token.isWordChar_iff.2 ⟨by simpa using hno, hc⟩] at this
        cases this
      rw [List.takeWhile_cons_of_pos (by simpa using hc),
        List.splitOnP_append_cons_of_forall_mem hblank c hsep, lineWords_cons_of_isBlank hsep]
      simp [lineWords, hne]

end OpcodeTable.Text

namespace OpcodeTable

namespace Scanner

variable {s s' : Scanner} {t : Token}

theorem text_ne_nil_of_next (h : s.next = (some t, s')) : t.text.toList ≠ [] := by
  have hword := takeWord_of_next h
  simp only [next] at h
  split at h
  · cases h
  next c cs hrest =>
    split at h
    · cases h
    next hmark =>
      have hblank : Text.isBlank c = false := by
        have := List.head?_dropWhile_not Text.isBlank s.rest
        rw [show s.rest.dropWhile Text.isBlank = c :: cs from hrest] at this
        simpa using this
      cases hword
      simp [hrest, Token.isWordChar_iff.2 ⟨hblank, hmark⟩]

theorem lineWords_of_next_none (h : s.next = (none, s')) : Text.lineWords s.rest = [] := by
  rw [← Text.lineWords_dropWhile]
  simp only [next, skipBlanks] at h
  split at h
  next hrest => rw [hrest, Text.lineWords_nil]
  next c cs hrest =>
    split at h
    next hc =>
      rw [hrest, hc]
      exact Text.lineWords_comment cs
    · cases h

theorem lineWords_of_next_some (h : s.next = (some t, s')) :
    Text.lineWords s.rest = t.text :: Text.lineWords s'.rest := by
  have hne := text_ne_nil_of_next h
  cases takeWord_of_next h
  rw [← Text.lineWords_dropWhile,
    ← List.takeWhile_append_dropWhile (l := s.rest.dropWhile Text.isBlank) (p := Token.isWordChar)]
  apply Text.lineWords_append
  · simpa [takeWord, skipBlanks] using hne
  · exact fun c hc => List.mem_takeWhile_imp hc
  · intro c hc
    have := List.head?_dropWhile_not Token.isWordChar (s.rest.dropWhile Text.isBlank)
    rw [Option.mem_def.1 hc] at this
    simpa using this

theorem map_text_tokens_eq (s : Scanner) : s.tokens.map Token.text = Text.lineWords s.rest := by
  fun_induction tokens s with
  | case1 s s' hnext => exact (lineWords_of_next_none hnext).symm
  | case2 s t s' hnext ih => rw [List.map_cons, ih, lineWords_of_next_some hnext]

end Scanner

namespace Token

theorem words_eq (line : String) : words line = Text.lineWords line.toList :=
  Scanner.map_text_tokens_eq _

theorem words_intercalate {ws : List String} (h : ∀ w ∈ ws, IsWord w) :
    words (" ".intercalate ws) = ws := by
  rw [words_eq]
  induction ws with
  | nil => rw [String.intercalate_nil]; exact Text.lineWords_nil
  | cons w ws ih =>
    rw [List.forall_mem_cons] at h
    have hne : w.toList ≠ [] := by simpa using h.1.ne_empty
    cases ws with
    | nil =>
      have hend : ∀ c ∈ ([] : List Char).head?, isWordChar c = false := by simp
      have happend := Text.lineWords_append hne h.1.isWordChar hend
      rw [List.append_nil, String.ofList_toList, Text.lineWords_nil] at happend
      rw [String.intercalate_singleton, happend]
    | cons v ws =>
      have hspace : " ".toList = [' '] := by decide
      rw [String.intercalate_cons_cons, String.toList_append, String.toList_append, hspace,
        List.append_assoc, List.singleton_append,
        Text.lineWords_append hne h.1.isWordChar (by simp +decide),
        Text.lineWords_cons_of_isBlank (by decide), String.ofList_toList, ih h.2]

end Token

end OpcodeTable
