import OpcodeTable.Proofs.Token.Layout

namespace OpcodeTable

namespace Text

/-- Characters in a row that all have the property, between two that do not have it or where there is
nothing further. -/
structure MaximalRun (p : Char → Bool) (cs before run after : List Char) : Prop where
  eq_append : cs = before ++ (run ++ after)
  ne_nil : run ≠ []
  inside : ∀ c ∈ run, p c = true
  left : ∀ c ∈ before.getLast?, p c = false
  right : ∀ c ∈ after.head?, p c = false

section MaximalRun

variable {p : Char → Bool} {gap word rest before run after : List Char}

theorem takeWhile_append_of_head? (hword : ∀ c ∈ word, p c = true)
    (hrest : ∀ c ∈ rest.head?, p c = false) : (word ++ rest).takeWhile p = word := by
  rw [List.takeWhile_append_of_pos hword]
  cases rest with
  | nil => simp
  | cons c rest => simp [hrest c rfl]

namespace MaximalRun

variable {cs : List Char}

theorem exists_head? (h : MaximalRun p cs before run after) :
    ∃ c, (run ++ after).head? = some c ∧ p c = true := by
  cases run with
  | nil => exact absurd rfl h.ne_nil
  | cons c run => exact ⟨c, rfl, h.inside c List.mem_cons_self⟩

theorem eq_takeWhile (h : MaximalRun p cs before run after) :
    run = (run ++ after).takeWhile p :=
  (takeWhile_append_of_head? h.inside h.right).symm

theorem append_iff (hgap : ∀ c ∈ gap, p c = false) (hne : word ≠ [])
    (hword : ∀ c ∈ word, p c = true) (hrest : ∀ c ∈ rest.head?, p c = false) :
    MaximalRun p (gap ++ (word ++ rest)) before run after ↔
      (before = gap ∧ run = word ∧ after = rest) ∨
        ∃ further, before = gap ++ (word ++ further) ∧ MaximalRun p rest further run after := by
  constructor
  · intro h
    have first (heq : word ++ rest = run ++ after) : run = word ∧ after = rest := by
      have hrun : run = word := by
        rw [h.eq_takeWhile, ← heq, takeWhile_append_of_head? hword hrest]
      subst hrun
      exact ⟨rfl, (List.append_cancel_left heq).symm⟩
    obtain ⟨c, hc, hpc⟩ := h.exists_head?
    obtain ⟨xs, rfl, heq⟩ | ⟨xs, rfl, heq⟩ := List.append_eq_append_iff.1 h.eq_append
    · cases List.eq_nil_or_concat xs with
      | inl hxs =>
        subst hxs
        exact .inl ⟨List.append_nil gap, first heq⟩
      | inr hxs =>
        obtain ⟨ys, y, rfl⟩ := hxs
        rw [List.concat_eq_append] at h heq ⊢
        have hy : p y = false := h.left y (by simp)
        obtain ⟨further, hxs, rfl⟩ | ⟨further, rfl, -⟩ := List.append_eq_append_iff.1 heq
        · refine .inr ⟨further, by rw [hxs], rfl, h.ne_nil, h.inside, ?_, h.right⟩
          intro x hx
          refine h.left x ?_
          rw [hxs, ← List.append_assoc, List.getLast?_append, Option.mem_def.1 hx]
          rfl
        -- The run would start inside the word, right after a character of it.
        · rw [hword y (by simp)] at hy
          cases hy
    · cases xs with
      | nil =>
        rw [List.append_nil] at hgap ⊢
        exact .inl ⟨rfl, first heq.symm⟩
      -- The run would start inside the gap.
      | cons x xs =>
        rw [heq] at hc
        cases hc
        rw [hgap c (by simp)] at hpc
        cases hpc
  · rintro (⟨rfl, rfl, rfl⟩ | ⟨further, rfl, h⟩)
    · exact ⟨rfl, hne, hword, fun c hc => hgap c (List.mem_of_getLast? hc), hrest⟩
    · refine ⟨?_, h.ne_nil, h.inside, ?_, h.right⟩
      · rw [h.eq_append, List.append_assoc, List.append_assoc]
      · have hfurther : further ≠ [] := by
          rintro rfl
          obtain ⟨c, hc, hpc⟩ := h.exists_head?
          rw [hrest c (by rw [h.eq_append]; exact hc)] at hpc
          cases hpc
        rw [List.getLast?_append_of_ne_nil _ (by simp [hne]),
          List.getLast?_append_of_ne_nil _ hfurther]
        exact h.left

end MaximalRun

end MaximalRun

end Text

namespace Scanner

variable {s s' : Scanner} {t : Token}

structure Finds (s : Scanner) (gap : List Char) (t : Token) (s' : Scanner) : Prop where
  rest_eq : s.rest = gap ++ (t.text.toList ++ s'.rest)
  gap_blank : ∀ c ∈ gap, Text.isBlank c = true
  text_ne_nil : t.text.toList ≠ []
  text_word : ∀ c ∈ t.text.toList, Token.isWordChar c = true
  ended : ∀ c ∈ s'.rest.head?, Token.isWordChar c = false
  token_eq : t.line = s.line ∧ t.column = s.column + gap.length
  line_eq : s'.line = s.line
  column_eq : s'.column = t.column + t.text.length

theorem head?_dropWhile_eq_false (p : Char → Bool) (cs : List Char) :
    ∀ c ∈ (cs.dropWhile p).head?, p c = false := by
  intro c hc
  have := List.head?_dropWhile_not p cs
  rw [Option.mem_def.1 hc] at this
  exact this

theorem exists_finds_of_next (h : s.next = (some t, s')) : ∃ gap, s.Finds gap t s' := by
  have hne := text_ne_nil_of_next h
  have hword := isWordChar_of_next h
  cases takeWord_of_next h
  refine ⟨s.rest.takeWhile Text.isBlank, ?_, fun c hc => List.mem_takeWhile_imp hc, hne, hword,
    head?_dropWhile_eq_false _ _, ⟨rfl, rfl⟩, rfl, ?_⟩
  · simp [skipBlanks]
  · simp [String.length_ofList]

@[simp] theorem skipBlanks_skipBlanks (s : Scanner) : s.skipBlanks.skipBlanks = s.skipBlanks := by
  have htaken : (s.rest.dropWhile Text.isBlank).takeWhile Text.isBlank = [] := by
    cases hrest : s.rest.dropWhile Text.isBlank with
    | nil => rfl
    | cons c cs =>
      have hc := head?_dropWhile_eq_false Text.isBlank s.rest c (by simp [hrest])
      simp [hc]
  have hdropped := List.takeWhile_append_dropWhile (l := s.rest.dropWhile Text.isBlank)
    (p := Text.isBlank)
  rw [htaken, List.nil_append] at hdropped
  simp only [skipBlanks, htaken, hdropped, List.length_nil, Nat.add_zero]

theorem skipBlanks_of_next_none (h : s.next = (none, s')) :
    s' = s.skipBlanks ∧ ∀ c ∈ s.skipBlanks.rest.head?, c = '#' := by
  simp only [next] at h
  split at h
  next hrest =>
    rw [hrest]
    exact ⟨(Prod.mk.inj h).2.symm, by simp⟩
  next c cs hrest =>
    split at h
    next hc =>
      rw [hrest]
      exact ⟨(Prod.mk.inj h).2.symm, by simpa [Token.commentMark] using hc⟩
    next => cases h

theorem next_of_next_none (h : s.next = (none, s')) : s'.next = (none, s') := by
  obtain ⟨rfl, -⟩ := skipBlanks_of_next_none h
  have hskip : s.skipBlanks.next = s.next := by
    rw [next, next, skipBlanks_skipBlanks]
  rw [hskip, h]

theorem isBlank_of_next_none (h : s.next = (none, s')) :
    ∀ c ∈ s.rest.takeWhile (· ≠ '#'), Text.isBlank c = true := by
  obtain ⟨-, hmark⟩ := skipBlanks_of_next_none h
  have hblank : ∀ c ∈ s.rest.takeWhile Text.isBlank, decide (c ≠ '#') = true := fun c hc =>
    decide_eq_true (Text.ne_of_isBlank (List.mem_takeWhile_imp hc))
  have hend : ∀ c ∈ (s.rest.dropWhile Text.isBlank).head?, decide (c ≠ '#') = false := fun c hc =>
    by simpa using hmark c hc
  rw [← List.takeWhile_append_dropWhile (l := s.rest) (p := Text.isBlank),
    Text.takeWhile_append_of_head? hblank hend]
  exact fun c hc => List.mem_takeWhile_imp hc

theorem Finds.uncommented_eq {gap : List Char} (h : s.Finds gap t s') :
    s.rest.takeWhile (· ≠ '#') =
      gap ++ (t.text.toList ++ s'.rest.takeWhile (· ≠ '#')) := by
  have hgap : ∀ c ∈ gap, decide (c ≠ '#') = true := fun c hc =>
    decide_eq_true (Text.ne_of_isBlank (h.gap_blank c hc))
  have hword : ∀ c ∈ t.text.toList, decide (c ≠ '#') = true := fun c hc =>
    decide_eq_true (Token.isWordChar_iff.1 (h.text_word c hc)).2
  rw [h.rest_eq, List.takeWhile_append_of_pos hgap, List.takeWhile_append_of_pos hword]

theorem mem_tokens_iff :
    t ∈ s.tokens ↔ ∃ before word after,
      Text.MaximalRun Token.isWordChar (s.rest.takeWhile (· ≠ '#')) before word after ∧
        t = ⟨String.ofList word, s.line, s.column + before.length⟩ := by
  fun_induction tokens s with
  | case1 s s' hnext =>
    simp only [List.not_mem_nil, false_iff, not_exists, not_and]
    intro before word after hrun
    obtain ⟨c, hc⟩ := List.exists_mem_of_ne_nil _ hrun.ne_nil
    have hblank := isBlank_of_next_none hnext c (by rw [hrun.eq_append]; simp [hc])
    rw [(Token.isWordChar_iff.1 (hrun.inside c hc)).1] at hblank
    cases hblank
  | case2 s u s' hnext ih =>
    obtain ⟨gap, hfinds⟩ := exists_finds_of_next hnext
    have hgap : ∀ c ∈ gap, Token.isWordChar c = false := fun c hc => by
      simp [Token.isWordChar, hfinds.gap_blank c hc]
    have hrest : ∀ c ∈ (s'.rest.takeWhile (· ≠ '#')).head?, Token.isWordChar c = false := by
      intro c hc
      refine hfinds.ended c ?_
      cases hs' : s'.rest with
      | nil => simp [hs'] at hc
      | cons d ds =>
        by_cases hd : d = '#'
        · simp [hs', hd] at hc
        · simpa [hs', hd] using hc
    have hcolumn (further : List Char) :
        s.column + (gap ++ (u.text.toList ++ further)).length = s'.column + further.length := by
      rw [hfinds.column_eq, hfinds.token_eq.2, List.length_append, List.length_append,
        String.length_toList]
      omega
    rw [List.mem_cons, ih, hfinds.uncommented_eq]
    simp only [Text.MaximalRun.append_iff hgap hfinds.text_ne_nil hfinds.text_word hrest]
    constructor
    · rintro (rfl | ⟨before, word, after, hrun, rfl⟩)
      · refine ⟨gap, _, _, .inl ⟨rfl, rfl, rfl⟩, ?_⟩
        rw [String.ofList_toList, ← hfinds.token_eq.1, ← hfinds.token_eq.2]
      · refine ⟨_, word, after, .inr ⟨before, rfl, hrun⟩, ?_⟩
        rw [hcolumn, hfinds.line_eq]
    · rintro ⟨before, word, after, ⟨rfl, rfl, rfl⟩ | ⟨further, rfl, hrun⟩, rfl⟩
      · left
        rw [String.ofList_toList, ← hfinds.token_eq.1, ← hfinds.token_eq.2]
      · right
        exact ⟨further, word, after, hrun, by rw [hcolumn, hfinds.line_eq]⟩

theorem column_le_of_mem_tokens (h : t ∈ s.tokens) : s.column ≤ t.column := by
  obtain ⟨before, word, after, -, rfl⟩ := mem_tokens_iff.1 h
  exact Nat.le_add_right _ _

theorem pairwise_column_tokens (s : Scanner) :
    s.tokens.Pairwise fun t u => t.column < u.column := by
  fun_induction tokens s with
  | case1 => exact List.Pairwise.nil
  | case2 s t s' hnext ih =>
    obtain ⟨gap, hfinds⟩ := exists_finds_of_next hnext
    refine ih.cons fun u hu => ?_
    have hpos : 0 < t.text.length := by
      rw [← String.length_toList, List.length_pos_iff]
      exact hfinds.text_ne_nil
    have hle := column_le_of_mem_tokens hu
    rw [hfinds.column_eq] at hle
    omega

def after (s : Scanner) : Nat → Scanner
  | 0 => s
  | k + 1 => s.next.2.after k

def answer (s : Scanner) (k : Nat) : Option Token := (s.after k).next.1

theorem answer_eq (s : Scanner) (k : Nat) : s.answer k = s.tokens[k]? := by
  induction k generalizing s with
  | zero =>
    cases h : s.next with
    | mk token s' =>
      rw [answer, after, h]
      cases token with
      | none => rw [tokens_of_next_none h]; rfl
      | some t => rw [tokens_of_next_some h]; rfl
  | succ k ih =>
    have hstep : s.answer (k + 1) = s.next.2.answer k := rfl
    rw [hstep, ih]
    cases h : s.next with
    | mk token s' =>
      cases token with
      | none => rw [tokens_of_next_none h, tokens_of_next_none (next_of_next_none h)]; rfl
      | some t => rw [tokens_of_next_some h, List.getElem?_cons_succ]

end Scanner

namespace Token

theorem mem_scan_iff {number : Nat} {text : String} {t : Token} :
    t ∈ scan number text ↔ ∃ before word after,
      Text.MaximalRun isWordChar (text.toList.takeWhile (· ≠ '#')) before word after ∧
        t = ⟨String.ofList word, number, 1 + before.length⟩ :=
  Scanner.mem_tokens_iff

theorem isWord_of_mem_scan {number : Nat} {text : String} {t : Token}
    (h : t ∈ scan number text) : IsWord t.text := by
  refine ⟨?_, isWordChar_of_mem_scan h⟩
  obtain ⟨before, word, after, hrun, rfl⟩ := mem_scan_iff.1 h
  simpa using hrun.ne_nil

theorem exists_append_of_mem_scan {number : Nat} {text : String} {t : Token}
    (h : t ∈ scan number text) :
    ∃ before after, text.toList = before ++ (t.text.toList ++ after) ∧
      t.column = 1 + before.length := by
  obtain ⟨before, word, after, hrun, rfl⟩ := mem_scan_iff.1 h
  refine ⟨before, after ++ text.toList.dropWhile (· ≠ '#'), ?_, rfl⟩
  rw [String.toList_ofList, ← List.append_assoc word, ← List.append_assoc, ← hrun.eq_append,
    List.takeWhile_append_dropWhile]

end Token

end OpcodeTable
