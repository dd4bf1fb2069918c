import OpcodeTable.Proofs.Draft.History
import OpcodeTable.Proofs.Listing.Definitions
import OpcodeTable.Proofs.Listing.Repair
import OpcodeTable.Proofs.Token.Runs

namespace OpcodeTable

/-- The part of the line that lies between the columns of the span. -/
def Span.Marks (s : Span) (line part : String) : Prop :=
  ∃ before after, line.toList = before ++ (part.toList ++ after) ∧
    s.start.column = 1 + before.length ∧ s.stop.column = s.start.column + part.length

theorem Token.marks_span {number : Nat} {text : String} {t : Token} (h : t ∈ scan number text)
    (path : String) : (t.span path).Marks text t.text := by
  obtain ⟨before, after, htext, hcolumn⟩ := exists_append_of_mem_scan h
  exact ⟨before, after, htext, hcolumn, rfl⟩

namespace Fault

def ofOperand : Fault → Bool
  | badRange _ _ | badValue _ _ _ | unknownToken _ | overspecified _ => true
  | malformedLine _ | incompleteCoverage _ | overlap _ | duplicateName => false

/-- What the fault quotes is taken from the operand: all of it, or what stands behind its equals
sign. -/
def Quotes (text : String) : Fault → Prop
  | unknownToken x => x = text
  | badValue x _ _ => ∃ left, Operand.Assigns text left x
  | _ => True

end Fault

theorem Operand.fault_of_ofText {text : String} {fault : Fault} (h : ofText text = .error fault) :
    fault.ofOperand = true ∧ fault.Quotes text := by
  cases ofText_eq_iff.1 h with
  | noField => exact ⟨rfl, rfl⟩
  | manyMarks => exact ⟨rfl, rfl⟩
  | noBounds => exact ⟨rfl, rfl⟩
  | badValue hassigns => exact ⟨rfl, _, hassigns⟩
  | badRange => exact ⟨rfl, trivial⟩

namespace Draft

variable {path : String} {d : Draft}

theorem fault_of_perform {text : String} {o : Operand} {fault : Fault}
    (ho : Operand.ofText text = .ok o) (h : d.perform o.edit = .error fault) :
    ∃ bits, fault = .overspecified bits := by
  have hfits := Operand.fits_edit ho
  by_cases hfree : d.coverage.bits &&& o.edit.range.mask = 0
  · rw [perform_eq_ok_iff.2 ⟨hfits, hfree, rfl⟩] at h
    cases h
  · rw [perform_of_taken hfits hfree] at h
    cases h
    exact ⟨_, rfl⟩

theorem fault_of_addToken {t : Token} {fault : Fault} (h : d.addToken t = .error fault) :
    fault.ofOperand = true ∧ fault.Quotes t.text := by
  cases Except.bind_eq_error_iff.1 h with
  | inl htext => exact Operand.fault_of_ofText htext
  | inr hperform =>
    obtain ⟨o, ho, hperform⟩ := hperform
    obtain ⟨bits, rfl⟩ := fault_of_perform ho hperform
    exact ⟨rfl, trivial⟩

end Draft

namespace Definition

variable {path : String} {d : Definition} {r : Rejection}

/-- The leftmost operand that is refused: those before it go in one after the other, and this one
makes the fault. -/
def Refuses (path : String) (d : Definition) (t : Token) (fault : Fault) : Prop :=
  ∃ taken rest draft, d.operands = taken ++ t :: rest ∧
    (Draft.ofMnemonic path d.mnemonic).addTokens path taken = .ok draft ∧
      draft.addToken t = .error fault

inductive Blames (path : String) (d : Definition) (r : Rejection) : Token → Prop
  | operand {t : Token} : r.fault.ofOperand = true → d.Refuses path t r.fault →
      r.fault.Quotes t.text → Blames path d r t
  | mnemonic : r.fault.ofOperand = false → Blames path d r d.mnemonic

theorem Blames.mem {t : Token} (h : d.Blames path r t) : t ∈ d.mnemonic :: d.operands := by
  cases h with
  | operand _ hrefuses _ =>
    obtain ⟨taken, rest, draft, hoperands, -⟩ := hrefuses
    simp [hoperands]
  | mnemonic => exact List.mem_cons_self

theorem mnemonic_text_cases (d : Definition) :
    d.mnemonic.text = "@" ++ d.name ∨
      d.mnemonic.text = d.name ∧ d.mnemonic.text.toList.head? ≠ some '@' := by
  have htext := d.mnemonic_text_eq
  cases hpseudo : d.isPseudo with
  | true =>
    rw [hpseudo] at htext
    exact .inl htext
  | false =>
    rw [hpseudo] at htext
    refine .inr ⟨htext.trans String.empty_append, ?_⟩
    simpa [isPseudo, pseudoMark] using hpseudo

theorem exists_blamed_of_draft (h : d.draft path = .error r) :
    ∃ t, d.Blames path r t ∧ r.span = some (t.span path) := by
  unfold draft at h
  split at h
  · cases h
    exact ⟨d.mnemonic, .mnemonic rfl, rfl⟩
  next t ts hoperands =>
    obtain ⟨taken, u, rest, draft, hts, htaken, hu, hspan⟩ := Draft.exists_refused_of_addTokens h
    obtain ⟨hfault, hquotes⟩ := Draft.fault_of_addToken hu
    exact ⟨u, .operand hfault ⟨taken, rest, draft, hoperands.trans hts, htaken, hu⟩ hquotes, hspan⟩

end Definition

namespace Table

variable {t : Table} {path text : String} {number : Nat} {d : Definition} {r : Rejection}

theorem ofOperand_of_define {draft : Draft} {fault : Fault} (h : t.define draft = .error fault) :
    fault.ofOperand = false := by
  rcases define_eq_error h with rfl | ⟨-, hoverlap⟩ | rfl
  · rfl
  · obtain ⟨u, -, rfl⟩ := checkOverlap_eq_error hoverlap
    rfl
  · rfl

theorem exists_blamed_of_take (h : t.take path d = .error r) :
    ∃ u, d.Blames path r u ∧ r.span = some (u.span path) := by
  cases Except.bind_eq_error_iff.1 h with
  | inl hdraft => exact Definition.exists_blamed_of_draft hdraft
  | inr henter =>
    obtain ⟨draft, hdraft, henter⟩ := henter
    unfold enter at henter
    split at henter
    · cases henter
    next fault hfault =>
      cases henter
      refine ⟨d.mnemonic, .mnemonic (ofOperand_of_define hfault), ?_⟩
      exact congrArg Instruction.span (Definition.toInstruction_of_draft hdraft)

end Table

namespace Listing

variable {path : String} {number : Nat} {t : Table} {r : Rejection}

theorem exists_readLine_of_run_eq_cons {lines : List String} {rs : List Rejection}
    (h : (run path number t lines).2 = r :: rs) :
    ∃ before line after u, lines = before ++ line :: after ∧
      run path number t before = (u, []) ∧
        u.readLine path (number + before.length) line = .error r := by
  induction lines generalizing number t with
  | nil => cases h
  | cons line rest ih =>
    cases hline : t.readLine path number line with
    | ok t' =>
      rw [run, hline] at h
      obtain ⟨before, line', after, u, rfl, hrun, hread⟩ := ih h
      refine ⟨line :: before, line', after, u, rfl, ?_, ?_⟩
      · rw [run, hline]
        exact hrun
      · rw [List.length_cons, Nat.add_comm before.length 1, ← Nat.add_assoc]
        exact hread
    | error s =>
      rw [run, hline] at h
      cases h
      exact ⟨[], line, rest, t, rfl, rfl, hline⟩

variable {bytes : List UInt8} {text : String}

theorem exists_first_rejected (htext : Text.ofBytes? bytes = some text)
    (h : read .failFast path bytes = .error (.rejected r)) :
    ∃ k line c, (Text.linesOf text)[k]? = some line ∧
      (∀ mode, read mode path (Text.takeLines k bytes) = .ok c) ∧
        c.table.readLine path (k + 1) line = .error r := by
  rw [read_of_text htext] at h
  cases hrun : run path 1 .empty (Text.linesOf text) with
  | mk t rs =>
    rw [hrun] at h
    cases rs with
    | nil => cases h
    | cons s rs =>
      cases h
      obtain ⟨before, line, after, u, hlines, hbefore, hread⟩ :=
        exists_readLine_of_run_eq_cons (congrArg Prod.snd hrun)
      have htake : Text.lines (Text.takeLines before.length bytes) = encode before := by
        rw [Text.lines_takeLines, lines_of_text htext, encode, ← List.map_take, hlines,
          List.take_left]
        rfl
      refine ⟨before.length, line, ⟨u, u.warnings⟩, ?_, read_of_run_eq_nil htake hbefore, ?_⟩
      · rw [hlines]
        simp
      · rw [Nat.add_comm]
        exact hread

/-- The first rejection stands on the first line that is not taken after those before it. Its span
marks the leftmost operand that is refused, if the fault is one of an operand, and the mnemonic
otherwise; it names the instruction as the mnemonic does. -/
theorem rejection_located (htext : Text.ofBytes? bytes = some text)
    (h : read .failFast path bytes = .error (.rejected r)) :
    ∃ (k : Nat) (line : String) (c : Compilation) (d : Definition) (word : Token) (span : Span),
      (Text.linesOf text)[k]? = some line ∧
      (∀ mode, read mode path (Text.takeLines k bytes) = .ok c) ∧
      c.table.readLine path (k + 1) line = .error r ∧
      Token.scan (k + 1) line = d.mnemonic :: d.operands ∧
      (d.mnemonic.text = "@" ++ r.instruction ∨
        d.mnemonic.text = r.instruction ∧ d.mnemonic.text.toList.head? ≠ some '@') ∧
      d.Blames path r word ∧
      r.span = some span ∧ span.start.line = k + 1 ∧ span.stop.line = k + 1 ∧
      span.Marks line word.text := by
  obtain ⟨k, line, c, hline, hbefore, hread⟩ := exists_first_rejected htext h
  cases hd : Definition.ofLine? (k + 1) line with
  | none =>
    rw [Table.readLine_of_blank hd] at hread
    cases hread
  | some d =>
    have htake := hread
    rw [Table.readLine_eq_take hd] at htake
    have hscan := Definition.ofLine?_eq_some_iff.1 hd
    obtain ⟨word, hblames, hspan⟩ := Table.exists_blamed_of_take htake
    have hword : word ∈ Token.scan (k + 1) line := hscan ▸ hblames.mem
    have hnumber : word.line = k + 1 := Token.line_of_mem_scan hword
    refine ⟨k, line, c, d, word, word.span path, hline, hbefore, hread, hscan, ?_, hblames, hspan,
      hnumber, hnumber, Token.marks_span hword path⟩
    rw [Table.instruction_of_take htake]
    exact d.mnemonic_text_cases

def misspelt : String := "a 31..0=1\n\u00a0@é\u3000rs1 rd=5x # ü\n"

def misspeltBytes : List UInt8 := Text.toBytes misspelt.toList

theorem rejection_located_misspelt :
    ∃ line left word span, (Text.linesOf misspelt)[1]? = some line ∧
      read .failFast "" misspeltBytes = .error (.rejected ⟨"é", .badValue "5x" 11 7, some span⟩) ∧
      span = ⟨"", ⟨2, 9⟩, ⟨2, 14⟩⟩ ∧ span.Marks line word ∧ Operand.Assigns word left "5x" := by
  have hrejected : (read .failFast "" misspeltBytes).map (fun _ => ()) =
      .error (.rejected ⟨"é", .badValue "5x" 11 7, some ⟨"", ⟨2, 9⟩, ⟨2, 14⟩⟩⟩) := by decide +kernel
  rw [Except.map_eq_error_iff] at hrejected
  obtain ⟨k, line, c, d, word, span, hline, -, -, -, -, hblames, hspan, hstart, -, hmarks⟩ :=
    rejection_located (ofBytes?_toBytes misspelt) hrejected
  obtain rfl := Option.some.inj hspan
  obtain rfl : k = 1 := (Nat.succ.inj hstart).symm
  cases hblames with
  | operand _ _ hquotes =>
    obtain ⟨left, hassigns⟩ := hquotes
    exact ⟨line, left, _, _, hline, hrejected, rfl, hmarks, hassigns⟩
  | mnemonic hfault => cases hfault

end Listing

end OpcodeTable
