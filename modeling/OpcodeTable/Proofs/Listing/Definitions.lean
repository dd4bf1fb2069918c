import OpcodeTable.Proofs.Listing.Acceptance
import OpcodeTable.Proofs.Listing.Rejections

/-!
A run taken definition by definition. Lines without words do nothing, so what a run comes to is told
by the definitions of the listing and not by the lines on which they stand.
-/

namespace OpcodeTable

def Definition.draft (path : String) (d : Definition) : Except Rejection Draft :=
  match d.operands with
  | [] => .error ⟨d.name, .malformedLine 1, some (d.mnemonic.span path)⟩
  | t :: ts => (Draft.ofMnemonic path d.mnemonic).addTokens path (t :: ts)

namespace Draft

variable {path : String}

theorem name_ofMnemonic (path : String) (d : Definition) :
    (ofMnemonic path d.mnemonic).name = d.name := by
  rw [ofMnemonic, Definition.nameOfMnemonic_eq]

theorem ofTokens_cons_eq (path : String) (d : Definition) :
    ofTokens path (d.mnemonic :: d.operands) = (d.draft path).map some := by
  rw [Definition.draft]
  cases d.operands with
  | nil =>
    rw [ofTokens, name_ofMnemonic]
    rfl
  | cons t ts => rfl

theorem addToken_eq_ok {d d' : Draft} {t : Token} (h : d.addToken t = .ok d') :
    ∃ e, d' = d.extend [e] := by
  obtain ⟨o, -, ho⟩ := addToken_eq_ok_iff.1 h
  exact ⟨o.edit, (perform_eq_ok_iff.1 ho).2.2⟩

theorem instruction_of_addTokens {d : Draft} {ts : List Token} {r : Rejection}
    (h : d.addTokens path ts = .error r) : r.instruction = d.name := by
  induction ts generalizing d with
  | nil => cases h
  | cons t ts ih =>
    rw [addTokens] at h
    split at h
    next d' hd =>
      obtain ⟨e, rfl⟩ := addToken_eq_ok hd
      exact (ih h).trans rfl
    next fault hd =>
      cases h
      rfl

end Draft

namespace Definition

variable {path : String} {d : Definition}

theorem line_of_ofLine? {number : Nat} {text : String} (h : ofLine? number text = some d) :
    d.mnemonic.line = number :=
  Token.line_of_mem_scan (mnemonic_mem_scan h)

theorem instruction_of_draft {r : Rejection} (h : d.draft path = .error r) :
    r.instruction = d.name := by
  unfold draft at h
  split at h
  · cases h
    rfl
  · rw [Draft.instruction_of_addTokens h, Draft.name_ofMnemonic]

theorem toInstruction_of_draft {draft : Draft} (h : d.draft path = .ok draft) :
    draft.toInstruction = d.instruction path := by
  have htokens : Draft.ofTokens path (d.mnemonic :: d.operands) = .ok (some draft) := by
    rw [Draft.ofTokens_cons_eq, h]
    rfl
  obtain ⟨-, hdraft⟩ := Draft.ofTokens_cons_eq_ok_iff.1 htokens
  rw [Option.some.inj hdraft, Draft.toInstruction_extend]

end Definition

namespace Table

def enter (t : Table) (d : Draft) : Except Rejection Table :=
  match t.define d with
  | .ok t' => .ok t'
  | .error fault => .error ⟨d.name, fault, d.span⟩

def take (t : Table) (path : String) (d : Definition) : Except Rejection Table :=
  d.draft path >>= t.enter

theorem enter_rel {R : Table → Table → Prop} {S : Rejection → Rejection → Prop} {t u : Table}
    {d e : Draft} (hdefine : Except.Rel Eq R (t.define d) (u.define e))
    (hfault : ∀ fault, S ⟨d.name, fault, d.span⟩ ⟨e.name, fault, e.span⟩) :
    Except.Rel S R (t.enter d) (u.enter e) := by
  unfold enter
  generalize t.define d = x, u.define e = y at hdefine ⊢
  cases hdefine with
  | error h =>
    subst h
    exact .error (hfault _)
  | ok h => exact .ok h

variable {t t' : Table} {path text : String} {number : Nat} {d : Definition} {r : Rejection}

theorem readLine_eq_take (h : Definition.ofLine? number text = some d) :
    t.readLine path number text = t.take path d := by
  rw [readLine, Draft.ofLine, Definition.ofLine?_eq_some_iff.1 h, Draft.ofTokens_cons_eq, take]
  cases d.draft path <;> rfl

theorem instruction_of_take (h : t.take path d = .error r) : r.instruction = d.name := by
  unfold take at h
  cases hd : d.draft path with
  | error s =>
    rw [hd] at h
    cases h
    exact Definition.instruction_of_draft hd
  | ok draft =>
    rw [hd] at h
    change t.enter draft = .error r at h
    unfold enter at h
    split at h
    · cases h
    · cases h
      exact congrArg Instruction.name (Definition.toInstruction_of_draft hd)

theorem records_of_take (h : t.take path d = .ok t') :
    ∃ f, t'.records = t.records ++ [{ toInstruction := d.instruction path, format := f }] := by
  obtain ⟨draft, hd, henter⟩ := Except.bind_eq_ok_iff.1 h
  unfold enter at henter
  split at henter
  next hdefine =>
    cases henter
    obtain ⟨f, -, -, hrec⟩ := define_eq_ok_iff.1 hdefine
    refine ⟨f, ?_⟩
    rw [hrec, Draft.record, Definition.toInstruction_of_draft hd]
  · cases henter

theorem line?_of_take (hline : Definition.ofLine? number text = some d)
    (h : t.take path d = .error r) : r.diagnostic.line? = some d.mnemonic.line := by
  rw [← readLine_eq_take hline] at h
  rw [line?_of_readLine h, Definition.line_of_ofLine? hline]

end Table

namespace Listing

variable {path : String} {t t' : Table} {d : Definition} {ds : List Definition} {r : Rejection}

def takeAll (path : String) (t : Table) : List Definition → Table × List Rejection
  | [] => (t, [])
  | d :: ds =>
    match t.take path d with
    | .ok t' => takeAll path t' ds
    | .error r => ((takeAll path t ds).1, r :: (takeAll path t ds).2)

theorem takeAll_cons_of_ok (h : t.take path d = .ok t') :
    takeAll path t (d :: ds) = takeAll path t' ds := by
  rw [takeAll, h]

theorem takeAll_cons_of_error (h : t.take path d = .error r) :
    takeAll path t (d :: ds) = ((takeAll path t ds).1, r :: (takeAll path t ds).2) := by
  rw [takeAll, h]

theorem run_eq_takeAll (path : String) (number : Nat) (t : Table) (lines : List String) :
    run path number t lines = takeAll path t (definitionsFrom number lines) := by
  induction lines generalizing number t with
  | nil => rfl
  | cons line rest ih =>
    rw [run, definitionsFrom]
    cases hd : Definition.ofLine? number line with
    | none =>
      rw [Table.readLine_of_blank hd]
      exact ih (number + 1) t
    | some d =>
      rw [Table.readLine_eq_take hd]
      cases htake : t.take path d with
      | ok t' =>
        rw [takeAll_cons_of_ok htake]
        exact ih (number + 1) t'
      | error r =>
        rw [takeAll_cons_of_error htake, ← ih (number + 1) t]

theorem run_linesOf (path text : String) :
    run path 1 .empty (Text.linesOf text) = takeAll path .empty (definitions text) :=
  run_eq_takeAll path 1 .empty _

theorem exists_take_of_mem_takeAll (h : r ∈ (takeAll path t ds).2) :
    ∃ before d after, ds = before ++ d :: after ∧
      (takeAll path t before).1.take path d = .error r := by
  induction ds generalizing t with
  | nil => cases h
  | cons d ds ih =>
    cases htake : t.take path d with
    | ok t' =>
      rw [takeAll_cons_of_ok htake] at h
      obtain ⟨before, e, after, rfl, he⟩ := ih h
      refine ⟨d :: before, e, after, rfl, ?_⟩
      rw [takeAll_cons_of_ok htake]
      exact he
    | error s =>
      rw [takeAll_cons_of_error htake] at h
      cases List.mem_cons.1 h with
      | inl h =>
        subst h
        exact ⟨[], d, ds, rfl, htake⟩
      | inr h =>
        obtain ⟨before, e, after, rfl, he⟩ := ih h
        refine ⟨d :: before, e, after, rfl, ?_⟩
        rw [takeAll_cons_of_error htake]
        exact he

theorem exists_instruction_of_mem_takeAll {s : Record}
    (h : s ∈ (takeAll path t ds).1.records) :
    s ∈ t.records ∨ ∃ d ∈ ds, s.toInstruction = d.instruction path := by
  induction ds generalizing t with
  | nil => exact .inl h
  | cons d ds ih =>
    rw [List.exists_mem_cons_iff]
    cases htake : t.take path d with
    | ok t' =>
      rw [takeAll_cons_of_ok htake] at h
      obtain ⟨f, hrecords⟩ := Table.records_of_take htake
      cases ih h with
      | inl hs =>
        rw [hrecords, List.mem_append, List.mem_singleton] at hs
        cases hs with
        | inl hs => exact .inl hs
        | inr hs =>
          subst hs
          exact .inr (.inl rfl)
      | inr hs => exact .inr (.inr hs)
    | error r =>
      rw [takeAll_cons_of_error htake] at h
      exact (ih h).imp_right .inr

theorem exists_line_of_mem_definitionsFrom {number : Nat} {lines : List String}
    (h : d ∈ definitionsFrom number lines) :
    ∃ k line, lines[k]? = some line ∧ Definition.ofLine? (number + k) line = some d := by
  induction lines generalizing number with
  | nil => cases h
  | cons line rest ih =>
    have hrest (h : d ∈ definitionsFrom (number + 1) rest) :
        ∃ k line', (line :: rest)[k]? = some line' ∧
          Definition.ofLine? (number + k) line' = some d := by
      obtain ⟨k, line', hk, hd⟩ := ih h
      refine ⟨k + 1, line', hk, ?_⟩
      rw [Nat.add_comm k 1, ← Nat.add_assoc]
      exact hd
    rw [definitionsFrom] at h
    split at h
    · exact hrest h
    next hline =>
      cases List.mem_cons.1 h with
      | inl h =>
        subst h
        exact ⟨0, line, rfl, hline⟩
      | inr h => exact hrest h

theorem pairwise_line_definitionsFrom (number : Nat) (lines : List String) :
    (definitionsFrom number lines).Pairwise fun d e => d.mnemonic.line < e.mnemonic.line := by
  induction lines generalizing number with
  | nil => exact List.Pairwise.nil
  | cons line rest ih =>
    rw [definitionsFrom]
    cases hd : Definition.ofLine? number line with
    | none => exact ih (number + 1)
    | some d =>
      refine (ih (number + 1)).cons ?_
      intro e he
      obtain ⟨k, text, -, hline⟩ := exists_line_of_mem_definitionsFrom he
      rw [Definition.line_of_ofLine? hd, Definition.line_of_ofLine? hline]
      omega

end Listing

end OpcodeTable
