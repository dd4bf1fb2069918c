import OpcodeTable.Proofs.Listing.Decoding
import OpcodeTable.Proofs.Listing.Definitions
import OpcodeTable.Proofs.Table.Places
import OpcodeTable.Proofs.Token.Layout

/-!
Files that differ in their layout. Two runs over the same words stay in step: they take and turn
away the same definitions for the same reasons, and what they come to differs in places only.
-/

namespace OpcodeTable

namespace Definition

def words (d : Definition) : List String := (d.mnemonic :: d.operands).map Token.text

theorem words_of_ofLine? {number : Nat} {text : String} {d : Definition}
    (h : ofLine? number text = some d) : d.words = Token.words text := by
  rw [words, ← ofLine?_eq_some_iff.1 h, Token.map_text_scan]

theorem words_eq_nil_of_ofLine? {number : Nat} {text : String} (h : ofLine? number text = none) :
    Token.words text = [] := by
  rw [← Token.map_text_scan number, ofLine?_eq_none_iff.1 h, List.map_nil]

end Definition

namespace Draft

variable {path path' : String} {s : Option Span}

theorem addTokens_rel {d : Draft} {ts us : List Token}
    (h : ts.map Token.text = us.map Token.text) :
    Except.Rel Rejection.SameCause (fun a b => ∃ s, b = place s a) (d.addTokens path ts)
      ((d.place s).addTokens path' us) := by
  induction ts generalizing d us with
  | nil =>
    obtain rfl : us = [] := List.map_eq_nil_iff.1 h.symm
    exact .ok ⟨s, rfl⟩
  | cons t ts ih =>
    cases us with
    | nil => cases h
    | cons u us =>
      obtain ⟨htext, hrest⟩ := List.cons.inj h
      rw [addTokens, addTokens, addToken_place, ← d.addToken_congr htext]
      cases d.addToken t with
      | error fault => exact .error ⟨rfl, rfl⟩
      | ok d' => exact ih hrest

end Draft

theorem Definition.draft_rel {path path' : String} {d e : Definition} (h : d.words = e.words) :
    Except.Rel Rejection.SameCause (fun a b => ∃ s, b = Draft.place s a) (d.draft path)
      (e.draft path') := by
  obtain ⟨hmnemonic, hoperands⟩ := List.cons.inj h
  have hplace : Draft.ofMnemonic path' e.mnemonic =
      (Draft.ofMnemonic path d.mnemonic).place (some (e.mnemonic.span path')) := by
    rw [Draft.ofMnemonic, ← hmnemonic]
    rfl
  unfold draft
  cases hd : d.operands with
  | nil =>
    rw [hd, List.map_nil] at hoperands
    rw [List.map_eq_nil_iff.1 hoperands.symm]
    exact .error ⟨name_congr hmnemonic, rfl⟩
  | cons t ts =>
    cases he : e.operands with
    | nil =>
      rw [hd, he] at hoperands
      cases hoperands
    | cons u us =>
      rw [hd, he] at hoperands
      simp only [hplace]
      exact Draft.addTokens_rel hoperands

namespace Table

theorem SameRecords.take {t u : Table} {path path' : String} {d e : Definition}
    (h : SameRecords t u) (hwords : d.words = e.words) :
    Except.Rel Rejection.SameCause SameRecords (t.take path d) (u.take path' e) := by
  refine (Definition.draft_rel hwords).bind ?_
  rintro draft _ ⟨s, rfl⟩
  exact enter_rel (h.define draft s) fun _ => ⟨rfl, rfl⟩

end Table

namespace Listing

theorem map_words_definitionsFrom (number : Nat) (lines : List String) :
    (definitionsFrom number lines).map Definition.words =
      (lines.map Token.words).filter (· ≠ []) := by
  induction lines generalizing number with
  | nil => rfl
  | cons line rest ih =>
    rw [definitionsFrom, List.map_cons]
    cases hd : Definition.ofLine? number line with
    | none =>
      rw [Definition.words_eq_nil_of_ofLine? hd, List.filter_cons_of_neg (by simp)]
      exact ih (number + 1)
    | some d =>
      have hwords := Definition.words_of_ofLine? hd
      rw [← hwords, List.filter_cons_of_pos (by simp [Definition.words]), List.map_cons,
        ih (number + 1)]

theorem map_words_definitions (text : String) :
    (definitions text).map Definition.words = Text.wordLists text := by
  have hwords : Token.words ∘ String.ofList = Text.lineWords := by
    funext line
    rw [Function.comp_apply, Token.words_eq, String.toList_ofList]
  rw [definitions, map_words_definitionsFrom, Text.linesOf, List.map_map, hwords,
    Text.filter_lineWords_linesOfPieces, Text.wordLists]

theorem takeAll_rel {path path' : String} {t u : Table} {ds es : List Definition}
    (h : t.SameRecords u) (hwords : List.Forall₂ (fun d e => d.words = e.words) ds es) :
    (takeAll path t ds).1.SameRecords (takeAll path' u es).1 ∧
      List.Forall₂ Rejection.SameCause (takeAll path t ds).2 (takeAll path' u es).2 := by
  induction hwords generalizing t u with
  | nil => exact ⟨h, .nil⟩
  | @cons d e ds es hwords _ ih =>
    have hstep : Except.Rel _ Table.SameRecords (t.take path d) (u.take path' e) := h.take hwords
    obtain ⟨r, s, htake, htake', hcause⟩ | ⟨t', u', htake, htake', h'⟩ := hstep.error_or_ok
    · obtain ⟨htable, hcauses⟩ := ih h
      rw [takeAll_cons_of_error htake, takeAll_cons_of_error htake']
      exact ⟨htable, .cons hcause hcauses⟩
    · rw [takeAll_cons_of_ok htake, takeAll_cons_of_ok htake']
      exact ih h'

/-- The failures say the same, but may point at other places. -/
def SameReport : ErrorMode → Failure → Failure → Prop
  | .failFast, f, g => ∃ r s : Rejection, f = .rejected r ∧ g = .rejected s ∧ r.SameCause s
  | .collectAll, f, g => ∃ ds es, f = .findings ds ∧ g = .findings es ∧
      ds.map Diagnostic.unplaced = es.map Diagnostic.unplaced

theorem read_rel (mode : ErrorMode) (path path' : String) {xs ys : List UInt8} {a b : String}
    (ha : Text.ofBytes? xs = some a) (hb : Text.ofBytes? ys = some b)
    (hwords : Text.wordLists a = Text.wordLists b) :
    Except.Rel (SameReport mode) (fun c d : Compilation => c.table.SameRecords d.table)
      (read mode path xs) (read mode path' ys) := by
  have hdefs : List.Forall₂ (fun d e => Definition.words d = Definition.words e)
      (definitions a) (definitions b) := by
    rw [← map_eq_map_iff_forall₂, map_words_definitions, map_words_definitions, hwords]
  have hempty : Table.empty.SameRecords .empty := rfl
  obtain ⟨htable, hcauses⟩ := @takeAll_rel path path' _ _ _ _ hempty hdefs
  rw [read_of_text ha, read_of_text hb, run_linesOf, run_linesOf]
  generalize takeAll path .empty (definitions a) = x,
    takeAll path' .empty (definitions b) = y at htable hcauses ⊢
  obtain ⟨t, rs⟩ := x
  obtain ⟨u, ss⟩ := y
  cases hcauses with
  | nil => exact .ok htable
  | @cons r s rs ss hcause hcauses =>
    cases mode with
    | failFast => exact .error ⟨r, s, rfl, rfl, hcause⟩
    | collectAll =>
      refine .error ⟨_, _, rfl, rfl, ?_⟩
      have hrest := map_eq_map_of_forall₂ hcauses fun _ _ => Rejection.SameCause.unplaced_eq
      rw [List.map_cons, List.map_cons, hcause.unplaced_eq, List.map_map, List.map_map]
      exact congrArg (s.diagnostic.unplaced :: ·) hrest

/-- How the words of a file are laid out decides nothing. Files with the same words are both accepted
or both turned away: in the one case they come to the same records, fingerprint and artifacts, in the
other to the same report, places apart. -/
theorem layout_irrelevant (mode : ErrorMode) (path path' : String) {xs ys : List UInt8}
    {a b : String} (ha : Text.ofBytes? xs = some a) (hb : Text.ofBytes? ys = some b)
    (hwords : Text.wordLists a = Text.wordLists b) :
    ((∃ c, read mode path xs = .ok c) ↔ ∃ d, read mode path' ys = .ok d) ∧
      (∀ c d, read mode path xs = .ok c → read mode path' ys = .ok d →
        c.table.records.map Record.unplaced = d.table.records.map Record.unplaced ∧
          c.table.fingerprint = d.table.fingerprint ∧
          ∀ artifact : Artifact, artifact.render c.table = artifact.render d.table) ∧
      ∀ f g, read mode path xs = .error f → read mode path' ys = .error g →
        SameReport mode f g := by
  obtain ⟨f, g, hxs, hys, hreport⟩ | ⟨c, d, hxs, hys, hrecords⟩ :=
    (read_rel mode path path' ha hb hwords).error_or_ok
  · simp [hxs, hys, hreport]
  · have hrender := hrecords.render_eq (recheck_of_read hxs) (recheck_of_read hys)
    refine ⟨⟨fun _ => ⟨d, hys⟩, fun _ => ⟨c, hxs⟩⟩, ?_, ?_⟩
    · intro c' d' hc' hd'
      obtain rfl : c = c' := Except.ok.inj (hxs.symm.trans hc')
      obtain rfl : d = d' := Except.ok.inj (hys.symm.trans hd')
      exact ⟨hrecords, hrecords.fingerprint_eq, hrender⟩
    · intro f g hf
      rw [hxs] at hf
      cases hf

def tight : String := "a rd 31..12=0 6..0=0x13\nb 31..0=1\n"

def loose : String := "# two\r\n\r\n\ta\u00a0rd 31..12=0   6..0=0x13#one\r\n  b\t31..0=1"

def partOf (start stop : Position) : Rejection :=
  ⟨"b", .incompleteCoverage 0x00000F80, some ⟨"", start, stop⟩⟩

theorem layout_irrelevant_loose :
    (∃ c d, read .failFast "" (Text.toBytes tight.toList) = .ok c ∧
      read .failFast "listing" (Text.toBytes loose.toList) = .ok d ∧
      c.table.records ≠ d.table.records ∧ c.table.fingerprint = d.table.fingerprint) ∧
    ∃ f g, read .collectAll "" (Text.toBytes (tight ++ "b rd").toList) = .error f ∧
      read .collectAll "" (Text.toBytes (loose ++ "\n\n b rd ").toList) = .error g ∧
      f ≠ g ∧ SameReport .collectAll f g := by
  constructor
  · obtain ⟨c, hc, hrec⟩ := @exists_read .failFast "" tight _ (ofBytes?_toBytes tight)
      (by decide +kernel)
    obtain ⟨haccepted, hsame, -⟩ := layout_irrelevant .failFast "" "listing"
      (ofBytes?_toBytes tight) (ofBytes?_toBytes loose) (by decide +kernel)
    obtain ⟨d, hd⟩ := haccepted.1 ⟨c, hc⟩
    obtain ⟨text, htext, -, hrec', -⟩ := read_eq_ok_iff.1 hd
    obtain rfl : text = loose := Option.some.inj (htext.symm.trans (ofBytes?_toBytes loose))
    refine ⟨c, d, hc, hd, ?_, (hsame c d hc hd).2.1⟩
    rw [hrec, hrec']
    decide +kernel
  · obtain ⟨-, -, hreport⟩ := layout_irrelevant .collectAll "" ""
      (ofBytes?_toBytes (tight ++ "b rd")) (ofBytes?_toBytes (loose ++ "\n\n b rd "))
      (by decide +kernel)
    have hf : (read .collectAll "" (Text.toBytes (tight ++ "b rd").toList)).map (fun _ => ()) =
        .error (.findings [(partOf ⟨3, 1⟩ ⟨3, 2⟩).diagnostic]) := by decide +kernel
    have hg : (read .collectAll "" (Text.toBytes (loose ++ "\n\n b rd ").toList)).map
        (fun _ => ()) = .error (.findings [(partOf ⟨6, 2⟩ ⟨6, 3⟩).diagnostic]) := by decide +kernel
    rw [Except.map_eq_error_iff] at hf hg
    exact ⟨_, _, hf, hg, by decide, hreport _ _ hf hg⟩

end Listing

end OpcodeTable
