import OpcodeTable.Proofs.Listing.Locations
import OpcodeTable.Proofs.Operand.Canonical

namespace OpcodeTable

theorem Operand.exists_bounds_of_assign {text : String} {t : Target} {s : Setting}
    (h : ofText text = .ok (.assign t s)) :
    ∃ left right b, Assigns text left right ∧ Bounds.Spells left b ∧
      b.high = t.bits.high ∧ b.low = t.bits.low ∧ b.width = t.bits.width := by
  cases ofText_eq_iff.1 h with
  | assign hassigns hspells _ hselects =>
    refine ⟨_, _, _, hassigns, hspells, hselects.high_eq, hselects.low_eq, ?_⟩
    have := t.bits.low_le_high
    rw [Bounds.width, BitRange.width, hselects.high_eq, hselects.low_eq]
    omega

namespace Draft

variable {path line : String} {number : Nat} {d d' : Draft} {t : Token} {r : BitRange} {v : Nat}

/-- Reading the line comes to the operand, with what those before it have built up. -/
def Reaches (path : String) (number : Nat) (line : String) (d : Draft) (t : Token) : Prop :=
  ∃ mnemonic taken rest, Token.scan number line = mnemonic :: (taken ++ t :: rest) ∧
    (ofMnemonic path mnemonic).addTokens path taken = .ok d

theorem addTokens_append_eq_error {taken : List Token} {fault : Fault}
    (htaken : d.addTokens path taken = .ok d') (ht : d'.addToken t = .error fault)
    (rest : List Token) :
    d.addTokens path (taken ++ t :: rest) = .error ⟨d'.name, fault, some (t.span path)⟩ := by
  induction taken generalizing d with
  | nil =>
    obtain rfl := Except.ok.inj htaken
    rw [List.nil_append, addTokens, ht]
  | cons u us ih =>
    rw [addTokens] at htaken
    rw [List.cons_append, addTokens]
    split at htaken
    · exact ih htaken
    · cases htaken

theorem Reaches.ofLine_eq_error {fault : Fault} (h : Reaches path number line d t)
    (ht : d.addToken t = .error fault) :
    ofLine path number line = .error ⟨d.name, fault, some (t.span path)⟩ := by
  obtain ⟨mnemonic, taken, rest, hscan, htaken⟩ := h
  have hadd := addTokens_append_eq_error htaken ht rest
  rw [ofLine, hscan]
  cases taken with
  | nil => exact congrArg (Except.map some) hadd
  | cons u us => exact congrArg (Except.map some) hadd

theorem literals_of_literal (h : d.literal r v = .ok d') :
    d'.literals = d.literals ++ [⟨r, BitVec.ofNat 32 v⟩] := by
  have hperform : d.perform (.literal r v) = .ok d' := h
  obtain ⟨-, -, rfl⟩ := perform_eq_ok_iff.1 hperform
  rfl

theorem ofText_of_addToken_badValue {x : String} {high low : Nat}
    (h : d.addToken t = .error (.badValue x high low)) :
    Operand.ofText t.text = .error (.badValue x high low) := by
  cases Except.bind_eq_error_iff.1 h with
  | inl htext => exact htext
  | inr hperform =>
    obtain ⟨o, ho, hperform⟩ := hperform
    obtain ⟨bits, hbits⟩ := fault_of_perform ho hperform
    cases hbits

theorem exists_reached_of_badValue {rejection : Rejection} {x : String} {high low : Nat}
    (h : ofLine path number line = .error rejection)
    (hfault : rejection.fault = .badValue x high low) :
    ∃ d t left, Reaches path number line d t ∧ rejection.span = some (t.span path) ∧
      Operand.ofText t.text = .error (.badValue x high low) ∧ Operand.Assigns t.text left x := by
  cases hdefinition : Definition.ofLine? number line with
  | none =>
    rw [ofLine, Definition.ofLine?_eq_none_iff.1 hdefinition] at h
    cases h
  | some definition =>
    have hscan := Definition.ofLine?_eq_some_iff.1 hdefinition
    rw [ofLine, hscan, ofTokens_cons_eq, Except.map_eq_error_iff] at h
    obtain ⟨word, hblames, hspan⟩ := Definition.exists_blamed_of_draft h
    cases hblames with
    | mnemonic hmnemonic =>
      rw [hfault] at hmnemonic
      cases hmnemonic
    | operand _ hrefuses hquotes =>
      obtain ⟨taken, rest, d, hoperands, htaken, hword⟩ := hrefuses
      rw [hfault] at hword hquotes
      obtain ⟨left, hassigns⟩ := hquotes
      have hreaches : Reaches path number line d word :=
        ⟨definition.mnemonic, taken, rest, by rw [hscan, hoperands], htaken⟩
      exact ⟨d, word, left, hreaches, hspan, ofText_of_addToken_badValue hword, hassigns⟩

/-- A value that an operand has been read with is not refused when it is built in. The bounds that
the text spells are those of the range, in order and inside the word, and the value fits between
them; so every operand that the reading of a line comes to puts its value in whole, unless it meets
bits that are taken. What is reported of a value that does not fit is what the text of its operand
has behind the equals sign, as it is written. -/
theorem values_checked_once :
    (∀ text t v, Operand.ofText text = .ok (.assign t (.literal v)) →
      (∃ left right b, Operand.Assigns text left right ∧ Bounds.Spells left b ∧
        b.high = t.bits.high ∧ b.low = t.bits.low ∧ b.width = t.bits.width) ∧
      t.bits.low ≤ t.bits.high ∧ t.bits.high ≤ 31 ∧ t.bits.fits v = true) ∧
    (∀ path number line d token t v, Reaches path number line d token →
      Operand.ofText token.text = .ok (.assign t (.literal v)) →
      d.addToken token = d.literal t.bits v ∧
      (∀ fault, d.literal t.bits v = .error fault →
        ∃ bits, fault = .overspecified bits ∧
          ofLine path number line = .error ⟨d.name, fault, some (token.span path)⟩) ∧
      ∀ d', d.literal t.bits v = .ok d' →
        ∃ w : Word, d'.literals = d.literals ++ [⟨t.bits, w⟩] ∧ w.toNat = v) ∧
    ∀ path number line rejection x high low, ofLine path number line = .error rejection →
      rejection.fault = .badValue x high low →
      ∃ d token left, Reaches path number line d token ∧
        rejection.span = some (token.span path) ∧
        Operand.ofText token.text = .error (.badValue x high low) ∧
        Operand.Assigns token.text left x := by
  refine ⟨?_, ?_, fun _ _ _ _ _ _ _ => exists_reached_of_badValue⟩
  · intro text t v h
    exact ⟨Operand.exists_bounds_of_assign h, t.bits.low_le_high, Nat.le_of_lt_succ t.bits.high_lt,
      Operand.fits_edit h⟩
  · intro path number line d token t v hreaches h
    have hadd : d.addToken token = d.literal t.bits v := by
      rw [addToken, h]
      rfl
    refine ⟨hadd, fun fault hfault => ?_, fun d' hd' => ?_⟩
    · obtain ⟨bits, rfl⟩ := fault_of_perform h hfault
      exact ⟨bits, rfl, hreaches.ofLine_eq_error (hadd.trans hfault)⟩
    · exact ⟨_, literals_of_literal hd', BitRange.toNat_ofNat_of_fits (Operand.fits_edit h)⟩

def crowded : String := "a rd=0x1f 8..7=1"

theorem values_checked_once_crowded :
    Field.rd.range.fits 0x1f = true ∧ ∃ d w bits, Reaches "" 1 crowded d ⟨"8..7=1", 1, 11⟩ ∧
      d.literals = [⟨Field.rd.range, w⟩] ∧ w.toNat = 0x1f ∧
      ofLine "" 1 crowded = .error ⟨"a", .overspecified bits, some ⟨"", ⟨1, 11⟩, ⟨1, 17⟩⟩⟩ ∧
      ∃ d token left, Reaches "" 1 "a rd=0x_20" d token ∧
        Operand.Assigns token.text left "0x_20" := by
  obtain ⟨hvalid, hreached, hrejected⟩ := values_checked_once
  obtain ⟨-, -, -, hfits⟩ := hvalid "rd=0x1f" (.field .rd) 0x1f (by decide)
  have hscan : Token.scan 1 crowded = [⟨"a", 1, 1⟩, ⟨"rd=0x1f", 1, 3⟩, ⟨"8..7=1", 1, 11⟩] := by
    decide +kernel
  have hfirst : Reaches "" 1 crowded (ofMnemonic "" ⟨"a", 1, 1⟩) ⟨"rd=0x1f", 1, 3⟩ :=
    ⟨⟨"a", 1, 1⟩, [], _, hscan, rfl⟩
  obtain ⟨hadd, -, hstored⟩ := hreached _ _ _ _ _ (.field .rd) 0x1f hfirst (by decide)
  obtain ⟨d, hd⟩ : ∃ d, (ofMnemonic "" ⟨"a", 1, 1⟩).literal Field.rd.range 0x1f = .ok d := ⟨_, rfl⟩
  obtain ⟨w, hliterals, hw⟩ := hstored d hd
  have hsecond : Reaches "" 1 crowded d ⟨"8..7=1", 1, 11⟩ :=
    ⟨⟨"a", 1, 1⟩, [⟨"rd=0x1f", 1, 3⟩], [], hscan, by rw [addTokens, hadd.trans hd]; rfl⟩
  obtain ⟨-, hrefused, -⟩ := hreached _ _ _ _ _ (.range (.between 8 7)) 1 hsecond (by decide)
  obtain ⟨fault, hfault⟩ : ∃ fault, d.literal (.between 8 7) 1 = .error fault := by
    cases hd
    exact ⟨_, rfl⟩
  obtain ⟨bits, rfl, hline⟩ := hrefused fault hfault
  have hname : d.name = "a" := by
    cases hd
    rfl
  rw [hname] at hline
  have hrejection : ofLine "" 1 "a rd=0x_20" =
      .error ⟨"a", .badValue "0x_20" 11 7, some ⟨"", ⟨1, 3⟩, ⟨1, 11⟩⟩⟩ := by
    decide +kernel
  obtain ⟨d', token, left, hreaches, -, -, hassigns⟩ := hrejected _ _ _ _ _ _ _ hrejection rfl
  exact ⟨hfits, d, w, bits, hsecond, hliterals, hw, hline, d', token, left, hreaches, hassigns⟩

example : Operand.ofText "rd=0x_20" = .error (.badValue "0x_20" 11 7) := by decide

end Draft

end OpcodeTable
