import OpcodeTable.Proofs.Operand.Sides

namespace OpcodeTable

namespace Operand

structure Assigns (text left right : String) : Prop where
  text_eq : text = left ++ "=" ++ right
  not_mem_left : '=' ∉ left.toList
  not_mem_right : '=' ∉ right.toList

inductive Reads (text : String) : Except Fault Operand → Prop
  | field {f : Field} : text = f.name → Reads text (.ok (.field f))
  | assign {left right : String} {b : Bounds} {t : Target} {s : Setting} :
      Assigns text left right → Bounds.Spells left b → Setting.Spells b right s → b.Selects t →
      Reads text (.ok (.assign t s))
  | noField : '=' ∉ text.toList → (∀ f : Field, text ≠ f.name) →
      Reads text (.error (.unknownToken text))
  | manyMarks : 2 ≤ text.toList.count '=' → Reads text (.error (.unknownToken text))
  | noBounds {left right : String} : Assigns text left right → (∀ b, ¬ Bounds.Spells left b) →
      Reads text (.error (.unknownToken text))
  | badValue {left right : String} {b : Bounds} : Assigns text left right → Bounds.Spells left b →
      (∀ s, ¬ Setting.Spells b right s) → Reads text (.error (.badValue right b.high b.low))
  | badRange {left right : String} {b : Bounds} {s : Setting} : Assigns text left right →
      Bounds.Spells left b → Setting.Spells b right s → ¬ b.Valid →
      Reads text (.error (.badRange b.high b.low))

variable {text left right : String}

theorem cut?_eq_some_iff : Text.cut? ['='] text.toList = some (left.toList, right.toList) ↔
    '=' ∉ left.toList ∧ text = left ++ "=" ++ right := by
  have hmark : "=".toList = ['='] := by decide
  rw [Text.cut?_singleton_eq_some_iff, ← String.toList_inj, String.toList_append,
    String.toList_append, hmark, List.append_assoc, List.singleton_append]

theorem two_le_count_iff (h : Text.cut? ['='] text.toList = some (left.toList, right.toList)) :
    2 ≤ text.toList.count '=' ↔ '=' ∈ right.toList := by
  obtain ⟨hleft, htext⟩ := Text.cut?_singleton_eq_some_iff.1 h
  rw [htext, List.count_append, List.count_eq_zero.2 hleft, List.count_cons_self,
    ← List.one_le_count_iff]
  omega

theorem reads_ofText (text : String) : Reads text (ofText text) := by
  unfold ofText
  split
  next hcut =>
    have hmark := Text.cut?_singleton_eq_none_iff.1 hcut
    split
    next f hf => exact .field (Field.ofName?_eq_some_iff.1 hf)
    next hnone => exact .noField hmark (Field.ofName?_eq_none_iff.1 hnone)
  next left right hcut =>
    obtain ⟨left, rfl⟩ := Text.exists_toList left
    obtain ⟨right, rfl⟩ := Text.exists_toList right
    split
    next hright => exact .manyMarks ((two_le_count_iff hcut).2 (by simpa using hright))
    next hright =>
      obtain ⟨hleft, htext⟩ := cut?_eq_some_iff.1 hcut
      have hassigns : Assigns text left right := ⟨htext, hleft, by simpa using hright⟩
      split
      next hnone => exact .noBounds hassigns (Bounds.ofText?_eq_none_iff.1 hnone)
      next b hb =>
        have hb := Bounds.ofText?_eq_some_iff.1 hb
        rw [String.ofList_toList]
        cases hs : Setting.ofText right b with
        | error e =>
          obtain ⟨hnone, rfl⟩ := Setting.ofText_eq_error_iff.1 hs
          exact .badValue hassigns hb hnone
        | ok s =>
          have hs := Setting.ofText_eq_ok_iff.1 hs
          cases ht : b.target with
          | error e =>
            obtain ⟨hvalid, rfl⟩ := Bounds.target_eq_error_iff.1 ht
            exact .badRange hassigns hb hs hvalid
          | ok t => exact .assign hassigns hb hs (Bounds.target_eq_ok_iff.1 ht)

theorem Assigns.ofText_eq (h : Assigns text left right) :
    ofText text =
      match Bounds.ofText? left.toList with
      | none => .error (.unknownToken text)
      | some bounds => do
        let setting ← Setting.ofText right bounds
        let target ← bounds.target
        return assign target setting := by
  have hright : right.toList.contains '=' = false := by
    simpa using h.not_mem_right
  rw [ofText, cut?_eq_some_iff.2 ⟨h.not_mem_left, h.text_eq⟩]
  dsimp only
  rw [hright, String.ofList_toList]
  rfl

theorem Reads.ofText_eq {r : Except Fault Operand} (h : Reads text r) : ofText text = r := by
  cases h with
  | field hf =>
    subst hf
    rw [ofText, Text.cut?_singleton_eq_none_iff.2 (Field.not_mem_name (by decide) _)]
    dsimp only
    rw [Field.ofName?_name]
  | assign h hb hs ht =>
    rw [h.ofText_eq, Bounds.ofText?_eq_some_iff.2 hb]
    dsimp only
    rw [Setting.ofText_eq_ok_iff.2 hs, Bounds.target_eq_ok_iff.2 ht]
    rfl
  | noField hmark hf =>
    rw [ofText, Text.cut?_singleton_eq_none_iff.2 hmark]
    dsimp only
    rw [Field.ofName?_eq_none_iff.2 hf]
  | manyMarks hmany =>
    cases hcut : Text.cut? ['='] text.toList with
    | none =>
      rw [List.count_eq_zero.2 (Text.cut?_singleton_eq_none_iff.1 hcut)] at hmany
      cases hmany
    | some sides =>
      obtain ⟨left, right⟩ := sides
      obtain ⟨left, rfl⟩ := Text.exists_toList left
      obtain ⟨right, rfl⟩ := Text.exists_toList right
      have hmem := (two_le_count_iff hcut).1 hmany
      rw [ofText, hcut]
      exact if_pos (by simpa using hmem)
  | noBounds h hb => rw [h.ofText_eq, Bounds.ofText?_eq_none_iff.2 hb]
  | badValue h hb hs =>
    rw [h.ofText_eq, Bounds.ofText?_eq_some_iff.2 hb]
    dsimp only
    rw [Setting.ofText_eq_error_iff.2 ⟨hs, rfl⟩]
    rfl
  | badRange h hb hs hvalid =>
    rw [h.ofText_eq, Bounds.ofText?_eq_some_iff.2 hb]
    dsimp only
    rw [Setting.ofText_eq_ok_iff.2 hs, Bounds.target_eq_error_iff.2 ⟨hvalid, rfl⟩]
    rfl

theorem ofText_eq_iff {r : Except Fault Operand} : ofText text = r ↔ Reads text r := by
  refine ⟨?_, Reads.ofText_eq⟩
  rintro rfl
  exact reads_ofText text

theorem fits_edit {o : Operand} (h : ofText text = .ok o) : o.edit.Fits := by
  cases ofText_eq_iff.1 h with
  | field => trivial
  | assign _ _ hs ht =>
    cases hs with
    | ignore => trivial
    | literal _ hlt =>
      rw [← ht.width_eq, ← Nat.one_shiftLeft, ← BitRange.fits_iff] at hlt
      exact hlt

def edit? (text : String) : Option Edit := (ofText text).toOption.map edit

theorem edit?_of_ofText {o : Operand} (h : ofText text = .ok o) : edit? text = some o.edit := by
  rw [edit?, h]
  rfl

theorem isSome_edit?_iff : (edit? text).isSome = true ↔ ∃ o, ofText text = .ok o := by
  unfold edit?
  cases ofText text <;> simp [Except.toOption]

/-- What a text is read as, for each result there is. -/
theorem ofText_by_grammar (text : String) :
    (∀ f, ofText text = .ok (.field f) ↔ text = f.name) ∧
    (∀ t s, ofText text = .ok (.assign t s) ↔
      ∃ left right b, Assigns text left right ∧ Bounds.Spells left b ∧ b.Selects t ∧
        Setting.Spells b right s) ∧
    (∀ x, ofText text = .error (.unknownToken x) ↔
      x = text ∧
        (('=' ∉ text.toList ∧ ∀ f : Field, text ≠ f.name) ∨ 2 ≤ text.toList.count '=' ∨
          ∃ left right, Assigns text left right ∧ ∀ b, ¬ Bounds.Spells left b)) ∧
    (∀ x high low, ofText text = .error (.badValue x high low) ↔
      ∃ left b, Assigns text left x ∧ Bounds.Spells left b ∧ (∀ s, ¬ Setting.Spells b x s) ∧
        high = b.high ∧ low = b.low) ∧
    (∀ high low, ofText text = .error (.badRange high low) ↔
      ∃ left right b s, Assigns text left right ∧ Bounds.Spells left b ∧ Setting.Spells b right s ∧
        ¬ b.Valid ∧ high = b.high ∧ low = b.low) ∧
    ∀ fault, ofText text = .error fault →
      fault = .unknownToken text ∨ (∃ x high low, fault = .badValue x high low) ∨
        ∃ high low, fault = .badRange high low := by
  simp only [ofText_eq_iff]
  refine ⟨fun f => ⟨?_, .field⟩, fun t s => ⟨?_, ?_⟩, fun x => ⟨?_, ?_⟩, fun x high low => ⟨?_, ?_⟩,
    fun high low => ⟨?_, ?_⟩, ?_⟩
  · intro h
    cases h with
    | field hf => exact hf
  · intro h
    cases h with
    | assign h hb hs ht => exact ⟨_, _, _, h, hb, ht, hs⟩
  · rintro ⟨left, right, b, h, hb, ht, hs⟩
    exact .assign h hb hs ht
  · intro h
    cases h with
    | noField hmark hf => exact ⟨rfl, .inl ⟨hmark, hf⟩⟩
    | manyMarks hmany => exact ⟨rfl, .inr (.inl hmany)⟩
    | noBounds h hb => exact ⟨rfl, .inr (.inr ⟨_, _, h, hb⟩)⟩
  · rintro ⟨rfl, ⟨hmark, hf⟩ | hmany | ⟨left, right, h, hb⟩⟩
    · exact .noField hmark hf
    · exact .manyMarks hmany
    · exact .noBounds h hb
  · intro h
    cases h with
    | badValue h hb hs => exact ⟨_, _, h, hb, hs, rfl, rfl⟩
  · rintro ⟨left, b, h, hb, hs, rfl, rfl⟩
    exact .badValue h hb hs
  · intro h
    cases h with
    | badRange h hb hs hvalid => exact ⟨_, _, _, _, h, hb, hs, hvalid, rfl, rfl⟩
  · rintro ⟨left, right, b, s, h, hb, hs, hvalid, rfl, rfl⟩
    exact .badRange h hb hs hvalid
  · intro fault h
    cases h with
    | noField => exact .inl rfl
    | manyMarks => exact .inl rfl
    | noBounds => exact .inl rfl
    | badValue => exact .inr (.inl ⟨_, _, _, rfl⟩)
    | badRange => exact .inr (.inr ⟨_, _, rfl⟩)

example : ofText "0..3=16" = .error (.badValue "16" 0 3) := by decide

end Operand

end OpcodeTable
