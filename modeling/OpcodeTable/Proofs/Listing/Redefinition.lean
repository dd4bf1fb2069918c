import OpcodeTable.Proofs.Listing.Decoding
import OpcodeTable.Proofs.Listing.Endings
import OpcodeTable.Proofs.Listing.Layout

/-!
Instructions that are defined again at the end of an accepted listing. A real definition is checked
for overlaps before its name is looked up, so it is turned away for the words that it shares; and a
copy shares its words with the definition that it copies and with no other.
-/

namespace OpcodeTable

theorem Encoding.overlaps_self (e : Encoding) : e.overlaps e = true := by
  rw [overlaps, beq_iff_eq]

theorem Definition.reordered_of_words {d e : Definition} (h : d.words = e.words) : d.Reordered e where
  mnemonic := (List.cons.inj h).1
  operands := .of_eq (List.cons.inj h).2

theorem Definition.Tiles.exists_draft {d : Definition} (h : d.Tiles) (path : String) :
    ∃ draft, d.draft path = .ok draft ∧ draft.toInstruction = d.instruction path ∧
      draft.coverage.format = .ok d.format := by
  have htokens : Draft.ofTokens path (d.mnemonic :: d.operands) = .ok (some _) :=
    Draft.ofTokens_cons_eq_ok_iff.2 ⟨h.toReadable, rfl⟩
  rw [Draft.ofTokens_cons_eq] at htokens
  obtain ⟨draft, hdraft, hextend⟩ := Except.map_eq_ok_iff.1 htokens
  refine ⟨draft, hdraft, toInstruction_of_draft hdraft, ?_⟩
  rw [Coverage.format_eq_ok_iff, Option.some.inj hextend, Draft.coverage_extend,
    cover_eq_coverage_iff]
  exact ⟨h.whole, rfl⟩

namespace Table

variable {t : Table} {path : String} {d : Definition} {fault : Fault}

theorem take_eq_error (h : d.Tiles)
    (hdefine : ∀ draft : Draft, draft.toInstruction = d.instruction path →
      draft.coverage.format = .ok d.format → t.define draft = .error fault) :
    t.take path d = .error ⟨d.name, fault, some (d.mnemonic.span path)⟩ := by
  obtain ⟨draft, hdraft, hinstruction, hformat⟩ := h.exists_draft path
  rw [take, hdraft]
  change t.enter draft = _
  rw [enter, hdefine draft hinstruction hformat, hinstruction]
  rfl

theorem take_of_checkOverlap (h : d.Tiles) (hreal : d.isPseudo = false)
    (hcheck : t.checkOverlap d.encoding = .error fault) :
    t.take path d = .error ⟨d.name, fault, some (d.mnemonic.span path)⟩ := by
  refine take_eq_error h fun draft hinstruction hformat => ?_
  have hpseudo : draft.isPseudo = false := by rwa [hinstruction]
  have hencoding : draft.encoding = d.encoding := by rw [hinstruction]; rfl
  rw [define, hformat, hpseudo, hencoding, hcheck]
  rfl

theorem take_of_mem_names (h : d.Tiles)
    (hcheck : d.isPseudo = false → t.checkOverlap d.encoding = .ok ()) (hname : d.name ∈ t.names) :
    t.take path d = .error ⟨d.name, .duplicateName, some (d.mnemonic.span path)⟩ := by
  refine take_eq_error h fun draft hinstruction hformat => ?_
  have hpseudo : draft.isPseudo = d.isPseudo := by rw [hinstruction]; rfl
  have hencoding : draft.encoding = d.encoding := by rw [hinstruction]; rfl
  have hinsert : t.insert (draft.record d.format) = .error .duplicateName :=
    insert_eq_error_of_mem (by rw [Draft.record, hinstruction]; exact hname)
  rw [define, hformat, hpseudo, hencoding]
  cases hp : d.isPseudo with
  | true => exact hinsert
  | false =>
    rw [hcheck hp]
    exact hinsert

theorem checkOverlap_copy {r : Record} (ht : t.records.Pairwise Record.Compatible) (hr : r ∈ t.real) :
    t.checkOverlap r.encoding = .error (.overlap r.name) := by
  rw [real, List.mem_filter, Bool.not_eq_true'] at hr
  obtain ⟨hmem, hreal⟩ := hr
  obtain ⟨before, after, hrecords⟩ := List.append_of_mem hmem
  rw [hrecords, List.pairwise_append] at ht
  refine checkOverlap_eq_error_iff.2
    ⟨before, r, after, hrecords, ⟨hreal, r.encoding.overlaps_self⟩, fun s hs hsreal => ?_, rfl⟩
  rw [Encoding.overlaps_comm]
  exact (ht.2.2 s hs r List.mem_cons_self).2 hsreal hreal

theorem take_of_overlaps (h : d.Tiles) (hreal : d.isPseudo = false)
    (hoverlap : ∃ r ∈ t.real, d.encoding.overlaps r.encoding = true) :
    ∃ before r after, t.records = before ++ r :: after ∧
      (r.isPseudo = false ∧ d.encoding.overlaps r.encoding = true) ∧
      (∀ s ∈ before, s.isPseudo = false → d.encoding.overlaps s.encoding = false) ∧
      t.take path d = .error ⟨d.name, .overlap r.name, some (d.mnemonic.span path)⟩ := by
  cases hcheck : t.checkOverlap d.encoding with
  | ok _ =>
    obtain ⟨r, hr, hoverlap⟩ := hoverlap
    rw [checkOverlap_eq_ok_iff.1 hcheck r hr] at hoverlap
    cases hoverlap
  | error fault =>
    obtain ⟨before, r, after, hsplit, hr, hbefore, rfl⟩ := checkOverlap_eq_error_iff.1 hcheck
    exact ⟨before, r, after, hsplit, hr, hbefore, take_of_checkOverlap h hreal hcheck⟩

theorem take_copy {e : Definition} (ht : t.records.Pairwise Record.Compatible)
    (he : e.record path ∈ t.records) (hed : e.Reordered d) (h : d.Tiles) :
    t.take path d = .error ⟨d.name, if d.isPseudo then .duplicateName else .overlap d.name,
      some (d.mnemonic.span path)⟩ := by
  have hname : (e.record path).name = d.name := hed.name_eq
  have hencoding : (e.record path).encoding = d.encoding := hed.encoding_eq
  cases hpseudo : d.isPseudo with
  | true =>
    exact take_of_mem_names h (by simp [hpseudo]) (List.mem_map.2 ⟨e.record path, he, hname⟩)
  | false =>
    have hreal : e.record path ∈ t.real := by
      rw [real, List.mem_filter, Bool.not_eq_true']
      exact ⟨he, hed.isPseudo_eq.trans hpseudo⟩
    have hcheck := checkOverlap_copy ht hreal
    rw [hencoding, hname] at hcheck
    exact take_of_checkOverlap h hpseudo hcheck

end Table

namespace Listing

/-- The first thing that reading meets with is the definition, which it turns away. -/
def StopsAt (path : String) (bytes : List UInt8) (d : Definition) (fault : Fault) : Prop :=
  read .failFast path bytes = .error (.rejected ⟨d.name, fault, some (d.mnemonic.span path)⟩)

variable {path : String} {t u : Table} {ds : List Definition} {d : Definition} {r : Rejection}

theorem takeAll_concat_of_error (h : takeAll path t ds = (u, [])) (hd : u.take path d = .error r) :
    takeAll path t (ds ++ [d]) = (u, [r]) := by
  induction ds generalizing t with
  | nil =>
    cases h
    rw [List.nil_append, takeAll_cons_of_error hd]
    rfl
  | cons e ds ih =>
    rw [List.cons_append]
    cases he : t.take path e with
    | ok t' =>
      rw [takeAll_cons_of_ok he] at h ⊢
      exact ih h
    | error s =>
      rw [takeAll_cons_of_error he] at h
      cases h

theorem stopsAt_of_take {text : String} {bytes : List UInt8} {fault : Fault}
    (htext : Text.ofBytes? bytes = some text) (hds : definitions text = ds ++ [d])
    (hrun : takeAll path .empty ds = (t, []))
    (htake : t.take path d = .error ⟨d.name, fault, some (d.mnemonic.span path)⟩) :
    StopsAt path bytes d fault := by
  rw [StopsAt, read_of_text htext, run_linesOf, hds, takeAll_concat_of_error hrun htake]

theorem exists_reordered_of_mem {text line : String} {number : Nat}
    (hline : line ∈ Text.linesOf text) (hd : Definition.ofLine? number line = some d) :
    ∃ e ∈ definitions text, e.Reordered d := by
  have hwords : d.words ∈ (definitions text).map Definition.words := by
    rw [definitions, map_words_definitionsFrom, List.mem_filter, Definition.words_of_ofLine? hd]
    refine ⟨List.mem_map_of_mem hline, ?_⟩
    rw [← Definition.words_of_ofLine? hd]
    simp [Definition.words]
  obtain ⟨e, he, hwords⟩ := List.mem_map.1 hwords
  exact ⟨e, he, Definition.reordered_of_words hwords⟩

/-- A definition that is added at the end of an accepted listing under a name that is taken is the
first to be turned away. A copy of a line is turned away for the very instruction that it copies if
that is real, and for its name otherwise. Any other definition that covers a whole word is turned
away for the first real record that it overlaps if it is real and there is one, and for its name
otherwise. -/
theorem redefinition_rejected {mode : ErrorMode} {bytes : List UInt8} {c : Compilation}
    (h : read mode path bytes = .ok c) :
    ∃ text, Text.ofBytes? bytes = some text ∧ ∀ (a : Text.Addition text) d,
      Definition.ofLine? a.number a.line = some d →
      (a.line ∈ Text.linesOf text →
        StopsAt path (bytes ++ Text.toBytes a.added.toList) d
          (if d.isPseudo then .duplicateName else .overlap d.name)) ∧
      (d.Tiles → d.name ∈ c.table.names →
        (d.isPseudo = false → (∃ r ∈ c.table.real, d.encoding.overlaps r.encoding = true) →
          ∃ before r after, c.table.records = before ++ r :: after ∧
            (r.isPseudo = false ∧ d.encoding.overlaps r.encoding = true) ∧
            (∀ s ∈ before, s.isPseudo = false → d.encoding.overlaps s.encoding = false) ∧
            StopsAt path (bytes ++ Text.toBytes a.added.toList) d (.overlap r.name)) ∧
        ((d.isPseudo = false → ∀ r ∈ c.table.real, d.encoding.overlaps r.encoding = false) →
          StopsAt path (bytes ++ Text.toBytes a.added.toList) d .duplicateName)) := by
  obtain ⟨text, htext, hwf, hrecords, -⟩ := read_eq_ok_iff.1 h
  refine ⟨text, htext, fun a d hd => ?_⟩
  have hadded : Text.ofBytes? (bytes ++ Text.toBytes a.added.toList) = some (text ++ a.added) := by
    rw [Text.ofBytes?_eq_some_iff, Text.ofBytes?_eq_some_iff.1 htext, ← Text.toBytes_append,
      ← String.toList_append]
  have hrun : takeAll path .empty (definitions text) = (c.table, []) := by
    rw [← run_linesOf]
    exact run_empty_eq_nil_iff.2 ⟨hwf, hrecords⟩
  have stops {fault : Fault}
      (htake : c.table.take path d = .error ⟨d.name, fault, some (d.mnemonic.span path)⟩) :
      StopsAt path (bytes ++ Text.toBytes a.added.toList) d fault :=
    stopsAt_of_take hadded (definitions_addition a hd) hrun htake
  refine ⟨fun hcopy => ?_, fun htiles hname => ⟨fun hreal hoverlap => ?_, fun hfree => ?_⟩⟩
  · obtain ⟨e, he, hed⟩ := exists_reordered_of_mem hcopy hd
    have hrecord : e.record path ∈ c.table.records := hrecords ▸ List.mem_map_of_mem he
    exact stops (Table.take_copy (compatible_of_read h) hrecord hed (hed.tiles (hwf.tiles e he)))
  · obtain ⟨before, r, after, hsplit, hr, hbefore, htake⟩ :=
      Table.take_of_overlaps htiles hreal hoverlap
    exact ⟨before, r, after, hsplit, hr, hbefore, stops htake⟩
  · refine stops (Table.take_of_mem_names htiles (fun hreal => ?_) hname)
    exact Table.checkOverlap_eq_ok_iff.2 (hfree hreal)

def spelled : String := "a 15..0=1\n@p 15..0=1\n"

def spelledBytes : List UInt8 := Text.toBytes spelled.toList

def spelledWith (line : String) (h : '\n' ∉ line.toList) : Text.Addition spelled where
  line := line
  stop := "\n"
  close_blank := by decide
  ended := .inr (by decide)
  line_free := h
  stop_blank := by decide

theorem number_spelledWith (line : String) (h : '\n' ∉ line.toList) :
    (spelledWith line h).number = 3 := by
  change (Text.linesOf (spelled ++ "")).length + 1 = 3
  decide +kernel

theorem redefinition_rejected_spelled :
    (∃ d, StopsAt "" (spelledBytes ++ Text.toBytes "a 15..0=1\n".toList) d (.overlap "a")) ∧
      (∃ d, StopsAt "" (spelledBytes ++ Text.toBytes "@p 15..0=1\n".toList) d .duplicateName) ∧
      (∃ d, d.name = "p" ∧
        StopsAt "" (spelledBytes ++ Text.toBytes "p 15..0=1\n".toList) d (.overlap "a")) ∧
      ∃ d, d.name = "p" ∧
        StopsAt "" (spelledBytes ++ Text.toBytes "p 15..0=2\n".toList) d .duplicateName := by
  have hbytes : Text.ofBytes? spelledBytes = some spelled := ofBytes?_toBytes spelled
  obtain ⟨c, hc, hrecords⟩ : ∃ c, read .failFast "" spelledBytes = .ok c ∧
    c.table.records = (definitions spelled).map (Definition.record "") :=
      exists_read hbytes (by decide +kernel)
  obtain ⟨text, htext, hrejected⟩ := redefinition_rejected hc
  obtain rfl : text = spelled := Option.some.inj (htext.symm.trans hbytes)
  have hrejected (line : String) (h : '\n' ∉ line.toList) (d : Definition)
      (hd : d ∈ Definition.ofLine? 3 line) :=
    hrejected (spelledWith line h) d (by rw [number_spelledWith]; exact hd)
  have hnames : "p" ∈ c.table.names := by
    rw [Table.names, hrecords]
    decide +kernel
  refine ⟨?_, ?_, ?_, ?_⟩
  · obtain ⟨d, hd, hname, hreal⟩ : ∃ d ∈ Definition.ofLine? 3 "a 15..0=1",
        d.name = "a" ∧ d.isPseudo = false := by decide +kernel
    have hstop := (hrejected _ (by decide) d hd).1 (by decide +kernel)
    rw [hname, hreal] at hstop
    exact ⟨d, hstop⟩
  · obtain ⟨d, hd, hpseudo⟩ : ∃ d ∈ Definition.ofLine? 3 "@p 15..0=1", d.isPseudo = true := by
      decide +kernel
    have hstop := (hrejected _ (by decide) d hd).1 (by decide +kernel)
    rw [hpseudo] at hstop
    exact ⟨d, hstop⟩
  · obtain ⟨d, hd, htiles, hname, hreal, hexists, hoverlap⟩ :
        ∃ d ∈ Definition.ofLine? 3 "p 15..0=1", d.Tiles ∧ d.name = "p" ∧ d.isPseudo = false ∧
          (∃ r ∈ ((definitions spelled).map (Definition.record "")).filter fun r => !r.isPseudo,
            d.encoding.overlaps r.encoding = true) ∧
          ∀ r ∈ (definitions spelled).map (Definition.record ""), r.isPseudo = false →
            d.encoding.overlaps r.encoding = true → r.name = "a" := by decide +kernel
    rw [← hrecords] at hexists hoverlap
    have hstop := (hrejected _ (by decide) d hd).2 htiles (hname ▸ hnames)
    obtain ⟨before, r, after, hsplit, ⟨hrreal, hr⟩, -, hstop⟩ := hstop.1 hreal hexists
    rw [hoverlap r (by simp [hsplit]) hrreal hr] at hstop
    exact ⟨d, hname, hstop⟩
  · obtain ⟨d, hd, htiles, hname, hfree⟩ :
        ∃ d ∈ Definition.ofLine? 3 "p 15..0=2", d.Tiles ∧ d.name = "p" ∧
          ∀ r ∈ (definitions spelled).map (Definition.record ""), r.isPseudo = false →
            d.encoding.overlaps r.encoding = false := by decide +kernel
    rw [← hrecords] at hfree
    have hstop := (hrejected _ (by decide) d hd).2 htiles (hname ▸ hnames)
    refine ⟨d, hname, hstop.2 fun _ r hr => ?_⟩
    rw [Table.real, List.mem_filter, Bool.not_eq_true'] at hr
    exact hfree r hr.1 hr.2

end Listing

end OpcodeTable
