import OpcodeTable.Proofs.Listing.Run

namespace OpcodeTable

namespace Record

theorem names_nodup_of_compatible {rs : List Record} (h : rs.Pairwise Compatible) :
    (rs.map fun r => r.name).Nodup :=
  List.pairwise_map.2 (h.imp And.left)

theorem exists_table {rs : List Record} (h : rs.Pairwise Compatible) :
    ∃ t : Table, t.records = rs :=
  ⟨⟨rs, names_nodup_of_compatible h⟩, rfl⟩

end Record

namespace Listing

def definitionsFrom (number : Nat) : List String → List Definition
  | [] => []
  | line :: rest =>
    match Definition.ofLine? number line with
    | none => definitionsFrom (number + 1) rest
    | some d => d :: definitionsFrom (number + 1) rest

def definitions (text : String) : List Definition := definitionsFrom 1 (Text.linesOf text)

structure WellFormed (ds : List Definition) : Prop where
  tiles : ∀ d ∈ ds, d.Tiles
  names_nodup : (ds.map Definition.name).Nodup
  distinct : (ds.filter fun d => !d.isPseudo).Pairwise fun a b =>
    a.encoding.value &&& a.encoding.mask &&& b.encoding.mask ≠
      b.encoding.value &&& a.encoding.mask &&& b.encoding.mask

instance (ds : List Definition) : Decidable (WellFormed ds) :=
  decidable_of_iff
    ((∀ d ∈ ds, d.Tiles) ∧ (ds.map Definition.name).Nodup ∧
      (ds.filter fun d => !d.isPseudo).Pairwise fun a b =>
        a.encoding.value &&& a.encoding.mask &&& b.encoding.mask ≠
          b.encoding.value &&& a.encoding.mask &&& b.encoding.mask)
    ⟨fun h => ⟨h.1, h.2.1, h.2.2⟩, fun h => ⟨h.tiles, h.names_nodup, h.distinct⟩⟩

theorem compatible_record_iff {path : String} {a b : Definition} :
    (a.record path).Compatible (b.record path) ↔
      a.name ≠ b.name ∧
        (a.isPseudo = false → b.isPseudo = false →
          a.encoding.value &&& a.encoding.mask &&& b.encoding.mask ≠
            b.encoding.value &&& a.encoding.mask &&& b.encoding.mask) := by
  simp only [Record.Compatible, Encoding.overlaps, beq_eq_false_iff_ne, BitVec.and_assoc]
  rfl

theorem wellFormed_iff {path : String} {ds : List Definition} :
    WellFormed ds ↔
      (∀ d ∈ ds, d.Tiles) ∧ (ds.map (Definition.record path)).Pairwise Record.Compatible := by
  simp only [List.pairwise_map, compatible_record_iff, List.pairwise_and_iff]
  constructor
  · intro h
    refine ⟨h.tiles, List.pairwise_map.1 h.names_nodup, ?_⟩
    simpa [List.pairwise_filter] using h.distinct
  · intro h
    refine ⟨h.1, List.pairwise_map.2 h.2.1, ?_⟩
    simpa [List.pairwise_filter] using h.2.2

theorem pairwise_concat {rs : List Record} {r : Record} (hrs : rs.Pairwise Record.Compatible)
    (hr : ∀ s ∈ rs, s.Compatible r) : (rs ++ [r]).Pairwise Record.Compatible := by
  simpa [List.pairwise_append, hrs] using hr

theorem run_eq_nil_iff {path : String} {number : Nat} {t t' : Table} {lines : List String}
    (ht : t.records.Pairwise Record.Compatible) :
    run path number t lines = (t', []) ↔
      (∀ d ∈ definitionsFrom number lines, d.Tiles) ∧
        t'.records = t.records ++ (definitionsFrom number lines).map (Definition.record path) ∧
          t'.records.Pairwise Record.Compatible := by
  -- The records of the table stay pairwise compatible, so each line is checked against all of them.
  induction lines generalizing number t with
  | nil =>
    simp only [run, definitionsFrom, Prod.mk.injEq, and_true, List.map_nil, List.append_nil]
    constructor
    · intro h
      subst h
      exact ⟨by simp, rfl, ht⟩
    · intro h
      exact Table.ext_records h.2.1.symm
  | cons line lines ih =>
    cases hd : Definition.ofLine? number line with
    | none => simp only [run, definitionsFrom, hd, Table.readLine_of_blank hd, ih ht]
    | some d =>
      simp only [run, definitionsFrom, hd, List.forall_mem_cons, List.map_cons]
      constructor
      · intro h
        split at h
        next t₁ hline =>
          obtain ⟨htiles, hcompat, hrec⟩ := (Table.readLine_eq_ok_iff hd).1 hline
          obtain ⟨hrest, hrec', hpair⟩ := (ih (hrec ▸ pairwise_concat ht hcompat)).1 h
          exact ⟨⟨htiles, hrest⟩, by simpa [hrec] using hrec', hpair⟩
        next r hline => cases h
      · intro h
        obtain ⟨⟨htiles, hrest⟩, hrec, hpair⟩ := h
        have hcompat : ∀ r ∈ t.records, r.Compatible (d.record path) := by
          intro r hr
          rw [hrec, List.pairwise_append] at hpair
          exact hpair.2.2 r hr _ List.mem_cons_self
        have ht₁ := pairwise_concat ht hcompat
        obtain ⟨t₁, hrec₁⟩ := Record.exists_table ht₁
        rw [(Table.readLine_eq_ok_iff hd).2 ⟨htiles, hcompat, hrec₁⟩]
        exact (ih (hrec₁ ▸ ht₁)).2 ⟨hrest, by simpa [hrec₁] using hrec, hpair⟩

theorem run_empty_eq_nil_iff {path text : String} {t : Table} :
    run path 1 .empty (Text.linesOf text) = (t, []) ↔
      WellFormed (definitions text) ∧
        t.records = (definitions text).map (Definition.record path) := by
  have hempty : Table.empty.records.Pairwise Record.Compatible := List.Pairwise.nil
  rw [run_eq_nil_iff hempty, wellFormed_iff]
  constructor
  · intro h
    exact ⟨⟨h.1, h.2.1 ▸ h.2.2⟩, h.2.1⟩
  · intro h
    exact ⟨h.1.1, h.2, h.2 ▸ h.1.2⟩

theorem read_eq_ok_iff {mode : ErrorMode} {path : String} {bytes : List UInt8} {c : Compilation} :
    read mode path bytes = .ok c ↔
      ∃ text, Text.ofBytes? bytes = some text ∧ WellFormed (definitions text) ∧
        c.table.records = (definitions text).map (Definition.record path) ∧
          c.warnings = c.table.warnings := by
  constructor
  · intro h
    obtain ⟨text, htext⟩ := isText_of_read_eq_ok h
    obtain ⟨hrun, hwarn⟩ := (read_eq_ok_iff_run htext).1 h
    obtain ⟨hwf, hrec⟩ := run_empty_eq_nil_iff.1 hrun
    exact ⟨text, htext, hwf, hrec, hwarn⟩
  · intro h
    obtain ⟨text, htext, hwf, hrec, hwarn⟩ := h
    exact (read_eq_ok_iff_run htext).2 ⟨run_empty_eq_nil_iff.2 ⟨hwf, hrec⟩, hwarn⟩

theorem exists_read {mode : ErrorMode} {path text : String} {bytes : List UInt8}
    (htext : Text.ofBytes? bytes = some text) (h : WellFormed (definitions text)) :
    ∃ c, read mode path bytes = .ok c ∧
      c.table.records = (definitions text).map (Definition.record path) := by
  obtain ⟨t, ht⟩ := Record.exists_table (wellFormed_iff.1 h).2
  exact ⟨⟨t, t.warnings⟩, read_eq_ok_iff.2 ⟨text, htext, h, ht, rfl⟩, ht⟩

/-- A file is accepted exactly when it is text and its definitions are well formed. The table then
holds one record for each of them, in order. -/
theorem accepted_iff (mode : ErrorMode) (path : String) (bytes : List UInt8) :
    ((∃ c, read mode path bytes = .ok c) ↔
        ∃ text, Text.ofBytes? bytes = some text ∧ WellFormed (definitions text)) ∧
      ∀ text c, Text.ofBytes? bytes = some text → read mode path bytes = .ok c →
        c.table.records = (definitions text).map (Definition.record path) := by
  constructor
  · constructor
    · intro h
      obtain ⟨c, hc⟩ := h
      obtain ⟨text, htext, hwf, -⟩ := read_eq_ok_iff.1 hc
      exact ⟨text, htext, hwf⟩
    · intro h
      obtain ⟨text, htext, hwf⟩ := h
      obtain ⟨c, hc, -⟩ := exists_read htext hwf
      exact ⟨c, hc⟩
  · intro text c htext hc
    obtain ⟨text', htext', -, hrec, -⟩ := read_eq_ok_iff.1 hc
    obtain rfl : text' = text := Option.some.inj (htext'.symm.trans htext)
    exact hrec

def sample : String :=
  "addi rd rs1 imm12 14..12=0 6..0=0x13\n" ++
    "@nop 31..7=0 6..0=0x13 # no effect\n" ++
    "c.li 15..13=2 12=ignore rd 6..2=ignore 1..0=1\n"

def sampleBytes : List UInt8 := Text.toBytes sample.toList

theorem ofBytes?_sampleBytes : Text.ofBytes? sampleBytes = some sample := ofBytes?_toBytes sample

theorem wellFormed_sample : WellFormed (definitions sample) := by decide +kernel

theorem accepted_sample :
    ∃ c, read .failFast "" sampleBytes = .ok c ∧
      c.table.records = (definitions sample).map (Definition.record "") := by
  obtain ⟨haccepted, htable⟩ := accepted_iff .failFast "" sampleBytes
  obtain ⟨c, hc⟩ := haccepted.2 ⟨sample, ofBytes?_sampleBytes, wellFormed_sample⟩
  exact ⟨c, hc, htable sample c ofBytes?_sampleBytes hc⟩

end Listing

end OpcodeTable
