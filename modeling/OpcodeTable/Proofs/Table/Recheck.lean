import OpcodeTable.Proofs.Definition.Sound
import OpcodeTable.Proofs.List.Pointwise
import OpcodeTable.Proofs.Table.Overlap
import OpcodeTable.Proofs.Word.Count
import OpcodeTable.Table.Overlap

namespace OpcodeTable

theorem BitRange.foldl_or_mask (rs : List BitRange) (w : Word) :
    rs.foldl (fun bits r => bits ||| r.mask) w = w ||| cover rs := by
  induction rs generalizing w with
  | nil => exact BitVec.or_zero.symm
  | cons r rs ih => rw [List.foldl_cons, ih, cover_cons, BitVec.or_assoc]

theorem Instruction.covered_eq (i : Instruction) : i.covered = BitRange.cover i.ranges := by
  rw [covered, BitRange.foldl_or_mask]
  exact BitVec.zero_or

namespace Record

variable {r : Record} {fault : Fault}

structure Tiled (r : Record) : Prop where
  disjoint : r.ranges.Pairwise BitRange.Disjoint
  whole : BitRange.cover r.ranges = r.format.coverage

theorem tiled_iff :
    r.Tiled ↔
      r.ranges.Pairwise BitRange.Disjoint ∧ BitRange.cover r.ranges = r.format.coverage :=
  ⟨fun h => ⟨h.disjoint, h.whole⟩, fun h => ⟨h.1, h.2⟩⟩

instance (r : Record) : Decidable r.Tiled := decidable_of_iff' _ tiled_iff

theorem Sound.tiled (h : r.Sound) : r.Tiled := ⟨h.disjoint, h.whole⟩

/-- The fault of a record that does not tile its word. Which bits an overspecified record is said to
claim more than once is left open. -/
inductive Misfit (r : Record) : Fault → Prop
  | overspecified {bits : Word} : ¬ r.ranges.Pairwise BitRange.Disjoint →
      Misfit r (.overspecified bits)
  | incomplete : r.ranges.Pairwise BitRange.Disjoint →
      BitRange.cover r.ranges ≠ r.format.coverage →
      Misfit r (.incompleteCoverage (BitRange.cover r.ranges))

theorem Misfit.not_tiled (h : r.Misfit fault) : ¬ r.Tiled := by
  intro htiled
  cases h with
  | overspecified hdisjoint => exact hdisjoint htiled.disjoint
  | incomplete _ hwhole => exact hwhole htiled.whole

theorem Misfit.code_eq (h : r.Misfit fault) :
    fault.code =
      if r.ranges.Pairwise BitRange.Disjoint then "coverage.incomplete"
      else "coverage.overspecified" := by
  cases h with
  | overspecified hdisjoint => exact (if_neg hdisjoint).symm
  | incomplete hdisjoint _ => exact (if_pos hdisjoint).symm

theorem claimedBits_of_disjoint (h : r.ranges.Pairwise BitRange.Disjoint) :
    r.claimedBits = (BitRange.cover r.ranges).bitCount := by
  have hle := Word.bitCount_le (BitRange.cover r.ranges)
  rw [claimedBits, BitRange.sum_width_eq_bitCount_cover_iff.2 h]
  exact Nat.mod_eq_of_lt (by omega)

theorem claimedBits_of_length_lt (h : r.ranges.length < 2 ^ 27) :
    r.claimedBits = r.ranges.foldr (fun s bits => s.width + bits) 0 := by
  have hle := BitRange.sum_width_le r.ranges
  exact Nat.mod_eq_of_lt (by omega)

theorem overspecified_of_tilingFault? {bits : Word}
    (h : r.tilingFault? = some (.overspecified bits)) :
    ¬ r.ranges.Pairwise BitRange.Disjoint ∧ bits = BitRange.cover r.ranges := by
  rw [tilingFault?, Instruction.covered_eq] at h
  split_ifs at h with hbits hwhole
  · cases h
    exact ⟨fun hdisjoint => hbits (claimedBits_of_disjoint hdisjoint), rfl⟩
  · cases h

theorem Tiled.tilingFault?_eq_none (h : r.Tiled) : r.tilingFault? = none := by
  rw [tilingFault?, Instruction.covered_eq,
    if_neg (not_not_intro (claimedBits_of_disjoint h.disjoint)), if_neg (not_not_intro h.whole)]

section Bounded

variable (hlength : r.ranges.length < 2 ^ 27)

include hlength

theorem claimedBits_eq_iff :
    r.claimedBits = (BitRange.cover r.ranges).bitCount ↔
      r.ranges.Pairwise BitRange.Disjoint := by
  rw [claimedBits_of_length_lt hlength, BitRange.sum_width_eq_bitCount_cover_iff]

theorem tilingFault?_eq :
    r.tilingFault? =
      if r.ranges.Pairwise BitRange.Disjoint then
        if BitRange.cover r.ranges = r.format.coverage then none
        else some (.incompleteCoverage (BitRange.cover r.ranges))
      else some (.overspecified (BitRange.cover r.ranges)) := by
  simp only [tilingFault?, Instruction.covered_eq, ne_eq, claimedBits_eq_iff hlength, ite_not]

theorem misfit_of_tilingFault? (h : r.tilingFault? = some fault) : r.Misfit fault := by
  rw [tilingFault?_eq hlength] at h
  split_ifs at h with hdisjoint hwhole
  · cases h
    exact .incomplete hdisjoint hwhole
  · cases h
    exact .overspecified hdisjoint

theorem tilingFault?_eq_none_iff : r.tilingFault? = none ↔ r.Tiled := by
  refine ⟨fun h => ?_, Tiled.tilingFault?_eq_none⟩
  rw [tilingFault?_eq hlength] at h
  split_ifs at h with hdisjoint hwhole
  exact ⟨hdisjoint, hwhole⟩

end Bounded

end Record

namespace Table

variable {t : Table}

theorem realOverlaps_eq_nil_iff :
    t.realOverlaps = [] ↔
      t.records.Pairwise fun r s => r.isPseudo = false → s.isPseudo = false →
        r.encoding.overlaps s.encoding = false := by
  simp only [t.listsPairs_realOverlaps.eq_nil_iff, not_and, Bool.not_eq_true]

theorem rejections_eq (t : Table) :
    t.rejections =
      (t.records.filterMap fun r => r.tilingFault?.map fun fault => ⟨r.name, fault, r.span⟩) ++
        t.realOverlaps.map fun p => ⟨p.2.name, .overlap p.1.name, p.2.span⟩ := by
  refine congrArg (_ ++ ·) (List.map_congr_left ?_)
  rintro ⟨r, s⟩ hpair
  exact congrArg (Rejection.mk s.name _) (spanOf?_of_mem_overlapping hpair)

theorem recheck_eq_ok_iff_tilingFault? :
    t.recheck = .ok () ↔
      (∀ r ∈ t.records, r.tilingFault? = none) ∧
        t.records.Pairwise fun r s => r.isPseudo = false → s.isPseudo = false →
          r.encoding.overlaps s.encoding = false := by
  have hnil : t.recheck = .ok () ↔ t.rejections = [] := by
    unfold recheck
    split
    next h => exact iff_of_true rfl h
    next h => exact iff_of_false nofun h
  rw [hnil, rejections_eq, List.append_eq_nil_iff, List.map_eq_nil_iff, realOverlaps_eq_nil_iff,
    List.filterMap_eq_nil_iff]
  simp only [Option.map_eq_none_iff]

theorem recheck_eq_ok (hsound : ∀ r ∈ t.records, r.Sound)
    (hcompat : t.records.Pairwise Record.Compatible) : t.recheck = .ok () :=
  recheck_eq_ok_iff_tilingFault?.2
    ⟨fun r hr => (hsound r hr).tiled.tilingFault?_eq_none, hcompat.imp And.right⟩

theorem forall₂_misfits {rs : List Record} (hlength : ∀ r ∈ rs, r.ranges.length < 2 ^ 27) :
    List.Forall₂ (fun r x => x.instruction = r.name ∧ x.span = r.span ∧ r.Misfit x.fault)
      (rs.filter fun r => ¬ r.Tiled)
      (rs.filterMap fun r => r.tilingFault?.map fun fault =>
        (⟨r.name, fault, r.span⟩ : Rejection)) := by
  apply forall₂_filter_filterMap
  · intro r hr x hx
    obtain ⟨fault, hfault, rfl⟩ := Option.map_eq_some_iff.1 hx
    have hmisfit := Record.misfit_of_tilingFault? (hlength r hr) hfault
    exact ⟨decide_eq_true hmisfit.not_tiled, rfl, rfl, hmisfit⟩
  · intro r hr hnone
    rw [Option.map_eq_none_iff, Record.tilingFault?_eq_none_iff (hlength r hr)] at hnone
    exact decide_eq_false (not_not_intro hnone)

/-- The check passes exactly the tables whose records tile their words and whose real records do not
overlap. Otherwise it gives one finding for each record that does not tile its word, in the order of
the records, and then one for each pair of real records that overlap, in the order of the pairs and
at the later record. No record has so many ranges that their widths outgrow 32 bits. -/
theorem recheck_exact (t : Table) (h : ∀ r ∈ t.records, r.ranges.length < 2 ^ 27) :
    (t.recheck = .ok () ↔
        (∀ r ∈ t.records, r.ranges.Pairwise BitRange.Disjoint ∧
          BitRange.cover r.ranges = r.format.coverage) ∧
        t.records.Pairwise fun r s => r.isPseudo = false → s.isPseudo = false →
          r.encoding.overlaps s.encoding = false) ∧
      ∀ failure, t.recheck = .error failure →
        ∃ (misfits : List Rejection) (pairs : List (Record × Record)),
          List.Forall₂ (fun r x => x.instruction = r.name ∧ x.span = r.span ∧ r.Misfit x.fault)
            (t.records.filter fun r => ¬ r.Tiled) misfits ∧
          ListsPairs
            (fun r s => r.isPseudo = false ∧ s.isPseudo = false ∧
              r.encoding.overlaps s.encoding = true)
            t.records pairs ∧
          failure = .findings ((misfits ++ pairs.map fun p =>
            Rejection.mk p.2.name (.overlap p.1.name) p.2.span).map Rejection.diagnostic) := by
  constructor
  · have htiled : (∀ r ∈ t.records, r.tilingFault? = none) ↔ ∀ r ∈ t.records, r.Tiled :=
      forall₂_congr fun r hr => Record.tilingFault?_eq_none_iff (h r hr)
    simp only [recheck_eq_ok_iff_tilingFault?, htiled, Record.tiled_iff]
  · intro failure herror
    refine ⟨_, t.realOverlaps, forall₂_misfits h, t.listsPairs_realOverlaps, ?_⟩
    unfold recheck at herror
    split at herror
    · cases herror
    · rw [← Except.error.inj herror, rejections_eq]

def patchwork : Table where
  records :=
    [{ name := "a", ignored := [.between 31 0, .between 31 0] },
      { name := "p", isPseudo := true, ignored := [.between 15 0] },
      { name := "b", span := some ⟨"", ⟨3, 1⟩, ⟨3, 2⟩⟩, ignored := [.between 31 0] }]
  names_nodup := by decide

theorem recheck_exact_patchwork :
    ∃ x ds, patchwork.recheck = .error (.findings (x :: ds)) ∧
      x.instruction = some "a" ∧ x.code = "coverage.overspecified" ∧
      ∃ y ∈ ds, y.instruction = some "b" ∧ y.message = "overlaps with a" ∧
        y.span = some ⟨"", ⟨3, 1⟩, ⟨3, 2⟩⟩ := by
  obtain ⟨hok, herror⟩ := recheck_exact patchwork (by decide)
  have htwice : ¬ BitRange.Disjoint (.between 31 0) (.between 31 0) := by decide
  cases hrecheck : patchwork.recheck with
  | ok _ =>
    obtain ⟨hdisjoint, -⟩ := (hok.1 hrecheck).1 _ List.mem_cons_self
    exact absurd (List.pairwise_pair.1 hdisjoint) htwice
  | error failure =>
    obtain ⟨misfits, pairs, hmisfits, hpairs, rfl⟩ := herror failure hrecheck
    have hfilter : (patchwork.records.filter fun r => ¬ r.Tiled) = patchwork.records.take 2 := by
      decide +kernel
    have hpair := (hpairs.mem_iff _ _).2 ⟨⟨0, 2, by decide, rfl, rfl⟩, rfl, rfl, by decide⟩
    rw [hfilter] at hmisfits
    cases hmisfits with
    | cons hx _ =>
      obtain ⟨hinstruction, -, hmisfit⟩ := hx
      have hcode := hmisfit.code_eq.trans (if_neg fun h => htwice (List.pairwise_pair.1 h))
      have hcollision := List.mem_map_of_mem
        (f := fun p => Rejection.mk p.2.name (.overlap p.1.name) p.2.span) hpair
      exact ⟨_, _, rfl, congrArg some hinstruction, hcode, _,
        List.mem_map_of_mem (List.mem_append_right _ hcollision), rfl, rfl, rfl⟩

end Table

end OpcodeTable
