import OpcodeTable.Proofs.Definition.Tiling
import OpcodeTable.Proofs.Word.Place

namespace OpcodeTable

structure Record.Sound (r : Record) : Prop where
  disjoint : r.ranges.Pairwise BitRange.Disjoint
  whole : BitRange.cover r.ranges = r.format.coverage
  encoding_eq : r.encoding = .ofLiterals r.literals
  fits : ∀ l ∈ r.literals, l.value.toNat < 2 ^ l.range.width

namespace Edit

theorem ranges_perm (es : List Edit) :
    ((es.filterMap field?).map Field.range ++ (es.filterMap literal?).map Literal.range ++
      es.filterMap ignored?).Perm (es.map Edit.range) := by
  induction es with
  | nil => exact List.Perm.refl []
  | cons e es ih =>
    have middle (fs ls is : List BitRange) (r : BitRange) :
        (fs ++ r :: ls ++ is).Perm (r :: (fs ++ ls ++ is)) := by
      rw [List.append_assoc, List.append_assoc]
      exact List.perm_middle
    rw [List.map_cons]
    cases e with
    | field f => exact ih.cons f.range
    | assign f v => exact (middle _ _ _ f.range).trans (ih.cons f.range)
    | literal r v => exact (middle _ _ _ r).trans (ih.cons r)
    | ignore r => exact List.perm_middle.trans (ih.cons r)

theorem toNat_lt_of_literal? {e : Edit} {l : Literal} (he : e.Fits) (h : e.literal? = some l) :
    l.value.toNat < 2 ^ l.range.width := by
  have hle (v : Nat) : (BitVec.ofNat 32 v).toNat ≤ v := by
    rw [BitVec.toNat_ofNat]
    exact Nat.mod_le v _
  cases e with
  | field f => cases h
  | assign f v =>
    cases h
    exact Nat.lt_of_le_of_lt (hle v) (BitRange.fits_iff_lt_two_pow.1 he)
  | literal r v =>
    cases h
    exact Nat.lt_of_le_of_lt (hle v) (BitRange.fits_iff_lt_two_pow.1 he)
  | ignore r => cases h

end Edit

namespace Definition

theorem ranges_record_perm (path : String) (d : Definition) :
    (d.record path).ranges.Perm d.ranges :=
  Edit.ranges_perm d.edits

theorem toNat_lt_of_mem_literals {d : Definition} {l : Literal} (h : l ∈ d.literals) :
    l.value.toNat < 2 ^ l.range.width := by
  obtain ⟨e, he, hel⟩ := List.mem_filterMap.1 h
  exact Edit.toNat_lt_of_literal? (Edit.fits_of_mem_ofTokens he) hel

theorem sound_record {d : Definition} (path : String) (h : d.Tiles) : (d.record path).Sound where
  disjoint := ((d.ranges_record_perm path).pairwise_iff BitRange.Disjoint.symm).2 h.disjoint
  whole := by
    rw [BitRange.cover_perm (d.ranges_record_perm path)]
    exact cover_eq_coverage_iff.2 ⟨h.whole, rfl⟩
  encoding_eq := rfl
  fits := fun _ => toNat_lt_of_mem_literals

end Definition

end OpcodeTable
