import Mathlib.Data.List.Pairwise
import OpcodeTable.Proofs.Definition.Sound
import OpcodeTable.Proofs.Draft.History
import OpcodeTable.Proofs.Table.Recheck

namespace OpcodeTable

namespace Encoding

variable {ls : List Literal} {i : Nat}

theorem getLsbD_mask_ofLiterals :
    (ofLiterals ls).mask.getLsbD i = true ↔ ∃ l ∈ ls, i ∈ l.range := by
  simp [ofLiterals, BitRange.getLsbD_cover]

theorem getLsbD_value_ofLiterals :
    (ofLiterals ls).value.getLsbD i = true ↔
      ∃ l ∈ ls, i ∈ l.range ∧ l.value.getLsbD (i - l.range.low) = true := by
  simp [ofLiterals, BitVec.testBit_toNat]

theorem getLsbD_value_of_mem (h : (ls.map Literal.range).Pairwise BitRange.Disjoint) {l : Literal}
    (hl : l ∈ ls) (hi : i ∈ l.range) :
    (ofLiterals ls).value.getLsbD i = l.value.getLsbD (i - l.range.low) := by
  have hsymm : Std.Symm fun l m : Literal => l.range.Disjoint m.range :=
    ⟨fun _ _ => BitRange.Disjoint.symm⟩
  rw [List.pairwise_map] at h
  rw [Bool.eq_iff_iff, getLsbD_value_ofLiterals]
  constructor
  · rintro ⟨m, hm, him, hbit⟩
    by_cases hlm : l = m
    · rwa [hlm]
    · exact absurd him (h.forall hl hm hlm i hi)
  · intro hbit
    exact ⟨l, hl, hi, hbit⟩

theorem getLsbD_value_of_not_mem (h : ∀ l ∈ ls, i ∉ l.range) :
    (ofLiterals ls).value.getLsbD i = false := by
  rw [← Bool.not_eq_true, getLsbD_value_ofLiterals]
  rintro ⟨l, hl, hi, -⟩
  exact h l hl hi

end Encoding

namespace Draft

structure Sound (d : Draft) : Prop where
  disjoint : d.ranges.Pairwise BitRange.Disjoint
  coverage_eq : d.coverage.bits = BitRange.cover d.ranges
  encoding_eq : d.encoding = .ofLiterals d.literals
  fits : ∀ l ∈ d.literals, l.value.toNat < 2 ^ l.range.width

/-- The words of a draft say what its lists say, bit by bit. -/
structure BitExact (d : Draft) : Prop where
  disjoint : d.ranges.Pairwise BitRange.Disjoint
  coverage : ∀ i, d.coverage.bits.getLsbD i = true ↔ ∃ r ∈ d.ranges, i ∈ r
  mask : ∀ i, d.encoding.mask.getLsbD i = true ↔ ∃ l ∈ d.literals, i ∈ l.range
  value_inside : ∀ l ∈ d.literals, ∀ i ∈ l.range,
    d.encoding.value.getLsbD i = l.value.getLsbD (i - l.range.low)
  value_outside : ∀ i, (∀ l ∈ d.literals, i ∉ l.range) → d.encoding.value.getLsbD i = false
  fits : ∀ l ∈ d.literals, l.value.toNat < 2 ^ l.range.width
  covered : ∀ format, (d.record format).covered = d.coverage.bits

theorem sound_blank (name : String) (isPseudo : Bool) (span : Option Span) :
    (blank name isPseudo span).Sound where
  disjoint := List.Pairwise.nil
  coverage_eq := rfl
  encoding_eq := rfl
  fits := by simp [blank]

theorem ranges_extend_perm (d : Draft) (e : Edit) :
    (d.extend [e]).ranges.Perm (e.range :: d.ranges) := by
  have middle (fs ls is : List BitRange) (r : BitRange) :
      (fs ++ (ls ++ r :: is)).Perm (r :: (fs ++ (ls ++ is))) := by
    rw [← List.append_assoc, ← List.append_assoc]
    exact List.perm_middle
  have literal (r : BitRange) (v : Nat) :
      (d.extend [.literal r v]).ranges.Perm (r :: d.ranges) := by
    simp only [extend_literal, Instruction.ranges, List.map_append, List.map_cons, List.map_nil,
      List.append_assoc, List.cons_append, List.nil_append]
    exact middle _ _ _ r
  cases e with
  | field f =>
    simp only [extend_field, Instruction.ranges, List.map_append, List.map_cons, List.map_nil,
      List.append_assoc, List.cons_append, List.nil_append]
    exact List.perm_middle
  | assign f v => exact literal f.range v
  | literal r v => exact literal r v
  | ignore r =>
    simp only [extend_ignore, Instruction.ranges, ← List.append_assoc]
    exact List.perm_append_singleton _ _

namespace Sound

variable {d d' : Draft} {e : Edit}

theorem perform (h : d.Sound) (hd : d.perform e = .ok d') : d'.Sound := by
  obtain ⟨hfits, hfree, rfl⟩ := perform_eq_ok_iff.1 hd
  have hperm := d.ranges_extend_perm e
  refine ⟨?_, ?_, ?_, ?_⟩
  · rw [hperm.pairwise_iff BitRange.Disjoint.symm, List.pairwise_cons]
    refine ⟨fun r hr => ?_, h.disjoint⟩
    rw [h.coverage_eq, BitRange.cover_and_mask_eq_zero_iff] at hfree
    exact (hfree r hr).symm
  · rw [BitRange.cover_perm hperm, BitRange.cover_cons, BitVec.or_comm, ← h.coverage_eq]
    simp [extend]
  · simp [extend, h.encoding_eq, Encoding.ofLiterals_append]
  · intro l hl
    rw [extend, List.mem_append] at hl
    cases hl with
    | inl hl => exact h.fits l hl
    | inr hl =>
      obtain ⟨f, hf, hfl⟩ := List.mem_filterMap.1 hl
      obtain rfl := List.mem_singleton.1 hf
      exact Edit.toNat_lt_of_literal? hfits hfl

theorem after (h : d.Sound) (es : List Edit) : (d.after es).Sound := by
  induction es generalizing d with
  | nil => exact h
  | cons e es ih =>
    rw [Draft.after]
    cases hd : d.perform e with
    | ok d' => exact ih (h.perform hd)
    | error fault => exact ih h

theorem bitExact (h : d.Sound) : d.BitExact where
  disjoint := h.disjoint
  coverage := by
    intro i
    rw [h.coverage_eq, BitRange.getLsbD_cover]
  mask := by
    intro i
    rw [h.encoding_eq, Encoding.getLsbD_mask_ofLiterals]
  value_inside := by
    intro l hl i hi
    have hliterals : (d.literals.map Literal.range).Sublist d.ranges :=
      (List.sublist_append_right _ _).trans (List.sublist_append_left _ _)
    rw [h.encoding_eq]
    exact Encoding.getLsbD_value_of_mem (h.disjoint.sublist hliterals) hl hi
  value_outside := by
    intro i hi
    rw [h.encoding_eq]
    exact Encoding.getLsbD_value_of_not_mem hi
  fits := h.fits
  covered := fun _ => (Instruction.covered_eq _).trans h.coverage_eq.symm

end Sound

/-- Whatever edits are made of a blank draft, granted or refused, it stays exact to the bit. -/
theorem bitExact_after (name : String) (isPseudo : Bool) (span : Option Span) (es : List Edit) :
    ((blank name isPseudo span).after es).BitExact :=
  ((sound_blank name isPseudo span).after es).bitExact

end Draft

end OpcodeTable
