import OpcodeTable.Proofs.Definition.Sound

namespace OpcodeTable

namespace Record

/-- The ranges that the encoding does not fix, fields first. -/
def openRanges (r : Record) : List BitRange := r.fields.map Field.range ++ r.ignored

def Takes (r : Record) (vs : List Nat) : Prop :=
  List.Forall₂ (fun s v => v < 2 ^ s.width) r.openRanges vs

instance (r : Record) (vs : List Nat) : Decidable (r.Takes vs) :=
  inferInstanceAs (Decidable (List.Forall₂ (fun s v => v < 2 ^ s.width) r.openRanges vs))

def assemble (r : Record) (vs : List Nat) : Word :=
  r.encoding.value ||| BitRange.placeAll r.openRanges vs

def disassemble (r : Record) (w : Word) : List Nat := r.openRanges.map fun s => s.extract w

def literalRanges (r : Record) : List BitRange := r.literals.map Literal.range

def literalValues (r : Record) : List Nat := r.literals.map fun l => l.value.toNat

theorem ranges_perm (r : Record) : (r.literalRanges ++ r.openRanges).Perm r.ranges := by
  unfold literalRanges openRanges Instruction.ranges
  rw [← List.append_assoc]
  exact List.perm_append_comm.append_right r.ignored

theorem takes_disassemble (r : Record) (w : Word) : r.Takes (r.disassemble w) := by
  rw [Takes, disassemble, List.forall₂_map_right_iff, List.forall₂_same]
  intro s _
  exact s.extract_lt_two_pow w

end Record

theorem Encoding.value_ofLiterals (ls : List Literal) :
    (Encoding.ofLiterals ls).value =
      BitRange.placeAll (ls.map Literal.range) (ls.map fun l => l.value.toNat) := by
  rw [BitRange.placeAll, List.zipWith_map, List.zipWith_self]
  rfl

theorem Encoding.value_mem_ofLiterals (ls : List Literal) :
    (ofLiterals ls).value ∈ ofLiterals ls := by
  rw [mem_def, Word.and_eq_left_iff, value_ofLiterals]
  intro i hi
  exact BitRange.getLsbD_cover.2 (BitRange.exists_mem_of_getLsbD_placeAll hi)

theorem Encoding.mem_ofLiterals {ls : List Literal} {w : Word}
    (h : ls.map (fun l => l.range.extract w) = ls.map fun l => l.value.toNat) :
    w ∈ Encoding.ofLiterals ls := by
  have hplace := BitRange.placeAll_extract (ls.map Literal.range) w
  rw [List.map_map] at hplace
  rw [mem_def, value_ofLiterals, ← h]
  exact hplace.symm

theorem WordFormat.and_coverage {f : WordFormat} {w : Word}
    (h : f = .compressed → w.toNat < 2 ^ 16) : w &&& f.coverage = w := by
  cases f with
  | full => exact BitVec.and_allOnes
  | compressed =>
    rw [Word.and_eq_left_iff]
    intro i hi
    have hlt : i < 16 := by
      rw [← Nat.not_le]
      intro hle
      have hpow : 2 ^ 16 ≤ 2 ^ i := Nat.pow_le_pow_right (by decide) hle
      have hw := Nat.testBit_lt_two_pow (Nat.lt_of_lt_of_le (h rfl) hpow)
      rw [BitVec.testBit_toNat, hi] at hw
      cases hw
    have hall : ∀ j < 16, (WordFormat.compressed.coverage).getLsbD j = true := by decide
    exact hall i hlt

namespace Record.Sound

variable {r : Record} {vs : List Nat} {w : Word}

theorem assemble_eq (h : r.Sound) (vs : List Nat) :
    r.assemble vs =
      BitRange.placeAll (r.literalRanges ++ r.openRanges) (r.literalValues ++ vs) := by
  rw [BitRange.placeAll_append (by simp [literalRanges, literalValues]), assemble, h.encoding_eq,
    Encoding.value_ofLiterals]
  rfl

theorem extract_assemble (h : r.Sound) (hvs : r.Takes vs) :
    r.literalRanges.map (fun s => s.extract (r.assemble vs)) = r.literalValues ∧
      r.disassemble (r.assemble vs) = vs := by
  have hlits : List.Forall₂ (fun s v => v < 2 ^ s.width) r.literalRanges r.literalValues := by
    rw [literalRanges, literalValues, List.forall₂_map_left_iff, List.forall₂_map_right_iff,
      List.forall₂_same]
    exact h.fits
  have hdisj : (r.literalRanges ++ r.openRanges).Pairwise BitRange.Disjoint :=
    (r.ranges_perm.pairwise_iff BitRange.Disjoint.symm).2 h.disjoint
  -- Literals and operands are read back together, for only together are they known to be disjoint.
  have hall := BitRange.map_extract_placeAll (List.rel_append hlits hvs) hdisj
  rw [← h.assemble_eq, List.map_append] at hall
  exact List.append_inj hall (by simp [literalRanges, literalValues])

theorem assemble_mem (h : r.Sound) (hvs : r.Takes vs) : r.assemble vs ∈ r.encoding := by
  rw [h.encoding_eq]
  apply Encoding.mem_ofLiterals
  simpa [literalRanges, literalValues] using (h.extract_assemble hvs).1

theorem assemble_disassemble (h : r.Sound) (hw : w ∈ r.encoding)
    (hfit : r.format = .compressed → w.toNat < 2 ^ 16) : r.assemble (r.disassemble w) = w := by
  have hmask : r.encoding.mask = BitRange.cover r.literalRanges := by
    rw [h.encoding_eq]
    rfl
  have hcover : BitRange.cover r.literalRanges ||| BitRange.cover r.openRanges =
      r.format.coverage := by
    rw [← BitRange.cover_append, BitRange.cover_perm r.ranges_perm, h.whole]
  calc
    r.assemble (r.disassemble w) =
        w &&& BitRange.cover r.literalRanges ||| w &&& BitRange.cover r.openRanges := by
      rw [assemble, disassemble, BitRange.placeAll_extract, ← hmask, ← Encoding.mem_def.1 hw]
    -- No bit of the format lies outside both lists of ranges.
    _ = w &&& r.format.coverage := by rw [← hcover, BitVec.and_or_distrib_left]
    _ = w := WordFormat.and_coverage hfit

theorem value_mem (h : r.Sound) : r.encoding.value ∈ r.encoding := by
  rw [h.encoding_eq]
  exact Encoding.value_mem_ofLiterals r.literals

end Record.Sound

end OpcodeTable
