import OpcodeTable.Proofs.Word.Cover
import OpcodeTable.Word

namespace OpcodeTable.Encoding

variable {e f : Encoding} {w : Word}

theorem value_mem_iff : e.value ∈ e ↔ e.value &&& ~~~e.mask = 0 := by
  rw [mem_def, Word.and_not_eq_zero_iff]

theorem mem_iff_bits (he : e.value ∈ e) :
    w ∈ e ↔ ∀ i, e.mask.getLsbD i = true → w.getLsbD i = e.value.getLsbD i := by
  rw [mem_def] at he ⊢
  constructor
  · intro h i hm
    rw [← h, BitVec.getLsbD_and, hm, Bool.and_true]
  · intro h
    apply Word.ext_bits
    intro i
    rw [← he, BitVec.getLsbD_and, BitVec.getLsbD_and]
    cases hm : e.mask.getLsbD i with
    | true => rw [h i hm]
    | false => rw [Bool.and_false, Bool.and_false]

theorem overlaps_comm (e f : Encoding) : e.overlaps f = f.overlaps e := by
  rw [overlaps, overlaps, BitVec.and_comm f.mask, Bool.beq_comm]

theorem overlaps_iff_bits :
    e.overlaps f = true ↔ ∀ i, e.mask.getLsbD i = true → f.mask.getLsbD i = true →
      e.value.getLsbD i = f.value.getLsbD i := by
  rw [overlaps, beq_iff_eq]
  constructor
  · intro h i he hf
    have hi := congrArg (fun w : Word => w.getLsbD i) h
    simpa [he, hf] using hi
  · intro h
    apply Word.ext_bits
    intro i
    simp only [BitVec.getLsbD_and]
    cases he : e.mask.getLsbD i with
    | false => simp
    | true =>
      cases hf : f.mask.getLsbD i with
      | false => simp
      | true => rw [h i he hf]

def Meets (e f : Encoding) : Prop := ∃ w, w ∈ e ∧ w ∈ f

theorem Meets.overlaps (h : e.Meets f) : e.overlaps f = true := by
  obtain ⟨w, he, hf⟩ := h
  rw [overlaps_iff_bits]
  intro i hie hif
  rw [mem_def] at he hf
  rw [← he, ← hf, BitVec.getLsbD_and, BitVec.getLsbD_and, hie, hif]

theorem or_value_mem (he : e.value ∈ e) (hf : f.value ∈ f) (h : e.overlaps f = true) :
    e.value ||| f.value ∈ e := by
  rw [mem_iff_bits he]
  intro i hi
  rw [BitVec.getLsbD_or]
  cases hv : f.value.getLsbD i with
  | false => exact Bool.or_false _
  | true =>
    have hm : f.mask.getLsbD i = true := Word.and_eq_left_iff.1 hf i hv
    rw [overlaps_iff_bits.1 h i hi hm, hv, Bool.or_true]

theorem overlaps_iff_meets (he : e.value ∈ e) (hf : f.value ∈ f) :
    e.overlaps f = true ↔ e.Meets f := by
  constructor
  · intro h
    refine ⟨e.value ||| f.value, or_value_mem he hf h, ?_⟩
    rw [BitVec.or_comm]
    exact or_value_mem hf he ((overlaps_comm f e).trans h)
  · exact Meets.overlaps

end OpcodeTable.Encoding
