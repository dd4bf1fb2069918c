import OpcodeTable.Proofs.Table.Recheck
import OpcodeTable.Proofs.Text.Numbers

namespace OpcodeTable

namespace Word

theorem hex?_paddedHex (w : Word) : Text.hex? w.paddedHex.toList = some w.toNat := by
  have hmark : "0x".toList = ['0', 'x'] := by decide
  rw [paddedHex, String.toList_append, hmark, String.toList_ofList]
  exact Text.natural?_leftpad (by decide) (by decide) 8 w.toNat

theorem paddedHex_inj {v w : Word} : v.paddedHex = w.paddedHex ↔ v = w := by
  constructor
  · intro h
    have hread := hex?_paddedHex v
    rw [h, hex?_paddedHex, Option.some.injEq] at hread
    exact (BitVec.eq_of_toNat_eq hread).symm
  · exact congrArg paddedHex

end Word

theorem Fault.message_overspecified_inj {v w : Word} :
    (overspecified v).message = (overspecified w).message ↔ v = w := by
  have hbetween {s t : String} (p q : String) : p ++ s ++ q = p ++ t ++ q ↔ s = t := by
    rw [String.append_left_inj, String.append_right_inj]
  exact (hbetween _ _).trans Word.paddedHex_inj

namespace BitRange

variable {rs : List BitRange} {r : BitRange} {i : Nat}

/-- In how many of the ranges the bit lies. A range counts as often as it is listed. -/
def claims (rs : List BitRange) (i : Nat) : Nat := rs.countP fun r => decide (i ∈ r)

theorem claims_cons (r : BitRange) (rs : List BitRange) (i : Nat) :
    claims (r :: rs) i = claims rs i + if i ∈ r then 1 else 0 := by
  simp only [claims, List.countP_cons, decide_eq_true_eq]

theorem claims_concat (rs : List BitRange) (r : BitRange) (i : Nat) :
    claims (rs ++ [r]) i = claims rs i + if i ∈ r then 1 else 0 := by
  simp only [claims, List.countP_append, List.countP_singleton, decide_eq_true_eq]

theorem getLsbD_cover_iff_claims : (cover rs).getLsbD i = true ↔ 1 ≤ claims rs i := by
  rw [getLsbD_cover, claims, Nat.one_le_iff_ne_zero, ← Nat.pos_iff_ne_zero, List.countP_pos_iff]
  simp only [decide_eq_true_eq]

theorem pairwise_disjoint_iff_claims : rs.Pairwise Disjoint ↔ ∀ i, claims rs i ≤ 1 := by
  induction rs with
  | nil => simp [claims]
  | cons r rs ih =>
    have hfree (i : Nat) : (∀ s ∈ rs, i ∉ s) ↔ claims rs i = 0 := by
      rw [claims, List.countP_eq_zero]
      simp only [decide_eq_true_eq]
    have hhead : (∀ s ∈ rs, r.Disjoint s) ↔ ∀ i ∈ r, claims rs i = 0 := by
      simp only [← hfree]
      exact ⟨fun h i hi s hs => h s hs i hi, fun h s hs i hi => h i hi s hs⟩
    rw [List.pairwise_cons, ih, hhead, ← forall_and]
    apply forall_congr'
    intro i
    rw [claims_cons]
    by_cases hi : i ∈ r
    · simp only [hi, true_implies, if_true]
      omega
    · simp only [hi, false_implies, true_and, if_false, Nat.add_zero]

end BitRange

theorem Coverage.claim_eq_error {rs : List BitRange} {s : BitRange} {fault : Fault}
    (hrs : rs.Pairwise BitRange.Disjoint)
    (h : (Coverage.mk (BitRange.cover rs)).claim s = .error fault) :
    ∃ bits, fault = .overspecified bits ∧
      ∀ i, bits.getLsbD i = true ↔ 2 ≤ BitRange.claims (rs ++ [s]) i := by
  unfold claim at h
  split at h
  · cases h
  · refine ⟨_, (Except.error.inj h).symm, fun i => ?_⟩
    have hle := BitRange.pairwise_disjoint_iff_claims.1 hrs i
    rw [BitVec.getLsbD_and, Bool.and_eq_true, BitRange.getLsbD_cover_iff_claims,
      BitRange.getLsbD_mask, decide_eq_true_eq, BitRange.claims_concat]
    by_cases hi : i ∈ s
    · simp only [hi, and_true, if_true]
      omega
    · rw [if_neg hi]
      exact iff_of_false (fun h => hi h.2) (by omega)

namespace Table

variable {t : Table}

theorem exists_of_mem_rejections {x : Rejection} (hx : x ∈ t.rejections)
    (hcode : x.fault.code = "coverage.overspecified") :
    ∃ r ∈ t.records, x = ⟨r.name, .overspecified (BitRange.cover r.ranges), r.span⟩ ∧
      ¬ r.ranges.Pairwise BitRange.Disjoint := by
  rw [rejections_eq, List.mem_append, List.mem_filterMap, List.mem_map] at hx
  obtain ⟨r, hr, hx⟩ | ⟨p, -, rfl⟩ := hx
  · obtain ⟨fault, hfault, rfl⟩ := Option.map_eq_some_iff.1 hx
    cases fault with
    | overspecified bits =>
      obtain ⟨hdisjoint, rfl⟩ := Record.overspecified_of_tilingFault? hfault
      exact ⟨r, hr, rfl, hdisjoint⟩
    | _ => simp [Fault.code] at hcode
  · simp [Fault.code] at hcode

theorem findings_of_recheck {ds : List Diagnostic} (h : t.recheck = .error (.findings ds)) :
    ds = t.rejections.map Rejection.diagnostic := by
  unfold recheck at h
  split at h
  · cases h
  · cases h
    rfl

/-- A record that is overspecified claims some bit twice, but the bits that are named for it are all
that it covers. They are the bits that are claimed more than once just where no bit is claimed
exactly once. A claim that is refused names the right bits always. -/
theorem overspecified_bits (t : Table) :
    (∀ ds, t.recheck = .error (.findings ds) → ∀ x ∈ ds, x.code = "coverage.overspecified" →
      ∃ r ∈ t.records, x.instruction = some r.name ∧ x.span = r.span ∧
        (∃ i, 2 ≤ BitRange.claims r.ranges i) ∧
        ∃ bits : Word,
          (∀ w : Word, x.message =
            "overspecified: bits " ++ w.paddedHex ++ " claimed more than once" ↔ w = bits) ∧
          (∀ i, bits.getLsbD i = true ↔ 1 ≤ BitRange.claims r.ranges i) ∧
          ((∀ i, bits.getLsbD i = true ↔ 2 ≤ BitRange.claims r.ranges i) ↔
            ∀ i, BitRange.claims r.ranges i ≠ 1)) ∧
      ∀ rs s fault, rs.Pairwise BitRange.Disjoint →
        (Coverage.mk (BitRange.cover rs)).claim s = .error fault →
        ∃ bits, fault = .overspecified bits ∧
          ∀ i, bits.getLsbD i = true ↔ 2 ≤ BitRange.claims (rs ++ [s]) i := by
  refine ⟨fun ds h x hx hcode => ?_, fun rs s fault => Coverage.claim_eq_error⟩
  rw [findings_of_recheck h, List.mem_map] at hx
  obtain ⟨rejection, hrejection, rfl⟩ := hx
  obtain ⟨r, hr, rfl, hdisjoint⟩ := exists_of_mem_rejections hrejection hcode
  refine ⟨r, hr, rfl, rfl, ?_, BitRange.cover r.ranges, fun w => ?_,
    fun i => BitRange.getLsbD_cover_iff_claims, ?_⟩
  · rw [BitRange.pairwise_disjoint_iff_claims] at hdisjoint
    simpa [Nat.lt_iff_add_one_le] using hdisjoint
  · exact Fault.message_overspecified_inj.trans eq_comm
  · simp only [BitRange.getLsbD_cover_iff_claims]
    exact forall_congr' fun i => by omega

def doubled : Table where
  records := [{ name := "a", fields := [.imm20, .imm20] }]

theorem overspecified_bits_doubled :
    (∃ x, ∃ bits : Word, doubled.recheck = .error (.findings [x]) ∧
        x.code = "coverage.overspecified" ∧
        x.message = "overspecified: bits " ++ bits.paddedHex ++ " claimed more than once" ∧
        ∀ i, bits.getLsbD i = true ↔
          2 ≤ BitRange.claims [Field.imm20.range, Field.imm20.range] i) ∧
      ∃ bits : Word,
        (Coverage.mk (BitRange.cover [Field.imm20.range])).claim Field.imm12.range =
          .error (.overspecified bits) ∧
        ∀ i, bits.getLsbD i = true ↔
          2 ≤ BitRange.claims [Field.imm20.range, Field.imm12.range] i := by
  obtain ⟨hrecheck, hclaim⟩ := overspecified_bits doubled
  constructor
  · obtain ⟨r, hr, -, -, -, bits, hmessage, -, hbits⟩ :=
      hrecheck _ rfl _ List.mem_cons_self (by decide +kernel)
    obtain rfl := List.mem_singleton.1 hr
    refine ⟨_, bits, rfl, by decide +kernel, (hmessage bits).2 rfl, hbits.2 fun i => ?_⟩
    have htwice : BitRange.claims [Field.imm20.range, Field.imm20.range] i =
        0 + (if i ∈ Field.imm20.range then 1 else 0) + if i ∈ Field.imm20.range then 1 else 0 := by
      rw [BitRange.claims_cons, BitRange.claims_cons]
      rfl
    refine htwice.trans_ne ?_
    split_ifs <;> decide
  · have hrefused : (Coverage.mk (BitRange.cover [Field.imm20.range])).claim Field.imm12.range =
        .error (.overspecified 0xFFF00000) := by decide +kernel
    obtain ⟨bits, hfault, hbits⟩ := hclaim _ _ _ (List.pairwise_singleton _ _) hrefused
    exact ⟨bits, hfault ▸ hrefused, hbits⟩

def nested : Table where
  records := [{ name := "a", fields := [.imm20, .imm12] }]

theorem overspecified_bits_nested :
    ∃ r x, nested.records = [r] ∧ nested.recheck = .error (.findings [x]) ∧
      x.code = "coverage.overspecified" ∧ x.instruction = some r.name ∧
      x.message = "overspecified: bits 0xfffff000 claimed more than once" ∧
      ∀ i, 2 ≤ BitRange.claims r.ranges i ↔ 20 ≤ i ∧ i ≤ 31 := by
  refine ⟨_, _, rfl, rfl, rfl, rfl, by decide +kernel, fun i => ?_⟩
  change 2 ≤ BitRange.claims [Field.imm20.range, Field.imm12.range] i ↔ 20 ≤ i ∧ i ≤ 31
  have hnone : BitRange.claims [] i = 0 := rfl
  have hlong : i ∈ Field.imm20.range ↔ 12 ≤ i ∧ i ≤ 31 := Iff.rfl
  have hshort : i ∈ Field.imm12.range ↔ 20 ≤ i ∧ i ≤ 31 := Iff.rfl
  simp only [BitRange.claims_cons, hnone, hlong, hshort]
  split_ifs <;> omega

end Table

end OpcodeTable
