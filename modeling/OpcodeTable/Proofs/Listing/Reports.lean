import OpcodeTable.Proofs.Artifact.Names
import OpcodeTable.Proofs.Diagnostic.Wording
import OpcodeTable.Proofs.Listing.Locations

namespace OpcodeTable

theorem Fault.legible_of_quotes {fault : Fault} {text : String} (hfault : fault.ofOperand = true)
    (hquotes : fault.Quotes text) (htext : Text.Unbroken text) : fault.Legible := by
  cases fault with
  | unknownToken x =>
    rw [Legible, quoted, List.forall_mem_singleton]
    exact hquotes ▸ htext
  | badValue x high low =>
    obtain ⟨left, hassigns⟩ := hquotes
    rw [Legible, quoted, List.forall_mem_singleton]
    intro c hc
    refine htext c ?_
    rw [hassigns.text_eq, String.toList_append]
    exact List.mem_append_right _ hc
  | badRange => exact legible_of_quoted_eq_nil rfl
  | overspecified => exact legible_of_quoted_eq_nil rfl
  | malformedLine => cases hfault
  | incompleteCoverage => cases hfault
  | overlap => cases hfault
  | duplicateName => cases hfault

theorem Draft.legible_of_addTokens {path : String} {d : Draft} {ts : List Token} {r : Rejection}
    (h : d.addTokens path ts = .error r) (hts : ∀ t ∈ ts, Text.Unbroken t.text) :
    r.fault.Legible := by
  obtain ⟨taken, t, rest, d', rfl, -, ht, -⟩ := exists_refused_of_addTokens h
  obtain ⟨hfault, hquotes⟩ := fault_of_addToken ht
  exact Fault.legible_of_quotes hfault hquotes (hts t (by simp))

theorem Definition.legible_of_draft {path : String} {d : Definition} {r : Rejection}
    (h : d.draft path = .error r) (hd : ∀ t ∈ d.operands, Text.Unbroken t.text) :
    r.fault.Legible := by
  unfold draft at h
  split at h
  · cases h
    exact Fault.legible_of_quoted_eq_nil rfl
  next t ts hoperands =>
    rw [hoperands] at hd
    exact Draft.legible_of_addTokens h hd

namespace Table

variable {t t' : Table} {path text : String} {number : Nat} {r : Rejection}

def Legible (t : Table) : Prop := ∀ s ∈ t.names, Text.Unbroken s

theorem legible_empty : empty.Legible := by simp [Legible, names, empty]

theorem Legible.fault_of_define {d : Draft} {fault : Fault} (ht : t.Legible)
    (h : t.define d = .error fault) : fault.Legible := by
  rcases define_eq_error h with rfl | ⟨-, hoverlap⟩ | rfl
  · exact Fault.legible_of_quoted_eq_nil rfl
  · obtain ⟨u, hu, rfl⟩ := checkOverlap_eq_error hoverlap
    rw [Fault.Legible, Fault.quoted, List.forall_mem_singleton]
    exact ht u.name (List.mem_map_of_mem hu)
  · exact Fault.legible_of_quoted_eq_nil rfl

theorem Legible.readLine (ht : t.Legible) (h : t.readLine path number text = .ok t') :
    t'.Legible := by
  cases hline : Definition.ofLine? number text with
  | none =>
    rw [readLine_of_blank hline] at h
    cases h
    exact ht
  | some d =>
    rw [readLine_eq_take hline] at h
    obtain ⟨f, hrec⟩ := records_of_take h
    rw [Legible, names, hrec, List.map_append, List.forall_mem_append]
    refine ⟨ht, ?_⟩
    rw [List.map_singleton, List.forall_mem_singleton]
    exact Definition.unbroken_name hline

theorem Legible.rejection_of_readLine (ht : t.Legible)
    (h : t.readLine path number text = .error r) : r.Legible path := by
  obtain ⟨u, -, hspan⟩ := pointsInto_of_readLine h
  cases hline : Definition.ofLine? number text with
  | none =>
    rw [readLine_of_blank hline] at h
    cases h
  | some d =>
    rw [readLine_eq_take hline] at h
    have hname : Text.Unbroken r.instruction := by
      rw [instruction_of_take h]
      exact Definition.unbroken_name hline
    refine ⟨hname, ?_, u.span path, hspan, rfl⟩
    cases Except.bind_eq_error_iff.1 h with
    | inl hdraft => exact Definition.legible_of_draft hdraft (Definition.unbroken_operands hline)
    | inr henter =>
      obtain ⟨draft, -, henter⟩ := henter
      unfold enter at henter
      split at henter
      · cases henter
      next fault hfault =>
        cases henter
        exact ht.fault_of_define hfault

end Table

namespace Listing

/-- From a legible table on, a run makes legible rejections only. -/
theorem readFrom_legible {path : String} {t : Table} {rs : List Rejection} (ht : t.Legible)
    (hrs : ∀ r ∈ rs, r.Legible path) (mode : ErrorMode) (number : Nat)
    (lines : List (List UInt8)) :
    match readFrom mode path number t (rs.map Rejection.diagnostic) lines with
    | .error f => f.Legible path
    | .ok (_, ds) =>
      ∃ rs : List Rejection, (∀ r ∈ rs, r.Legible path) ∧ ds = rs.map Rejection.diagnostic := by
  induction lines generalizing number t rs with
  | nil => exact ⟨rs, hrs, rfl⟩
  | cons line lines ih =>
    rw [readFrom]
    cases Text.ofBytes? line with
    | none => exact .input (by decide +kernel)
    | some text =>
      dsimp only
      cases hline : t.readLine path number text with
      | ok t' => exact ih (ht.readLine hline) hrs (number + 1)
      | error r =>
        have hr := ht.rejection_of_readLine hline
        cases mode with
        | failFast => exact .rejected hr
        | collectAll =>
          have hall : ∀ s ∈ rs ++ [r], s.Legible path := by
            rw [List.forall_mem_append, List.forall_mem_singleton]
            exact ⟨hrs, hr⟩
          have hfindings : rs.map Rejection.diagnostic ++ [r.diagnostic] =
              (rs ++ [r]).map Rejection.diagnostic := by
            rw [List.map_append, List.map_singleton]
          dsimp only
          rw [hfindings]
          exact ih ht hall (number + 1)

theorem legible_of_read {mode : ErrorMode} {path : String} {bytes : List UInt8} {f : Failure}
    (h : read mode path bytes = .error f) : f.Legible path := by
  have hnone : ∀ r ∈ ([] : List Rejection), r.Legible path := by simp
  have hrun := readFrom_legible Table.legible_empty hnone mode 1 (Text.lines bytes)
  rw [List.map_nil] at hrun
  unfold read at h
  split at h
  next hfrom =>
    cases h
    rwa [hfrom] at hrun
  · cases h
  next t ds hne hfrom =>
    cases h
    rw [hfrom] at hrun
    obtain ⟨rs, hrs, rfl⟩ := hrun
    refine .findings ?_ hrs
    rintro rfl
    exact hne rfl

end Listing

end OpcodeTable
