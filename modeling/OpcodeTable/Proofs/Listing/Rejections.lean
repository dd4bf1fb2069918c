import OpcodeTable.Proofs.Listing.Run
import OpcodeTable.Proofs.Token.Words

namespace OpcodeTable

def Diagnostic.line? (d : Diagnostic) : Option Nat := d.span.map fun s => s.start.line

def Rejection.PointsInto (r : Rejection) (path : String) (ts : List Token) : Prop :=
  ∃ t ∈ ts, r.span = some (t.span path)

namespace Draft

variable {path : String} {ts : List Token}

theorem exists_refused_of_addTokens {d : Draft} {r : Rejection}
    (h : d.addTokens path ts = .error r) :
    ∃ taken t rest d', ts = taken ++ t :: rest ∧ d.addTokens path taken = .ok d' ∧
      d'.addToken t = .error r.fault ∧ r.span = some (t.span path) := by
  induction ts generalizing d with
  | nil => cases h
  | cons t ts ih =>
    rw [addTokens] at h
    split at h
    next d₁ hd₁ =>
      obtain ⟨taken, u, rest, d', rfl, htaken, hu, hspan⟩ := ih h
      refine ⟨t :: taken, u, rest, d', rfl, ?_, hu, hspan⟩
      rw [addTokens, hd₁]
      exact htaken
    next fault hfault =>
      cases h
      exact ⟨[], t, ts, d, rfl, rfl, hfault, rfl⟩

theorem pointsInto_of_addTokens {d : Draft} {r : Rejection} (h : d.addTokens path ts = .error r) :
    r.PointsInto path ts := by
  obtain ⟨taken, t, rest, d', rfl, -, -, hspan⟩ := exists_refused_of_addTokens h
  exact ⟨t, by simp, hspan⟩

theorem pointsInto_of_ofTokens {r : Rejection} (h : ofTokens path ts = .error r) :
    r.PointsInto path ts := by
  unfold ofTokens at h
  split at h
  · cases h
  · cases h
    exact ⟨_, List.mem_cons_self, rfl⟩
  next t operands _ =>
    obtain ⟨u, hu, hspan⟩ := pointsInto_of_addTokens (Except.map_eq_error_iff.1 h)
    exact ⟨u, List.mem_cons_of_mem t hu, hspan⟩

theorem span_of_ofTokens {d : Draft} (h : ofTokens path ts = .ok (some d)) :
    ∃ t ∈ ts, d.span = some (t.span path) := by
  cases ts with
  | nil => cases h
  | cons t operands =>
    obtain ⟨-, hd⟩ := (ofTokens_cons_eq_ok_iff (d := ⟨t, operands⟩)).1 h
    refine ⟨t, List.mem_cons_self, ?_⟩
    rw [Option.some.inj hd, toInstruction_extend]
    rfl

end Draft

namespace Table

theorem pointsInto_of_readLine {t : Table} {path text : String} {number : Nat} {r : Rejection}
    (h : t.readLine path number text = .error r) : r.PointsInto path (Token.scan number text) := by
  unfold readLine at h
  split at h
  next hline =>
    cases h
    exact Draft.pointsInto_of_ofTokens hline
  · cases h
  next d hline =>
    split at h
    · cases h
    · cases h
      exact Draft.span_of_ofTokens hline

theorem line?_of_readLine {t : Table} {path text : String} {number : Nat} {r : Rejection}
    (h : t.readLine path number text = .error r) : r.diagnostic.line? = some number := by
  obtain ⟨u, hu, hspan⟩ := pointsInto_of_readLine h
  rw [Diagnostic.line?, Rejection.diagnostic, hspan, ← Token.line_of_mem_scan hu]
  rfl

end Table

namespace Listing

variable {path : String} {number : Nat} {t : Table}

theorem run_append (xs ys : List String) :
    run path number t (xs ++ ys) =
      ((run path (number + xs.length) (run path number t xs).1 ys).1,
        (run path number t xs).2 ++ (run path (number + xs.length) (run path number t xs).1 ys).2) := by
  induction xs generalizing number t with
  | nil => rfl
  | cons x xs ih =>
    have hnumber : number + (x :: xs).length = number + 1 + xs.length := by
      rw [List.length_cons]
      omega
    rw [hnumber]
    cases h : t.readLine path number x with
    | ok t' => simp only [List.cons_append, run, h, ih]
    | error r => simp only [List.cons_append, run, h, ih]

def rejectedLines (path : String) (number : Nat) (t : Table) (lines : List String) : List Nat :=
  (run path number t lines).2.filterMap fun r => r.diagnostic.line?

theorem rejectedLines_cons_of_ok {t' : Table} {line : String} {rest : List String}
    (h : t.readLine path number line = .ok t') :
    rejectedLines path number t (line :: rest) = rejectedLines path (number + 1) t' rest := by
  rw [rejectedLines, run, h]
  rfl

theorem rejectedLines_cons_of_error {r : Rejection} {line : String} {rest : List String}
    (h : t.readLine path number line = .error r) :
    rejectedLines path number t (line :: rest) =
      number :: rejectedLines path (number + 1) t rest := by
  rw [rejectedLines, run, h]
  exact List.filterMap_cons_some (Table.line?_of_readLine h)

theorem rejectedLines_append (path : String) (number : Nat) (t : Table) (xs ys : List String) :
    rejectedLines path number t (xs ++ ys) =
      rejectedLines path number t xs ++
        rejectedLines path (number + xs.length) (run path number t xs).1 ys := by
  rw [rejectedLines, run_append, List.filterMap_append]
  rfl

theorem mem_rejectedLines_bounds {lines : List String} {k : Nat}
    (h : k ∈ rejectedLines path number t lines) : number ≤ k ∧ k < number + lines.length := by
  induction lines generalizing number t with
  | nil => cases h
  | cons line rest ih =>
    rw [List.length_cons]
    cases hline : t.readLine path number line with
    | ok t' =>
      rw [rejectedLines_cons_of_ok hline] at h
      have := ih h
      omega
    | error r =>
      rw [rejectedLines_cons_of_error hline] at h
      cases List.mem_cons.1 h with
      | inl h => omega
      | inr h =>
        have := ih h
        omega

theorem pairwise_rejectedLines (path : String) (number : Nat) (t : Table) (lines : List String) :
    (rejectedLines path number t lines).Pairwise (· < ·) := by
  induction lines generalizing number t with
  | nil => exact List.Pairwise.nil
  | cons line rest ih =>
    cases hline : t.readLine path number line with
    | ok t' =>
      rw [rejectedLines_cons_of_ok hline]
      exact ih (number + 1) t'
    | error r =>
      rw [rejectedLines_cons_of_error hline]
      refine (ih (number + 1) t).cons ?_
      intro k hk
      have := mem_rejectedLines_bounds hk
      omega

theorem map_line?_run (path : String) (number : Nat) (t : Table) (lines : List String) :
    ((run path number t lines).2.map Rejection.diagnostic).map Diagnostic.line? =
      (rejectedLines path number t lines).map some := by
  induction lines generalizing number t with
  | nil => rfl
  | cons line rest ih =>
    cases hline : t.readLine path number line with
    | ok t' =>
      rw [rejectedLines_cons_of_ok hline, run, hline]
      exact ih (number + 1) t'
    | error r =>
      rw [rejectedLines_cons_of_error hline, run, hline]
      simp only [List.map_cons, Table.line?_of_readLine hline, ih]

theorem exists_readLine_of_mem_run {lines : List String} {r : Rejection}
    (h : r ∈ (run path number t lines).2) :
    ∃ before line after, lines = before ++ line :: after ∧
      (run path number t before).1.readLine path (number + before.length) line = .error r := by
  induction lines generalizing number t with
  | nil => cases h
  | cons line rest ih =>
    have further {t' : Table} (h : r ∈ (run path (number + 1) t' rest).2)
        (hrun : ∀ before, (run path number t (line :: before)).1 =
          (run path (number + 1) t' before).1) :
        ∃ before line' after, line :: rest = before ++ line' :: after ∧
          (run path number t before).1.readLine path (number + before.length) line' =
            .error r := by
      obtain ⟨before, line', after, rfl, hread⟩ := ih h
      refine ⟨line :: before, line', after, rfl, ?_⟩
      rw [hrun, List.length_cons, Nat.add_comm before.length 1, ← Nat.add_assoc]
      exact hread
    cases hline : t.readLine path number line with
    | ok t' =>
      rw [run, hline] at h
      exact further h fun before => by rw [run, hline]
    | error s =>
      rw [run, hline] at h
      cases List.mem_cons.1 h with
      | inl h =>
        subst h
        exact ⟨[], line, rest, rfl, hline⟩
      | inr h => exact further h fun before => by rw [run, hline]

end Listing

end OpcodeTable
