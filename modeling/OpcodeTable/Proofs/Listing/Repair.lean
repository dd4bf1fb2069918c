import OpcodeTable.Proofs.Listing.Acceptance
import OpcodeTable.Proofs.Listing.Modes
import OpcodeTable.Proofs.Listing.Rejections
import OpcodeTable.Proofs.Text.Edits

/-!
Repairing a listing. A rejected line leaves no trace in the table, so a run comes to the same table
when the rejected lines are emptied beforehand, and every rejection is found again after the lines
that were accepted before it.
-/

namespace OpcodeTable.Listing

variable {path : String} {number : Nat} {t : Table}

theorem readLine_empty : t.readLine path number "" = .ok t :=
  Table.readLine_of_blank (Definition.ofLine?_eq_none_iff.2 (Token.scan_empty number))

theorem run_replaceLines {lines : List String} {ks : List Nat}
    (hks : ∀ k, number ≤ k → k < number + lines.length →
      (k ∈ ks ↔ k ∈ rejectedLines path number t lines)) :
    run path number t (replaceLines "" ks number lines) = ((run path number t lines).1, []) := by
  induction lines generalizing number t with
  | nil => rfl
  | cons line rest ih =>
    rw [List.length_cons] at hks
    cases hline : t.readLine path number line with
    | ok t' =>
      rw [rejectedLines_cons_of_ok hline] at hks
      have hkeep : number ∉ ks := by
        intro hmem
        have := mem_rejectedLines_bounds ((hks number (Nat.le_refl number) (by omega)).1 hmem)
        omega
      rw [replaceLines, if_neg hkeep, run, run, hline]
      exact ih fun k hle hlt => hks k (by omega) (by omega)
    | error r =>
      rw [rejectedLines_cons_of_error hline] at hks
      have hdrop : number ∈ ks :=
        (hks number (Nat.le_refl number) (by omega)).2 List.mem_cons_self
      rw [replaceLines, if_pos hdrop, run, run, hline, readLine_empty]
      refine ih fun k hle hlt => ?_
      rw [hks k (by omega) (by omega), List.mem_cons, or_iff_right]
      omega

theorem definitionsFrom_replaceLines (ks : List Nat) (number : Nat) (lines : List String) :
    definitionsFrom number (replaceLines "" ks number lines) =
      (definitionsFrom number lines).filter fun d => d.mnemonic.line ∉ ks := by
  induction lines generalizing number with
  | nil => rfl
  | cons line rest ih =>
    have hempty : Definition.ofLine? number "" = none :=
      Definition.ofLine?_eq_none_iff.2 (Token.scan_empty number)
    cases hline : Definition.ofLine? number line with
    | none =>
      by_cases hk : number ∈ ks
      · simp [replaceLines, definitionsFrom, hk, hempty, hline, ih]
      · simp [replaceLines, definitionsFrom, hk, hline, ih]
    | some d =>
      have hnumber := Token.line_of_mem_scan (Definition.mnemonic_mem_scan hline)
      by_cases hk : number ∈ ks
      · simp [replaceLines, definitionsFrom, hk, hempty, hline, hnumber, ih]
      · simp [replaceLines, definitionsFrom, hk, hline, hnumber, ih]

theorem encode_replaceLines (ks : List Nat) (number : Nat) (lines : List String) :
    encode (replaceLines "" ks number lines) = replaceLines [] ks number (encode lines) :=
  map_replaceLines _ "" ks number lines

theorem read_of_run_eq_nil {bytes : List UInt8} {lines : List String}
    (hlines : Text.lines bytes = encode lines) (hrun : run path 1 .empty lines = (t, []))
    (mode : ErrorMode) : read mode path bytes = .ok ⟨t, t.warnings⟩ := by
  rw [read_of_lines hlines, hrun]

theorem run_replaceLines_rejectedLines (path : String) (number : Nat) (t : Table)
    (lines : List String) :
    run path number t (replaceLines "" (rejectedLines path number t lines) number lines) =
      ((run path number t lines).1, []) :=
  run_replaceLines fun _ _ _ => Iff.rfl

/-- A rejection stays the same, and is the only one, when the rejected lines before it are emptied
and the file ends with its line. -/
theorem run_replaceLines_take {lines : List String} {r : Rejection}
    (h : r ∈ (run path number t lines).2) :
    ∃ k, r.diagnostic.line? = some (number + k) ∧
      (run path number t
        (replaceLines "" ((rejectedLines path number t lines).filter (· < number + k)) number
          (lines.take (k + 1)))).2 = [r] := by
  obtain ⟨before, line, after, rfl, hline⟩ := exists_readLine_of_mem_run h
  refine ⟨before.length, Table.line?_of_readLine hline, ?_⟩
  have htake : (before ++ line :: after).take (before.length + 1) = before ++ [line] := by
    rw [List.append_cons]
    exact List.take_left' (by simp)
  have hbefore : ∀ k, number ≤ k → k < number + before.length →
      (k ∈ (rejectedLines path number t (before ++ line :: after)).filter
          (· < number + before.length) ↔ k ∈ rejectedLines path number t before) := by
    intro k _ hlt
    have hafter : k ∉ rejectedLines path (number + before.length) (run path number t before).1
        (line :: after) := by
      intro hk
      have := mem_rejectedLines_bounds hk
      omega
    simp [rejectedLines_append, hafter, hlt]
  have hkeep : number + before.length ∉
      (rejectedLines path number t (before ++ line :: after)).filter
        (· < number + before.length) := by
    simp
  rw [htake, replaceLines_append, run_append, length_replaceLines, run_replaceLines hbefore,
    replaceLines, if_neg hkeep, replaceLines, run, hline]
  rfl

variable {bytes : List UInt8} {text : String}

theorem lines_emptyLines_of_text (htext : Text.ofBytes? bytes = some text) (ks : List Nat) :
    Text.lines (Text.emptyLines ks bytes) = encode (replaceLines "" ks 1 (Text.linesOf text)) := by
  rw [Text.lines_emptyLines, lines_of_text htext, encode_replaceLines]

theorem lines_takeLines_of_text (htext : Text.ofBytes? bytes = some text) (ks : List Nat)
    (k : Nat) :
    Text.lines (Text.emptyLines ks (Text.takeLines k bytes)) =
      encode (replaceLines "" ks 1 ((Text.linesOf text).take k)) := by
  rw [Text.lines_emptyLines, Text.lines_takeLines, lines_of_text htext, encode_replaceLines,
    encode, encode, List.map_take]

theorem exists_run_of_findings {ds : List Diagnostic}
    (h : read .collectAll path bytes = .error (.findings ds)) :
    ∃ text, Text.ofBytes? bytes = some text ∧
      (run path 1 .empty (Text.linesOf text)).2.map Rejection.diagnostic = ds := by
  have htext : Text.IsText bytes := by
    by_contra hno
    rw [read_collectAll_of_not_isText hno] at h
    cases h
  obtain ⟨text, htext⟩ := htext
  refine ⟨text, htext, ?_⟩
  rw [read_of_text htext] at h
  cases hrun : run path 1 .empty (Text.linesOf text) with
  | mk t rs =>
    rw [hrun] at h
    cases rs with
    | nil => cases h
    | cons r rs =>
      cases h
      rfl

theorem read_emptyLines (htext : Text.ofBytes? bytes = some text) :
    ∃ c, (∀ mode, read mode path
        (Text.emptyLines (rejectedLines path 1 .empty (Text.linesOf text)) bytes) = .ok c) ∧
      c.table.records =
        ((definitions text).filter fun d =>
          d.mnemonic.line ∉ rejectedLines path 1 .empty (Text.linesOf text)).map
            (Definition.record path) := by
  have hlines := lines_emptyLines_of_text htext (rejectedLines path 1 .empty (Text.linesOf text))
  have hrun := run_replaceLines_rejectedLines path 1 .empty (Text.linesOf text)
  have hempty : Table.empty.records.Pairwise Record.Compatible := List.Pairwise.nil
  obtain ⟨-, hrec, -⟩ := (run_eq_nil_iff hempty).1 hrun
  refine ⟨_, read_of_run_eq_nil hlines hrun, ?_⟩
  rw [hrec, definitionsFrom_replaceLines]
  rfl

theorem read_takeLines (htext : Text.ofBytes? bytes = some text) {r : Rejection}
    (hr : r ∈ (run path 1 .empty (Text.linesOf text)).2) :
    ∃ k, r.diagnostic.line? = some k ∧
      read .failFast path
        (Text.emptyLines ((rejectedLines path 1 .empty (Text.linesOf text)).filter (· < k))
          (Text.takeLines k bytes)) = .error (.rejected r) := by
  obtain ⟨k, hline, hrun⟩ := run_replaceLines_take hr
  rw [Nat.add_comm] at hline hrun
  refine ⟨k + 1, hline, ?_⟩
  rw [read_of_lines (lines_takeLines_of_text htext _ _)]
  generalize run path 1 .empty _ = out at hrun ⊢
  obtain ⟨t, rs⟩ := out
  subst hrun
  rfl

/-- The findings are the lines to repair: one for each, in the order of the lines. With these lines
emptied the file is accepted and its other definitions make up the table; and each finding is there
for its own line and the accepted lines before it. -/
theorem findings_repair {ds : List Diagnostic}
    (h : read .collectAll path bytes = .error (.findings ds)) :
    ∃ text ks, Text.ofBytes? bytes = some text ∧
      ds.map Diagnostic.line? = ks.map some ∧ ks.Pairwise (· < ·) ∧
      (∃ c, (∀ mode, read mode path (Text.emptyLines ks bytes) = .ok c) ∧
        c.table.records =
          ((definitions text).filter fun d => d.mnemonic.line ∉ ks).map (Definition.record path)) ∧
      ∀ d ∈ ds, ∃ k ∈ ks, d.line? = some k ∧
        ∃ r, r.diagnostic = d ∧
          read .failFast path (Text.emptyLines (ks.filter (· < k)) (Text.takeLines k bytes)) =
            .error (.rejected r) := by
  obtain ⟨text, htext, rfl⟩ := exists_run_of_findings h
  have hlines := map_line?_run path 1 .empty (Text.linesOf text)
  refine ⟨text, rejectedLines path 1 .empty (Text.linesOf text), htext, hlines,
    pairwise_rejectedLines _ _ _ _, read_emptyLines htext, ?_⟩
  intro d hd
  obtain ⟨r, hr, rfl⟩ := List.mem_map.1 hd
  obtain ⟨k, hk, hread⟩ := read_takeLines htext hr
  have hmem : some k ∈ (rejectedLines path 1 .empty (Text.linesOf text)).map some := by
    rw [← hlines, ← hk]
    exact List.mem_map_of_mem hd
  obtain ⟨k', hk', hsome⟩ := List.mem_map.1 hmem
  cases hsome
  exact ⟨k, hk', hk, r, rfl, hread⟩

def untidy : String :=
  "a 31..0=1\nb 31..0=1\n@a 31..0=2\nb 31..0=3\nc 31..0=4 0=1\n"

def untidyBytes : List UInt8 := Text.toBytes untidy.toList

def untidyRejections : List Rejection :=
  [⟨"b", .overlap "a", some ⟨"", ⟨2, 1⟩, ⟨2, 2⟩⟩⟩,
    ⟨"a", .duplicateName, some ⟨"", ⟨3, 1⟩, ⟨3, 3⟩⟩⟩,
    ⟨"c", .overspecified 1, some ⟨"", ⟨5, 11⟩, ⟨5, 14⟩⟩⟩]

theorem findings_repair_untidy :
    ∃ ds, read .collectAll "" untidyBytes = .error (.findings ds) ∧
      ds.map Diagnostic.line? = [some 2, some 3, some 5] ∧
      (∃ c, read .failFast "" (Text.emptyLines [2, 3, 5] untidyBytes) = .ok c ∧
        c.table.names = ["a", "b"]) ∧
      ∀ d ∈ ds, d.line? = some 5 → ∃ r, r.diagnostic = d ∧
        read .failFast "" (Text.emptyLines [2, 3] (Text.takeLines 5 untidyBytes)) =
          .error (.rejected r) := by
  have hfound : (read .collectAll "" untidyBytes).map (fun _ => ()) =
      .error (.findings (untidyRejections.map Rejection.diagnostic)) := by decide +kernel
  rw [Except.map_eq_error_iff] at hfound
  obtain ⟨text, ks, htext, hlines, -, ⟨c, hc, hrec⟩, hall⟩ := findings_repair hfound
  obtain rfl : untidy = text := Option.some.inj ((ofBytes?_toBytes untidy).symm.trans htext)
  obtain rfl : ks = [2, 3, 5] := by
    apply List.map_injective_iff.2 fun _ _ => Option.some.inj
    rw [← hlines]
    rfl
  refine ⟨_, hfound, rfl, ⟨c, hc .failFast, ?_⟩, ?_⟩
  · rw [Table.names, hrec]
    decide +kernel
  · intro d hd hline
    obtain ⟨k, -, hk, r, hr, hread⟩ := hall d hd
    obtain rfl : k = 5 := Option.some.inj (hk.symm.trans hline)
    exact ⟨r, hr, hread⟩

end OpcodeTable.Listing
