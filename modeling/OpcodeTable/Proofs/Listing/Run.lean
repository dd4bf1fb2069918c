import OpcodeTable.Proofs.Table.Compatible
import OpcodeTable.Proofs.Text.Lines

namespace OpcodeTable

namespace Table

theorem readLine_of_blank {t : Table} {path text : String} {number : Nat}
    (h : Definition.ofLine? number text = none) : t.readLine path number text = .ok t := by
  simp only [readLine, Draft.ofLine, Definition.ofLine?_eq_none_iff.1 h, Draft.ofTokens]

theorem define_extend_eq_ok_iff {t t' : Table} {path : String} {d : Definition} :
    t.define ((Draft.ofMnemonic path d.mnemonic).extend d.edits) = .ok t' ↔
      (BitRange.cover d.ranges = 0xFFFFFFFF ∨ BitRange.cover d.ranges = 0x0000FFFF) ∧
        (∀ r ∈ t.records, r.Compatible (d.record path)) ∧
          t'.records = t.records ++ [d.record path] := by
  simp only [define_eq_ok_iff, Draft.record, Draft.toInstruction_extend, Draft.coverage_extend,
    Definition.cover_eq_coverage_iff]
  constructor
  · intro h
    obtain ⟨f, ⟨hwhole, rfl⟩, h⟩ := h
    exact ⟨hwhole, h⟩
  · intro h
    exact ⟨d.format, ⟨h.1, rfl⟩, h.2⟩

theorem readLine_eq_ok_iff {t t' : Table} {path text : String} {number : Nat} {d : Definition}
    (h : Definition.ofLine? number text = some d) :
    t.readLine path number text = .ok t' ↔
      d.Tiles ∧ (∀ r ∈ t.records, r.Compatible (d.record path)) ∧
        t'.records = t.records ++ [d.record path] := by
  have hline (draft : Option Draft) : Draft.ofLine path number text = .ok draft ↔
      d.Readable ∧ draft = some ((Draft.ofMnemonic path d.mnemonic).extend d.edits) :=
    Draft.ofLine_eq_ok_iff h
  rw [Definition.tiles_iff, and_assoc, ← define_extend_eq_ok_iff]
  unfold readLine
  cases hd : Draft.ofLine path number text with
  | error r =>
    refine ⟨nofun, fun hr => ?_⟩
    rw [(hline _).2 ⟨hr.1, rfl⟩] at hd
    cases hd
  | ok draft =>
    obtain ⟨hreadable, rfl⟩ := (hline _).1 hd
    simp only [hreadable, true_and]
    split
    next t₁ ht => simp [ht]
    next fault ht => simp [ht]

end Table

namespace Listing

/-- The table after the lines, which are counted from `number`, and the rejections on the way. -/
def run (path : String) (number : Nat) (t : Table) : List String → Table × List Rejection
  | [] => (t, [])
  | line :: rest =>
    match t.readLine path number line with
    | .ok t' => run path (number + 1) t' rest
    | .error r =>
      let (t', rs) := run path (number + 1) t rest
      (t', r :: rs)

def reports : Except Failure Compilation → List Diagnostic
  | .ok _ => []
  | .error failure => failure.diagnostics

theorem ofBytes?_toBytes (text : String) :
    Text.ofBytes? (Text.toBytes text.toList) = some text :=
  Text.ofBytes?_eq_some_iff.2 rfl

def encode (lines : List String) : List (List UInt8) :=
  lines.map fun line => Text.toBytes line.toList

theorem readFrom_failFast_encode {path : String} {number : Nat} {t : Table}
    {findings : List Diagnostic} {lines : List String} :
    readFrom .failFast path number t findings (encode lines) =
      match (run path number t lines).2 with
      | [] => .ok ((run path number t lines).1, findings)
      | r :: _ => .error (.rejected r) := by
  induction lines generalizing number t with
  | nil => rfl
  | cons line lines ih =>
    simp only [encode, List.map_cons, readFrom, ofBytes?_toBytes, run]
    cases t.readLine path number line with
    | ok t' => exact ih
    | error r => rfl

theorem readFrom_collectAll_encode {path : String} {number : Nat} {t : Table}
    {findings : List Diagnostic} {lines : List String} :
    readFrom .collectAll path number t findings (encode lines) =
      .ok ((run path number t lines).1,
        findings ++ (run path number t lines).2.map Rejection.diagnostic) := by
  induction lines generalizing number t findings with
  | nil => simp [encode, readFrom, run]
  | cons line lines ih =>
    simp only [encode, List.map_cons, readFrom, ofBytes?_toBytes, run]
    cases t.readLine path number line with
    | ok t' => exact ih
    | error r =>
      refine ih.trans ?_
      simp

theorem isText_of_readFrom_eq_ok {mode : ErrorMode} {path : String} {number : Nat}
    {t : Table} {findings : List Diagnostic} {lines : List (List UInt8)}
    {out : Table × List Diagnostic} (h : readFrom mode path number t findings lines = .ok out) :
    ∀ line ∈ lines, Text.IsText line := by
  fun_induction readFrom mode path number t findings lines with
  | case1 => simp
  | case2 => cases h
  | case3 number t findings line rest text htext t' hline ih =>
    rw [List.forall_mem_cons]
    exact ⟨⟨text, htext⟩, ih h⟩
  | case4 => cases h
  | case5 number t findings line rest text htext r hline hmode ih =>
    subst hmode
    rw [List.forall_mem_cons]
    exact ⟨⟨text, htext⟩, ih h⟩

theorem read_of_lines {mode : ErrorMode} {path : String} {bytes : List UInt8}
    {lines : List String} (h : Text.lines bytes = encode lines) :
    read mode path bytes =
      match run path 1 .empty lines with
      | (t, []) => .ok ⟨t, t.warnings⟩
      | (_, r :: rs) =>
        match mode with
        | .failFast => .error (.rejected r)
        | .collectAll => .error (.findings (r.diagnostic :: rs.map Rejection.diagnostic)) := by
  unfold read
  rw [h]
  cases mode with
  | failFast =>
    rw [readFrom_failFast_encode]
    cases run path 1 .empty lines with
    | mk t rs => cases rs <;> rfl
  | collectAll =>
    rw [readFrom_collectAll_encode]
    cases run path 1 .empty lines with
    | mk t rs => cases rs <;> rfl

theorem lines_of_text {text : String} {bytes : List UInt8} (h : Text.ofBytes? bytes = some text) :
    Text.lines bytes = encode (Text.linesOf text) := by
  rw [Text.ofBytes?_eq_some_iff.1 h, Text.lines_toBytes]
  rfl

theorem read_of_text {mode : ErrorMode} {path text : String} {bytes : List UInt8}
    (h : Text.ofBytes? bytes = some text) :
    read mode path bytes =
      match run path 1 .empty (Text.linesOf text) with
      | (t, []) => .ok ⟨t, t.warnings⟩
      | (_, r :: rs) =>
        match mode with
        | .failFast => .error (.rejected r)
        | .collectAll => .error (.findings (r.diagnostic :: rs.map Rejection.diagnostic)) :=
  read_of_lines (lines_of_text h)

theorem read_eq_ok_iff_run {mode : ErrorMode} {path text : String} {bytes : List UInt8}
    {c : Compilation} (h : Text.ofBytes? bytes = some text) :
    read mode path bytes = .ok c ↔
      run path 1 .empty (Text.linesOf text) = (c.table, []) ∧ c.warnings = c.table.warnings := by
  rw [read_of_text h]
  cases run path 1 .empty (Text.linesOf text) with
  | mk t rs =>
    cases rs with
    | nil =>
      cases c
      simp only [Except.ok.injEq, Compilation.mk.injEq, Prod.mk.injEq, and_true]
      constructor
      · intro h
        obtain ⟨rfl, rfl⟩ := h
        exact ⟨rfl, rfl⟩
      · intro h
        obtain ⟨rfl, rfl⟩ := h
        exact ⟨rfl, rfl⟩
    | cons r rs => cases mode <;> simp

theorem isText_of_read_eq_ok {mode : ErrorMode} {path : String} {bytes : List UInt8}
    {c : Compilation} (h : read mode path bytes = .ok c) : Text.IsText bytes := by
  unfold read at h
  split at h
  · cases h
  all_goals
    next hfrom => exact Text.isText_iff_forall_lines.2 (isText_of_readFrom_eq_ok hfrom)

end Listing

end OpcodeTable
