import OpcodeTable.Command.Run
import OpcodeTable.Proofs.Artifact.Codes
import OpcodeTable.Proofs.Listing.Decoding

namespace OpcodeTable

theorem Mode.exists_render {m : Mode} (hm : m ≠ .header) {t : Table} (h : t.recheck = .ok ()) :
    ∃ text, m.artifact.render t = .ok text := by
  cases m with
  | header => exact absurd rfl hm
  | bitPatterns => exact ⟨_, rfl⟩
  | selectorSwitch => exact ⟨_, rfl⟩
  | summary =>
    have hlines : Artifact.summary.lines t = .ok _ := Except.map_eq_ok_iff.2 ⟨(), h, rfl⟩
    exact ⟨_, Except.map_eq_ok_iff.2 ⟨_, hlines, rfl⟩⟩

namespace Options

def load (o : Options) (contents : Except String (List UInt8)) : Except Failure Compilation :=
  match contents with
  | .error reason => .error (.input reason)
  | .ok bytes => Listing.read o.errorMode o.sourceName bytes

def withMode (o : Options) (m : Mode) : Options := { o with mode := m }

@[simp] theorem errorMode_withMode (o : Options) (m : Mode) :
    (o.withMode m).errorMode = o.errorMode := rfl

@[simp] theorem sourceName_withMode (o : Options) (m : Mode) :
    (o.withMode m).sourceName = o.sourceName := rfl

theorem run_withMode (o : Options) (m : Mode) (contents : Except String (List UInt8)) :
    (o.withMode m).run contents =
      (o.load contents).bind fun c => m.artifact.render c.table := by
  cases contents with
  | error reason => rfl
  | ok bytes =>
    simp only [run, load, errorMode_withMode, sourceName_withMode]
    cases Listing.read o.errorMode o.sourceName bytes <;> rfl

theorem recheck_of_load {o : Options} {contents : Except String (List UInt8)} {c : Compilation}
    (h : o.load contents = .ok c) : c.table.recheck = .ok () := by
  cases contents with
  | error reason => cases h
  | ok bytes => exact Listing.recheck_of_read h

/-- A source fails in every mode, and then for the same reason, or in none, the header apart. The
table of a source that can be read passes its check, and has a header exactly when every field in it
has an operand code; otherwise the failure names a field that has none. -/
theorem modes_agree_on_validity (o : Options) (contents : Except String (List UInt8)) :
    (∃ f, o.load contents = .error f ∧ ∀ m, (o.withMode m).run contents = .error f) ∨
      ∃ c, o.load contents = .ok c ∧ c.table.recheck = .ok () ∧
        (∀ m ≠ .header, ∃ text, (o.withMode m).run contents = .ok text) ∧
        ((∃ text, (o.withMode .header).run contents = .ok text) ↔ c.table.Coded) ∧
        ∀ e, (o.withMode .header).run contents = .error e →
          ∃ r ∈ c.table.records, ∃ f ∈ r.fields, f.operandCode = none ∧ e = r.missingCode f := by
  cases hload : o.load contents with
  | error f =>
    left
    refine ⟨f, rfl, fun m => ?_⟩
    rw [run_withMode, hload]
    rfl
  | ok c =>
    right
    have hcheck := recheck_of_load hload
    have hrun (m : Mode) : (o.withMode m).run contents = m.artifact.render c.table := by
      rw [run_withMode, hload]
      rfl
    simp only [hrun]
    exact ⟨c, rfl, hcheck, fun m hm => Mode.exists_render hm hcheck,
      Artifact.Header.exists_render_iff, fun e he => Artifact.Header.render_eq_error he⟩

end Options

end OpcodeTable
