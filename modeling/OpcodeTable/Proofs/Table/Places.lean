import OpcodeTable.Proofs.Artifact.Reorder
import OpcodeTable.Proofs.Table.Compatible

namespace OpcodeTable

namespace Draft

def place (s : Option Span) (d : Draft) : Draft := { d with span := s }

variable {d : Draft} {s : Option Span}

theorem literal_place (r : BitRange) (value : Nat) :
    (d.place s).literal r value = (d.literal r value).map (place s) := by
  simp only [literal, place]
  split
  · cases d.coverage.claim r <;> rfl
  · rfl

theorem perform_place (e : Edit) : (d.place s).perform e = (d.perform e).map (place s) := by
  cases e with
  | field f =>
    simp only [perform, field, place]
    cases d.coverage.claim f.range <;> rfl
  | assign f value => exact literal_place f.range value
  | literal r value => exact literal_place r value
  | ignore r =>
    simp only [perform, ignore, place]
    cases d.coverage.claim r <;> rfl

theorem addToken_place (t : Token) : (d.place s).addToken t = (d.addToken t).map (place s) := by
  simp only [addToken]
  cases Operand.ofText t.text with
  | error fault => rfl
  | ok o => exact perform_place o.edit

theorem addToken_congr (d : Draft) {t u : Token} (h : t.text = u.text) :
    d.addToken t = d.addToken u := by
  rw [addToken, addToken, h]

end Draft

structure Rejection.SameCause (r s : Rejection) : Prop where
  instruction_eq : r.instruction = s.instruction
  fault_eq : r.fault = s.fault

def Diagnostic.unplaced (d : Diagnostic) : Diagnostic := { d with span := none }

theorem Rejection.SameCause.unplaced_eq {r s : Rejection} (h : r.SameCause s) :
    r.diagnostic.unplaced = s.diagnostic.unplaced := by
  simp only [diagnostic, Diagnostic.unplaced, h.instruction_eq, h.fault_eq]

theorem Record.reordered_of_unplaced {r s : Record} (h : r.unplaced = s.unplaced) :
    r.Reordered s where
  name_eq := (congrArg (fun r : Record => r.name) h :)
  isPseudo_eq := (congrArg (fun r : Record => r.isPseudo) h :)
  encoding_eq := (congrArg (fun r : Record => r.encoding) h :)
  format_eq := (congrArg Record.format h :)
  fields_perm := .of_eq (congrArg (fun r : Record => r.fields) h :)
  literals_perm := .of_eq (congrArg (fun r : Record => r.literals) h :)
  ignored_perm := .of_eq (congrArg (fun r : Record => r.ignored) h :)

namespace Table

def SameRecords (t u : Table) : Prop :=
  t.records.map Record.unplaced = u.records.map Record.unplaced

namespace SameRecords

variable {t u : Table}

theorem map_eq {α : Type} (h : SameRecords t u) (f : Record → α) (hf : ∀ r, f r.unplaced = f r) :
    t.records.map f = u.records.map f := by
  have hmap (rs : List Record) : rs.map f = (rs.map Record.unplaced).map f := by
    rw [List.map_map]
    exact List.map_congr_left fun r _ => (hf r).symm
  rw [hmap t.records, hmap u.records, h]

theorem filter {p : Record → Bool} (h : SameRecords t u) (hp : ∀ r, p r.unplaced = p r) :
    (t.records.filter p).map Record.unplaced = (u.records.filter p).map Record.unplaced := by
  have hfilter (rs : List Record) :
      (rs.filter p).map Record.unplaced = (rs.map Record.unplaced).filter p :=
    (filter_map_eq fun r _ => hp r).symm
  rw [hfilter, hfilter, h]

theorem real_eq (h : SameRecords t u) :
    t.real.map Record.unplaced = u.real.map Record.unplaced := h.filter fun _ => rfl

theorem pseudo_eq (h : SameRecords t u) :
    t.pseudo.map Record.unplaced = u.pseudo.map Record.unplaced := h.filter fun _ => rfl

theorem names_eq (h : SameRecords t u) : t.names = u.names := h.map_eq _ fun _ => rfl

theorem contains_eq (h : SameRecords t u) (name : String) : t.contains name = u.contains name := by
  rw [Bool.eq_iff_iff, contains_iff, contains_iff, h.names_eq]

theorem checkOverlap_eq (h : SameRecords t u) (e : Encoding) :
    t.checkOverlap e = u.checkOverlap e := by
  have hfind (rs : List Record) : (rs.map Record.unplaced).find? (fun r => e.overlaps r.encoding) =
      (rs.find? fun r => e.overlaps r.encoding).map Record.unplaced := List.find?_map
  have hsame : (t.real.find? fun r => e.overlaps r.encoding).map Record.unplaced =
      (u.real.find? fun r => e.overlaps r.encoding).map Record.unplaced := by
    rw [← hfind, ← hfind, h.real_eq]
  unfold checkOverlap
  generalize t.real.find? _ = x, u.real.find? _ = y at hsame ⊢
  cases x with
  | none =>
    obtain rfl : y = none := Option.map_eq_none_iff.1 hsame.symm
    rfl
  | some r =>
    obtain ⟨s, rfl, hrs⟩ := Option.map_eq_some_iff.1 hsame.symm
    have hname : r.name = s.name := (Record.reordered_of_unplaced hrs.symm).name_eq
    simp only [hname]

theorem insert (h : SameRecords t u) {r s : Record} (hrs : r.unplaced = s.unplaced) :
    Except.Rel Eq SameRecords (t.insert r) (u.insert s) := by
  have hname : r.name = s.name := (Record.reordered_of_unplaced hrs).name_eq
  have hcontains : t.contains r.name = u.contains s.name := hname ▸ h.contains_eq r.name
  cases hc : t.contains r.name with
  | true =>
    rw [Table.insert, Table.insert, dif_pos hc, dif_pos (hcontains.symm.trans hc)]
    exact .error rfl
  | false =>
    rw [Table.insert, Table.insert, dif_neg (by simp [hc]), dif_neg (by simp [← hcontains, hc])]
    refine .ok ?_
    simp only [SameRecords, List.map_append, List.map_singleton, hrs]
    exact congrArg (· ++ _) h

theorem define (h : SameRecords t u) (d : Draft) (s : Option Span) :
    Except.Rel Eq SameRecords (t.define d) (u.define (d.place s)) :=
  define_rel rfl rfl (h.checkOverlap_eq d.encoding) fun _ => h.insert rfl

theorem bytes_eq (h : SameRecords t u) : t.bytes = u.bytes := by
  rw [bytes, bytes, ← Record.flatMap_bytes_unplaced, h, Record.flatMap_bytes_unplaced]

theorem fingerprint_eq (h : SameRecords t u) : t.fingerprint = u.fingerprint := by
  rw [fingerprint, fingerprint, h.bytes_eq]

theorem fieldsUsed_eq (h : SameRecords t u) : t.fieldsUsed = u.fieldsUsed := by
  have huses (f : Field) : (t.records.any fun r => r.uses f) = u.records.any fun r => r.uses f := by
    have hany (rs : List Record) :
        (rs.any fun r => r.uses f) = (rs.map fun r => r.uses f).any id := by simp
    rw [hany, hany, h.map_eq (fun r => r.uses f) fun _ => rfl]
  simp only [fieldsUsed, huses]

theorem reordered (h : SameRecords t u) :
    List.Forall₂ Record.Reordered t.records u.records :=
  (map_eq_map_iff_forall₂.1 h).imp fun _ _ => Record.reordered_of_unplaced

theorem summary_eq (h : SameRecords t u) (ht : t.recheck = .ok ()) (hu : u.recheck = .ok ()) :
    Artifact.Summary.lines t = Artifact.Summary.lines u := by
  have hreal := congrArg List.length h.real_eq
  have hpseudo := congrArg List.length h.pseudo_eq
  rw [List.length_map, List.length_map] at hreal hpseudo
  rw [Artifact.Summary.lines, Artifact.Summary.lines, ht, hu, hreal, hpseudo, h.fieldsUsed_eq,
    h.fingerprint_eq]

theorem render_eq (h : SameRecords t u) (ht : t.recheck = .ok ()) (hu : u.recheck = .ok ())
    (a : Artifact) : a.render t = a.render u := by
  by_cases ha : a = .summary
  · rw [ha, Artifact.render, Artifact.render]
    exact congrArg _ (h.summary_eq ht hu)
  · exact Artifact.render_eq_of_reordered ha h.reordered

end SameRecords

end Table

end OpcodeTable
