import OpcodeTable.Instruction

namespace OpcodeTable

structure Table where
  records : List Record := []
  names_nodup : (records.map fun r => r.name).Nodup := by simp

namespace Table

def empty : Table := {}

def names (t : Table) : List String := t.records.map fun r => r.name

def contains (t : Table) (name : String) : Bool := t.records.any fun r => r.name == name

theorem contains_iff {t : Table} {name : String} : t.contains name = true ↔ name ∈ t.names := by
  simp [contains, names]

def get? (t : Table) (name : String) : Option Record := t.records.find? fun r => r.name == name

def spanOf? (t : Table) (name : String) : Option Span := (t.get? name).bind fun r => r.span

def size (t : Table) : Nat := t.records.length

def insert (t : Table) (r : Record) : Except Fault Table :=
  if h : t.contains r.name = true then .error .duplicateName
  else
    .ok
      { records := t.records ++ [r]
        names_nodup := by
          have hmem : r.name ∉ t.records.map fun r => r.name := fun hm => h (contains_iff.2 hm)
          rw [List.map_append, List.nodup_append]
          refine ⟨t.names_nodup, by simp, ?_⟩
          intro a ha b hb hab
          rw [List.map_singleton, List.mem_singleton] at hb
          exact hmem (hb ▸ hab ▸ ha) }

theorem records_insert {t t' : Table} {r : Record} (h : t.insert r = .ok t') :
    t'.records = t.records ++ [r] := by
  unfold insert at h
  split at h
  · simp at h
  · obtain rfl := Except.ok.inj h
    rfl

/-- The instructions that must decode uniquely. -/
def real (t : Table) : List Record := t.records.filter fun r => !r.isPseudo

def pseudo (t : Table) : List Record := t.records.filter fun r => r.isPseudo

def fieldsUsed (t : Table) : List Field :=
  Field.all.filter fun f => t.records.any fun r => r.uses f

end Table

end OpcodeTable
