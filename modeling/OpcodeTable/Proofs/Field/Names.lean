import OpcodeTable.Field
import OpcodeTable.Proofs.Text.Numbers

namespace OpcodeTable

namespace Field

theorem ofName?_name (f : Field) : ofName? f.name = some f := by
  cases f <;> rfl

theorem name_injective : Function.Injective name := by
  intro f g h
  rw [← Option.some_inj, ← ofName?_name f, h, ofName?_name]

theorem ofName?_eq_some_iff {name : String} {f : Field} :
    ofName? name = some f ↔ name = f.name := by
  refine ⟨fun h => (name_of_ofName? h).symm, ?_⟩
  rintro rfl
  exact ofName?_name f

theorem ofName?_eq_none_iff {name : String} :
    ofName? name = none ↔ ∀ f : Field, name ≠ f.name := by
  simp only [Option.eq_none_iff_forall_ne_some, ne_eq, ofName?_eq_some_iff]

theorem name_chars (f : Field) :
    (∀ c ∈ f.name.toList, c.isAlphanum = true) ∧ ∃ c ∈ f.name.toList, c.isDigit = false := by
  have hchars : (f.name.toList.all Char.isAlphanum && f.name.toList.any fun c => !c.isDigit) := by
    cases f <;> decide
  simpa using hchars

theorem not_mem_name {c : Char} (hc : c.isAlphanum = false) (f : Field) : c ∉ f.name.toList := by
  intro hmem
  rw [f.name_chars.1 c hmem] at hc
  cases hc

theorem not_isNumeral_name (f : Field) : ¬ Text.IsNumeral f.name := by
  obtain ⟨c, hmem, hc⟩ := f.name_chars.2
  intro h
  rw [h.2 c hmem] at hc
  cases hc

end Field

end OpcodeTable
