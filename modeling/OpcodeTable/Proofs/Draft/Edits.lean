import OpcodeTable.Draft
import OpcodeTable.Proofs.Word.Cover

/-!
What edits do to a draft. A sequence of edits goes through exactly when every value fits and no bit
is claimed twice, and the draft then holds the entries of the edits and nothing else.
-/

namespace OpcodeTable

theorem Except.map_eq_ok_iff {ε α β : Type} {f : α → β} {x : Except ε α} {b : β} :
    x.map f = .ok b ↔ ∃ a, x = .ok a ∧ f a = b := by
  cases x <;> simp [Except.map]

theorem Except.map_eq_error_iff {ε α β : Type} {f : α → β} {x : Except ε α} {e : ε} :
    x.map f = .error e ↔ x = .error e := by
  cases x <;> simp [Except.map]

theorem Except.mapError_eq_ok_iff {ε ε' α : Type} {f : ε → ε'} {x : Except ε α} {a : α} :
    x.mapError f = .ok a ↔ x = .ok a := by
  cases x with
  | error e => exact iff_of_false nofun nofun
  | ok b =>
    constructor
    all_goals
      rintro ⟨⟩
      rfl

theorem Except.mapError_eq_error_iff {ε ε' α : Type} {f : ε → ε'} {x : Except ε α} {e' : ε'} :
    x.mapError f = .error e' ↔ ∃ e, x = .error e ∧ f e = e' := by
  cases x with
  | error e =>
    constructor
    · intro h
      exact ⟨e, rfl, Except.error.inj h⟩
    · rintro ⟨_, ⟨⟩, rfl⟩
      rfl
  | ok b => exact iff_of_false nofun (fun ⟨_, h, _⟩ => nomatch h)

theorem Except.bind_eq_ok_iff {ε α β : Type} {f : α → Except ε β} {x : Except ε α} {b : β} :
    x >>= f = .ok b ↔ ∃ a, x = .ok a ∧ f a = .ok b := by
  cases x <;> simp [bind, Except.bind]

theorem Except.bind_eq_error_iff {ε α β : Type} {f : α → Except ε β} {x : Except ε α} {e : ε} :
    x >>= f = .error e ↔ x = .error e ∨ ∃ a, x = .ok a ∧ f a = .error e := by
  cases x <;> simp [bind, Except.bind]

theorem Except.isOk_iff {ε α : Type} {x : Except ε α} : x.isOk = true ↔ ∃ a, x = .ok a := by
  cases x <;> simp [Except.isOk, Except.toBool]

inductive Except.Rel {ε ε' α α' : Type} (R : ε → ε' → Prop) (S : α → α' → Prop) :
    Except ε α → Except ε' α' → Prop
  | error {e : ε} {e' : ε'} : R e e' → Rel R S (.error e) (.error e')
  | ok {a : α} {a' : α'} : S a a' → Rel R S (.ok a) (.ok a')

namespace Except.Rel

variable {ε ε' α α' β β' : Type} {R : ε → ε' → Prop} {S : α → α' → Prop} {T : β → β' → Prop}

theorem error_or_ok {x : Except ε α} {y : Except ε' α'} (h : Except.Rel R S x y) :
    (∃ e e', x = .error e ∧ y = .error e' ∧ R e e') ∨
      ∃ a a', x = .ok a ∧ y = .ok a' ∧ S a a' := by
  cases h with
  | error h => exact .inl ⟨_, _, rfl, rfl, h⟩
  | ok h => exact .inr ⟨_, _, rfl, rfl, h⟩

theorem self (x : Except ε α) : Except.Rel Eq (fun a a' => a = a' ∧ x = .ok a) x x := by
  cases x with
  | error e => exact .error rfl
  | ok a => exact .ok ⟨rfl, rfl⟩

theorem bind {x : Except ε α} {y : Except ε' α'} {f : α → Except ε β} {g : α' → Except ε' β'}
    (h : Except.Rel R S x y) (hfg : ∀ a a', S a a' → Except.Rel R T (f a) (g a')) :
    Except.Rel R T (x >>= f) (y >>= g) := by
  cases h with
  | error h => exact .error h
  | ok h => exact hfg _ _ h

end Except.Rel

namespace Edit

def field? : Edit → Option Field
  | field f => some f
  | assign _ _ => none
  | literal _ _ => none
  | ignore _ => none

def literal? : Edit → Option Literal
  | field _ => none
  | assign f value => some ⟨f.range, BitVec.ofNat 32 value⟩
  | literal r value => some ⟨r, BitVec.ofNat 32 value⟩
  | ignore _ => none

def ignored? : Edit → Option BitRange
  | field _ => none
  | assign _ _ => none
  | literal _ _ => none
  | ignore r => some r

def Fits : Edit → Prop
  | field _ => True
  | assign f value => f.range.fits value = true
  | literal r value => r.fits value = true
  | ignore _ => True

end Edit

namespace Encoding

def join (e f : Encoding) : Encoding := ⟨e.value ||| f.value, e.mask ||| f.mask⟩

def ofLiterals (ls : List Literal) : Encoding where
  value := Word.union (ls.map fun l => l.range.place l.value.toNat)
  mask := BitRange.cover (ls.map Literal.range)

@[simp] theorem join_ofLiterals_nil (e : Encoding) : e.join (ofLiterals []) = e := by
  simp [join, ofLiterals, Word.union]

theorem ofLiterals_append (ls ms : List Literal) :
    ofLiterals (ls ++ ms) = (ofLiterals ls).join (ofLiterals ms) := by
  simp [join, ofLiterals, Word.union_append]

theorem join_assoc (e f g : Encoding) : (e.join f).join g = e.join (f.join g) := by
  simp [join, BitVec.or_assoc]

end Encoding

namespace Draft

/-- The draft with the entries of the edits, whether they may be made or not. -/
def extend (d : Draft) (es : List Edit) : Draft :=
  { d with
    coverage := ⟨d.coverage.bits ||| BitRange.cover (es.map Edit.range)⟩
    encoding := d.encoding.join (.ofLiterals (es.filterMap Edit.literal?))
    fields := d.fields ++ es.filterMap Edit.field?
    literals := d.literals ++ es.filterMap Edit.literal?
    ignored := d.ignored ++ es.filterMap Edit.ignored? }

@[simp] theorem extend_nil (d : Draft) : d.extend [] = d := by
  simp [extend]

theorem extend_append (d : Draft) (es fs : List Edit) :
    d.extend (es ++ fs) = (d.extend es).extend fs := by
  simp [extend, Encoding.ofLiterals_append, Encoding.join_assoc, BitVec.or_assoc]

end Draft

theorem BitRange.place_ofNat (r : BitRange) (v : Nat) :
    r.place (BitVec.ofNat 32 v).toNat = r.place v := by
  apply Word.ext_bits
  intro i
  simp only [getLsbD_place, BitVec.testBit_toNat, BitVec.getLsbD_ofNat]
  by_cases hi : i ∈ r
  · have hlt : i - r.low < 32 := by
      have := lt_of_mem hi
      omega
    simp [hi, hlt]
  · simp [hi]

theorem Coverage.map_claim_eq_ok_iff {c : Coverage} {r : BitRange} {f : Coverage → α} {a : α} :
    (c.claim r).map f = .ok a ↔ c.bits &&& r.mask = 0 ∧ a = f ⟨c.bits ||| r.mask⟩ := by
  unfold Coverage.claim
  split
  next hfree => simp [hfree, Except.map, eq_comm]
  next htaken => exact ⟨nofun, fun h => absurd h.1 htaken⟩

namespace Draft

theorem extend_field (d : Draft) (f : Field) :
    d.extend [.field f] =
      { d with
        coverage := ⟨d.coverage.bits ||| f.range.mask⟩
        fields := d.fields ++ [f] } := by
  simp [extend, List.filterMap_cons, Edit.field?, Edit.literal?, Edit.ignored?, Edit.range]

theorem extend_literal (d : Draft) (r : BitRange) (v : Nat) :
    d.extend [.literal r v] =
      { d with
        coverage := ⟨d.coverage.bits ||| r.mask⟩
        encoding := ⟨d.encoding.value ||| r.place v, d.encoding.mask ||| r.mask⟩
        literals := d.literals ++ [⟨r, BitVec.ofNat 32 v⟩] } := by
  simp [extend, Encoding.join, Encoding.ofLiterals, Word.union, Edit.field?, Edit.literal?,
    Edit.ignored?, Edit.range, -BitVec.toNat_ofNat, BitRange.place_ofNat]

theorem extend_ignore (d : Draft) (r : BitRange) :
    d.extend [.ignore r] =
      { d with
        coverage := ⟨d.coverage.bits ||| r.mask⟩
        ignored := d.ignored ++ [r] } := by
  simp [extend, List.filterMap_cons, Edit.field?, Edit.literal?, Edit.ignored?, Edit.range]

theorem literal_eq_ok_iff {d d' : Draft} {r : BitRange} {v : Nat} :
    d.literal r v = .ok d' ↔
      r.fits v = true ∧ d.coverage.bits &&& r.mask = 0 ∧ d' = d.extend [.literal r v] := by
  unfold Draft.literal
  split
  next hfits => simp only [Coverage.map_claim_eq_ok_iff, extend_literal, hfits, true_and]
  next hfits => simp [hfits]

theorem perform_eq_ok_iff {d d' : Draft} {e : Edit} :
    d.perform e = .ok d' ↔
      e.Fits ∧ d.coverage.bits &&& e.range.mask = 0 ∧ d' = d.extend [e] := by
  cases e with
  | field f =>
    simp only [perform, field, Coverage.map_claim_eq_ok_iff, extend_field, Edit.Fits, true_and,
      Edit.range]
  | assign f v => exact literal_eq_ok_iff
  | literal r v => exact literal_eq_ok_iff
  | ignore r =>
    simp only [perform, ignore, Coverage.map_claim_eq_ok_iff, extend_ignore, Edit.Fits, true_and,
      Edit.range]

theorem foldlM_perform_eq_ok_iff {d d' : Draft} {es : List Edit} :
    es.foldlM perform d = .ok d' ↔
      (∀ e ∈ es, e.Fits) ∧ (∀ e ∈ es, d.coverage.bits &&& e.range.mask = 0) ∧
        (es.map Edit.range).Pairwise BitRange.Disjoint ∧ d' = d.extend es := by
  induction es generalizing d with
  | nil => simp [pure, Except.pure, eq_comm]
  | cons e es ih =>
    have step : (e :: es).foldlM perform d = .ok d' ↔
        ∃ d₁, d.perform e = .ok d₁ ∧ es.foldlM perform d₁ = .ok d' := by
      rw [List.foldlM_cons, Except.bind_eq_ok_iff]
    -- What the first edit claims adds one range to what every later edit has to avoid.
    have taken (f : Edit) : (d.extend [e]).coverage.bits &&& f.range.mask = 0 ↔
        d.coverage.bits &&& f.range.mask = 0 ∧ e.range.Disjoint f.range := by
      rw [← BitRange.mask_and_mask_eq_zero_iff, ← Word.or_and_eq_zero_iff]
      simp [extend]
    rw [step, List.forall_mem_cons, List.forall_mem_cons, List.map_cons, List.pairwise_cons,
      List.forall_mem_map]
    constructor
    · rintro ⟨d₁, h₁, h₂⟩
      obtain ⟨hfits, hfree, rfl⟩ := perform_eq_ok_iff.1 h₁
      obtain ⟨hfits', hfree', hdisj, rfl⟩ := ih.1 h₂
      refine ⟨⟨hfits, hfits'⟩, ⟨hfree, fun f hf => ((taken f).1 (hfree' f hf)).1⟩,
        ⟨fun f hf => ((taken f).1 (hfree' f hf)).2, hdisj⟩, ?_⟩
      rw [← extend_append]
      rfl
    · rintro ⟨⟨hfits, hfits'⟩, ⟨hfree, hfree'⟩, ⟨hdisj, hdisj'⟩, rfl⟩
      refine ⟨d.extend [e], perform_eq_ok_iff.2 ⟨hfits, hfree, rfl⟩, ih.2 ⟨hfits', ?_, hdisj', ?_⟩⟩
      · exact fun f hf => (taken f).2 ⟨hfree' f hf, hdisj f hf⟩
      · rw [← extend_append]
        rfl

end Draft

end OpcodeTable
