import OpcodeTable.Definition
import OpcodeTable.Proofs.Operand.Grammar

/-!
Definition lines, read at once. What a line defines is told from all of its operands together; the
draft that is built one operand after the other comes to the same.
-/

namespace OpcodeTable

def Edit.ofTokens (ts : List Token) : List Edit :=
  ts.filterMap fun t => (Operand.ofText t.text).toOption.map Operand.edit

theorem Edit.ofTokens_eq (ts : List Token) :
    ofTokens ts = (ts.map Token.text).filterMap Operand.edit? := by
  rw [List.filterMap_map]
  rfl

@[simp] theorem Edit.ofTokens_nil : Edit.ofTokens [] = [] := rfl

theorem Edit.ofTokens_cons {t : Token} {ts : List Token} {o : Operand}
    (h : Operand.ofText t.text = .ok o) : Edit.ofTokens (t :: ts) = o.edit :: Edit.ofTokens ts := by
  simp [ofTokens, h, Except.toOption]

theorem Edit.fits_of_mem_ofTokens {e : Edit} {ts : List Token} (he : e ∈ Edit.ofTokens ts) :
    e.Fits := by
  obtain ⟨t, -, ht⟩ := List.mem_filterMap.1 he
  cases ho : Operand.ofText t.text with
  | error fault => simp [ho, Except.toOption] at ht
  | ok o =>
    obtain rfl : o.edit = e := by simpa [ho, Except.toOption] using ht
    exact Operand.fits_edit ho

/-- A line that has a token: the first is the mnemonic, the others are operands. -/
structure Definition where
  mnemonic : Token
  operands : List Token
  deriving DecidableEq, Repr

namespace Definition

def ofTokens? : List Token → Option Definition
  | [] => none
  | t :: ts => some ⟨t, ts⟩

def ofLine? (number : Nat) (text : String) : Option Definition :=
  ofTokens? (Token.scan number text)

def isPseudo (d : Definition) : Bool := d.mnemonic.text.toList.head? == some pseudoMark

def name (d : Definition) : String :=
  if d.isPseudo then String.ofList d.mnemonic.text.toList.tail else d.mnemonic.text

def edits (d : Definition) : List Edit := Edit.ofTokens d.operands

def ranges (d : Definition) : List BitRange := d.edits.map Edit.range

def literals (d : Definition) : List Literal := d.edits.filterMap Edit.literal?

def encoding (d : Definition) : Encoding := .ofLiterals d.literals

def instruction (path : String) (d : Definition) : Instruction where
  name := d.name
  isPseudo := d.isPseudo
  span := some (d.mnemonic.span path)
  encoding := d.encoding
  fields := d.edits.filterMap Edit.field?
  literals := d.literals
  ignored := d.edits.filterMap Edit.ignored?

def format (d : Definition) : WordFormat :=
  if BitRange.cover d.ranges = 0xFFFFFFFF then .full else .compressed

def record (path : String) (d : Definition) : Record :=
  { toInstruction := d.instruction path, format := d.format }

/-- The operands say something, and no two of them speak for the same bit. -/
structure Readable (d : Definition) : Prop where
  operands_ne_nil : d.operands ≠ []
  understood : ∀ t ∈ d.operands, ∃ o, Operand.ofText t.text = .ok o
  disjoint : d.ranges.Pairwise BitRange.Disjoint

/-- The operands speak for every bit of a full or of a compressed word, once for each. -/
structure Tiles (d : Definition) : Prop extends Readable d where
  whole : BitRange.cover d.ranges = 0xFFFFFFFF ∨ BitRange.cover d.ranges = 0x0000FFFF

instance (d : Definition) : Decidable d.Readable :=
  decidable_of_iff
    (d.operands ≠ [] ∧ (∀ t ∈ d.operands, (Operand.ofText t.text).isOk = true) ∧
      d.ranges.Pairwise BitRange.Disjoint)
    ⟨fun h => ⟨h.1, fun t ht => Except.isOk_iff.1 (h.2.1 t ht), h.2.2⟩,
      fun h => ⟨h.operands_ne_nil, fun t ht => Except.isOk_iff.2 (h.understood t ht), h.disjoint⟩⟩

theorem tiles_iff {d : Definition} :
    d.Tiles ↔ d.Readable ∧
      (BitRange.cover d.ranges = 0xFFFFFFFF ∨ BitRange.cover d.ranges = 0x0000FFFF) :=
  ⟨fun h => ⟨h.toReadable, h.whole⟩, fun h => ⟨h.1, h.2⟩⟩

instance (d : Definition) : Decidable d.Tiles := decidable_of_iff' _ tiles_iff

theorem nameOfMnemonic_eq (d : Definition) :
    Instruction.nameOfMnemonic d.mnemonic.text = (d.name, d.isPseudo) := by
  unfold Instruction.nameOfMnemonic name isPseudo
  cases d.mnemonic.text.toList with
  | nil => rfl
  | cons c cs => by_cases h : c = pseudoMark <;> simp [h]

theorem isPseudo_congr {d e : Definition} (h : d.mnemonic.text = e.mnemonic.text) :
    d.isPseudo = e.isPseudo := by
  rw [isPseudo, isPseudo, h]

theorem name_congr {d e : Definition} (h : d.mnemonic.text = e.mnemonic.text) :
    d.name = e.name := by
  rw [name, name, isPseudo_congr h, h]

theorem mnemonic_text_eq (d : Definition) :
    d.mnemonic.text = (if d.isPseudo then "@" else "") ++ d.name := by
  rw [← String.toList_inj, name, isPseudo, pseudoMark]
  cases htext : d.mnemonic.text.toList with
  | nil => simp [htext]
  | cons c cs => by_cases h : c = '@' <;> simp [h, htext]

theorem ofLine?_eq_none_iff {number : Nat} {text : String} :
    ofLine? number text = none ↔ Token.scan number text = [] := by
  unfold ofLine?
  cases Token.scan number text <;> simp [ofTokens?]

theorem ofLine?_eq_some_iff {number : Nat} {text : String} {d : Definition} :
    ofLine? number text = some d ↔ Token.scan number text = d.mnemonic :: d.operands := by
  unfold ofLine?
  cases Token.scan number text with
  | nil => simp [ofTokens?]
  | cons t ts =>
    cases d
    simp [ofTokens?]

theorem mnemonic_mem_scan {number : Nat} {text : String} {d : Definition}
    (h : ofLine? number text = some d) : d.mnemonic ∈ Token.scan number text := by
  rw [ofLine?_eq_some_iff.1 h]
  exact List.mem_cons_self

theorem operands_subset_scan {number : Nat} {text : String} {d : Definition}
    (h : ofLine? number text = some d) : d.operands ⊆ Token.scan number text := by
  rw [ofLine?_eq_some_iff.1 h]
  exact List.subset_cons_self _ _

theorem cover_eq_coverage_iff {d : Definition} {f : WordFormat} :
    BitRange.cover d.ranges = f.coverage ↔
      (BitRange.cover d.ranges = 0xFFFFFFFF ∨ BitRange.cover d.ranges = 0x0000FFFF) ∧
        f = d.format := by
  constructor
  · intro h
    rw [format, h]
    cases f <;> decide
  · intro h
    obtain ⟨hwhole, rfl⟩ := h
    unfold format
    split
    next hfull => exact hfull
    next hfull => exact hwhole.resolve_left hfull

end Definition

theorem Coverage.format_eq_ok_iff {c : Coverage} {f : WordFormat} :
    c.format = .ok f ↔ c.bits = f.coverage := by
  unfold Coverage.format
  split
  next hfull =>
    rw [hfull]
    cases f <;> simp [WordFormat.coverage]
  next hfull =>
    split
    next hhalf =>
      rw [hhalf]
      cases f <;> simp [WordFormat.coverage]
    next hhalf =>
      refine ⟨nofun, fun h => ?_⟩
      cases f with
      | full => exact absurd h hfull
      | compressed => exact absurd h hhalf

theorem Coverage.format_eq_error {c : Coverage} {fault : Fault} (h : c.format = .error fault) :
    fault = .incompleteCoverage c.bits := by
  unfold format at h
  split at h
  · cases h
  · split at h
    · cases h
    · exact (Except.error.inj h).symm

namespace Draft

theorem addToken_eq_ok_iff {d d' : Draft} {t : Token} :
    d.addToken t = .ok d' ↔ ∃ o, Operand.ofText t.text = .ok o ∧ d.perform o.edit = .ok d' :=
  Except.bind_eq_ok_iff

theorem addTokens_eq_ok_iff {path : String} {d d' : Draft} {ts : List Token} :
    d.addTokens path ts = .ok d' ↔
      (∀ t ∈ ts, ∃ o, Operand.ofText t.text = .ok o) ∧
        (Edit.ofTokens ts).foldlM perform d = .ok d' := by
  induction ts generalizing d with
  | nil => simp [addTokens, pure, Except.pure]
  | cons t ts ih =>
    rw [List.forall_mem_cons]
    cases ht : d.addToken t with
    | ok d₁ =>
      obtain ⟨o, ho, hd₁⟩ := addToken_eq_ok_iff.1 ht
      have hfold : (Edit.ofTokens (t :: ts)).foldlM perform d =
          (Edit.ofTokens ts).foldlM perform d₁ := by
        simp [Edit.ofTokens_cons ho, hd₁, bind, Except.bind]
      simp [addTokens, ht, ih, hfold, ho]
    | error fault =>
      simp only [addTokens, ht, reduceCtorEq, false_iff]
      rintro ⟨⟨⟨o, ho⟩, -⟩, h⟩
      rw [Edit.ofTokens_cons ho, List.foldlM_cons, Except.bind_eq_ok_iff] at h
      obtain ⟨d₁, hd₁, -⟩ := h
      rw [addToken_eq_ok_iff.2 ⟨o, ho, hd₁⟩] at ht
      cases ht

theorem addTokens_ofMnemonic_eq_ok_iff {path : String} {d : Definition} {d' : Draft} :
    (ofMnemonic path d.mnemonic).addTokens path d.operands = .ok d' ↔
      (∀ t ∈ d.operands, ∃ o, Operand.ofText t.text = .ok o) ∧
        d.ranges.Pairwise BitRange.Disjoint ∧
        d' = (ofMnemonic path d.mnemonic).extend d.edits := by
  rw [addTokens_eq_ok_iff, foldlM_perform_eq_ok_iff]
  have hfits : ∀ e ∈ d.edits, e.Fits := fun e he => Edit.fits_of_mem_ofTokens he
  -- Nothing is taken yet, so only the operands can stand in each other's way.
  have hfree : ∀ e ∈ d.edits,
      (ofMnemonic path d.mnemonic).coverage.bits &&& e.range.mask = 0 := by
    intro e _
    simp [ofMnemonic]
  exact and_congr_right fun _ => ⟨fun h => h.2.2, fun h => ⟨hfits, hfree, h⟩⟩

theorem ofTokens_cons_eq_ok_iff {path : String} {d : Definition} {draft : Option Draft} :
    ofTokens path (d.mnemonic :: d.operands) = .ok draft ↔
      d.Readable ∧ draft = some ((ofMnemonic path d.mnemonic).extend d.edits) := by
  cases hops : d.operands with
  | nil =>
    refine ⟨nofun, fun h => absurd hops h.1.operands_ne_nil⟩
  | cons t ts =>
    change ((ofMnemonic path d.mnemonic).addTokens path (t :: ts)).map some = .ok draft ↔ _
    rw [← hops, Except.map_eq_ok_iff]
    constructor
    · rintro ⟨d', h, rfl⟩
      obtain ⟨hund, hdisj, rfl⟩ := addTokens_ofMnemonic_eq_ok_iff.1 h
      exact ⟨⟨by simp [hops], hund, hdisj⟩, rfl⟩
    · rintro ⟨h, rfl⟩
      exact ⟨_, addTokens_ofMnemonic_eq_ok_iff.2 ⟨h.understood, h.disjoint, rfl⟩, rfl⟩

theorem ofLine_eq_ok_iff {path text : String} {number : Nat} {d : Definition}
    {draft : Option Draft} (h : Definition.ofLine? number text = some d) :
    ofLine path number text = .ok draft ↔
      d.Readable ∧ draft = some ((ofMnemonic path d.mnemonic).extend d.edits) := by
  rw [ofLine, Definition.ofLine?_eq_some_iff.1 h, ofTokens_cons_eq_ok_iff]

theorem toInstruction_extend (path : String) (d : Definition) :
    ((ofMnemonic path d.mnemonic).extend d.edits).toInstruction = d.instruction path := by
  simp [extend, ofMnemonic, Definition.instruction, Definition.encoding, Definition.literals,
    Definition.nameOfMnemonic_eq, Encoding.join]

theorem coverage_extend (path : String) (d : Definition) :
    ((ofMnemonic path d.mnemonic).extend d.edits).coverage = ⟨BitRange.cover d.ranges⟩ := by
  simp [extend, ofMnemonic, Definition.ranges]

end Draft

end OpcodeTable
