import OpcodeTable.Proofs.Artifact.Reorder
import OpcodeTable.Proofs.Listing.Acceptance

namespace OpcodeTable.Listing

def LineReordered (a b : String) : Prop :=
  (Token.words a).head? = (Token.words b).head? ∧ (Token.words a).tail.Perm (Token.words b).tail

instance : DecidableRel LineReordered := fun a b =>
  inferInstanceAs (Decidable ((Token.words a).head? = (Token.words b).head? ∧
    (Token.words a).tail.Perm (Token.words b).tail))

theorem LineReordered.symm {a b : String} (h : LineReordered a b) : LineReordered b a :=
  ⟨h.1.symm, h.2.symm⟩

theorem LineReordered.ofLine? {a b : String} (h : LineReordered a b) (number : Nat) :
    Option.Rel Definition.Reordered (Definition.ofLine? number a)
      (Definition.ofLine? number b) := by
  obtain ⟨hhead, htail⟩ := h
  rw [← Token.map_text_scan number a, ← Token.map_text_scan number b] at hhead htail
  unfold Definition.ofLine?
  cases ha : Token.scan number a with
  | nil =>
    rw [ha, List.map_nil, List.head?_nil, eq_comm, List.head?_eq_none_iff,
      List.map_eq_nil_iff] at hhead
    rw [hhead]
    exact .none
  | cons t ts =>
    rw [ha] at hhead htail
    cases hb : Token.scan number b with
    | nil =>
      rw [hb] at hhead
      cases hhead
    | cons u us =>
      rw [hb] at hhead htail
      exact .some ⟨Option.some.inj hhead, htail⟩

theorem definitionsFrom_reordered {ls ms : List String} (h : List.Forall₂ LineReordered ls ms)
    (number : Nat) :
    List.Forall₂ Definition.Reordered (definitionsFrom number ls) (definitionsFrom number ms) := by
  induction h generalizing number with
  | nil => exact .nil
  | @cons a b ls ms hline _ ih =>
    have hrel := hline.ofLine? number
    simp only [definitionsFrom]
    generalize Definition.ofLine? number a = d?, Definition.ofLine? number b = e? at hrel ⊢
    cases hrel with
    | none => exact ih (number + 1)
    | some hd => exact .cons hd (ih (number + 1))

section WellFormed

variable {ds es : List Definition}

theorem records_reordered (path : String) (h : List.Forall₂ Definition.Reordered ds es) :
    List.Forall₂ Record.Reordered (ds.map (Definition.record path))
      (es.map (Definition.record path)) := by
  rw [List.forall₂_map_left_iff, List.forall₂_map_right_iff]
  exact h.imp fun _ _ hd => hd.record path

theorem WellFormed.of_reordered (h : List.Forall₂ Definition.Reordered ds es)
    (hds : WellFormed ds) : WellFormed es where
  tiles := forall_mem_of_forall₂ h (fun _ _ => Definition.Reordered.tiles) hds.tiles
  names_nodup := by
    have hnames := map_eq_map_of_forall₂ h fun _ _ => Definition.Reordered.name_eq
    exact hnames ▸ hds.names_nodup
  distinct := by
    have hreal := List.rel_filter (R := Definition.Reordered) (p := fun d => !d.isPseudo)
      (q := fun d => !d.isPseudo) (fun _ _ hd => by simp only [hd.isPseudo_eq]) h
    apply pairwise_of_forall₂ hreal _ hds.distinct
    intro a b a' b' hab hab'
    rw [hab.encoding_eq, hab'.encoding_eq]
    exact id

end WellFormed

/-- The files agree line by line, up to the order of the operands. What is no text stands against
what is no text. -/
def Reordered (xs ys : List UInt8) : Prop :=
  List.Forall₂ (fun x y => Option.Rel LineReordered (Text.ofBytes? x) (Text.ofBytes? y))
    (Text.lines xs) (Text.lines ys)

theorem Reordered.symm {xs ys : List UInt8} (h : Reordered xs ys) : Reordered ys xs := by
  apply List.Forall₂.flip
  apply h.imp
  intro x y hxy
  change Option.Rel LineReordered (Text.ofBytes? y) (Text.ofBytes? x)
  generalize Text.ofBytes? x = a?, Text.ofBytes? y = b? at hxy ⊢
  cases hxy with
  | none => exact .none
  | some hline => exact .some hline.symm

theorem reordered_iff_of_text {xs ys : List UInt8} {a b : String}
    (ha : Text.ofBytes? xs = some a) (hb : Text.ofBytes? ys = some b) :
    Reordered xs ys ↔ List.Forall₂ LineReordered (Text.linesOf a) (Text.linesOf b) := by
  rw [Reordered, lines_of_text ha, lines_of_text hb, encode, encode, List.forall₂_map_left_iff,
    List.forall₂_map_right_iff]
  simp only [ofBytes?_toBytes, Option.rel_some_some]

theorem Reordered.isText {xs ys : List UInt8} (h : Reordered xs ys) (hxs : Text.IsText xs) :
    Text.IsText ys := by
  rw [Text.isText_iff_forall_lines] at hxs ⊢
  refine forall_mem_of_forall₂ h (fun x y hxy hx => ?_) hxs
  unfold Text.IsText at hx ⊢
  generalize Text.ofBytes? x = a?, Text.ofBytes? y = b? at hxy hx ⊢
  cases hxy with
  | none => exact hx
  | some => exact ⟨_, rfl⟩

theorem exists_read_of_reordered {mode : ErrorMode} {path : String} {xs ys : List UInt8}
    {c : Compilation} (h : Reordered xs ys) (hc : read mode path xs = .ok c) :
    ∃ d, read mode path ys = .ok d ∧
      List.Forall₂ Record.Reordered c.table.records d.table.records := by
  obtain ⟨a, ha, hwf, hrec, -⟩ := read_eq_ok_iff.1 hc
  obtain ⟨b, hb⟩ := h.isText ⟨a, ha⟩
  have hdefs := definitionsFrom_reordered ((reordered_iff_of_text ha hb).1 h) 1
  obtain ⟨d, hd, hrec'⟩ := exists_read hb (hwf.of_reordered hdefs)
  refine ⟨d, hd, ?_⟩
  rw [hrec, hrec']
  exact records_reordered path hdefs

/-- The order of the operands on a line decides neither whether a file is accepted nor what the
artifacts say. The summary alone shows it, as it hashes the records. -/
theorem order_irrelevant (mode : ErrorMode) (path : String) {xs ys : List UInt8}
    (h : Reordered xs ys) :
    ((∃ c, read mode path xs = .ok c) ↔ ∃ d, read mode path ys = .ok d) ∧
      ∀ c d, read mode path xs = .ok c → read mode path ys = .ok d →
        List.Forall₂ Record.Reordered c.table.records d.table.records ∧
          ∀ a : Artifact, a ≠ .summary → a.render c.table = a.render d.table := by
  constructor
  · constructor
    · intro hxs
      obtain ⟨c, hc⟩ := hxs
      obtain ⟨d, hd, -⟩ := exists_read_of_reordered h hc
      exact ⟨d, hd⟩
    · intro hys
      obtain ⟨d, hd⟩ := hys
      obtain ⟨c, hc, -⟩ := exists_read_of_reordered h.symm hd
      exact ⟨c, hc⟩
  · intro c d hc hd
    obtain ⟨d', hd', hrec⟩ := exists_read_of_reordered h hc
    obtain rfl : d' = d := Except.ok.inj (hd'.symm.trans hd)
    exact ⟨hrec, fun a ha => Artifact.render_eq_of_reordered ha hrec⟩

def backwards : String :=
  "addi 6..0=0x13 14..12=0 imm12 rs1 rd\n" ++
    "@nop 6..0=0x13 31..7=0\n" ++
    "c.li 1..0=1 6..2=ignore rd 12=ignore 15..13=2\n"

def backwardsBytes : List UInt8 := Text.toBytes backwards.toList

theorem order_irrelevant_backwards :
    ∃ c d, read .failFast "" sampleBytes = .ok c ∧ read .failFast "" backwardsBytes = .ok d ∧
      c.table.records ≠ d.table.records ∧
      Artifact.bitPatterns.render c.table = Artifact.bitPatterns.render d.table := by
  have hbackwards : Text.ofBytes? backwardsBytes = some backwards := ofBytes?_toBytes backwards
  have h : Reordered sampleBytes backwardsBytes :=
    (reordered_iff_of_text ofBytes?_sampleBytes hbackwards).2 (by decide +kernel)
  obtain ⟨haccepted, hsame⟩ := order_irrelevant .failFast "" h
  obtain ⟨c, hc, hrec⟩ := exists_read ofBytes?_sampleBytes wellFormed_sample
  obtain ⟨d, hd⟩ := haccepted.1 ⟨c, hc⟩
  obtain ⟨-, hrender⟩ := hsame c d hc hd
  obtain ⟨text, htext, -, hrec', -⟩ := read_eq_ok_iff.1 hd
  obtain rfl : text = backwards := Option.some.inj (htext.symm.trans hbackwards)
  refine ⟨c, d, hc, hd, ?_, hrender .bitPatterns (by decide)⟩
  rw [hrec, hrec']
  decide +kernel

end OpcodeTable.Listing
