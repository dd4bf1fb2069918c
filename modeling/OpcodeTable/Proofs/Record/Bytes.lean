import Mathlib.Data.List.Perm.Subperm
import OpcodeTable.Proofs.Definition.Sound
import OpcodeTable.Proofs.Field.Names
import OpcodeTable.Proofs.Text.Lines
import OpcodeTable.Table.Fingerprint

/-!
Records as bytes. What is written behind the name tells where it ends, whatever follows it; a name
does so only as long as the byte that closes it stands nowhere inside.
-/

namespace OpcodeTable

theorem toNat_countByte {α : Type} {entries : List α} (h : entries.length < 256) :
    (countByte entries).toNat = entries.length :=
  UInt8.toNat_ofNat_of_lt' h

def SelfDelimiting {α : Type} (f : α → List UInt8) : Prop :=
  ∀ a b x y, f a ++ x = f b ++ y → a = b ∧ x = y

namespace SelfDelimiting

variable {α : Type} {f : α → List UInt8}

theorem of_length {n : Nat} (hlen : ∀ a, (f a).length = n) (hinj : Function.Injective f) :
    SelfDelimiting f := by
  intro a b x y h
  obtain ⟨hab, hxy⟩ := List.append_inj h (by rw [hlen, hlen])
  exact ⟨hinj hab, hxy⟩

theorem flatMap (hf : SelfDelimiting f) {as bs : List α} {x y : List UInt8}
    (hlen : as.length = bs.length) (h : as.flatMap f ++ x = bs.flatMap f ++ y) :
    as = bs ∧ x = y := by
  induction as generalizing bs with
  | nil =>
    obtain rfl := List.length_eq_zero_iff.1 hlen.symm
    exact ⟨rfl, h⟩
  | cons a as ih =>
    cases bs with
    | nil => cases hlen
    | cons b bs =>
      simp only [List.flatMap_cons, List.append_assoc] at h
      obtain ⟨rfl, hrest⟩ := hf a b _ _ h
      obtain ⟨rfl, rfl⟩ := ih (Nat.succ.inj hlen) hrest
      exact ⟨rfl, rfl⟩

theorem counted (hf : SelfDelimiting f) {as bs : List α} {x y : List UInt8}
    (ha : as.length < 256) (hb : bs.length < 256)
    (h : (countByte as :: as.flatMap f) ++ x = (countByte bs :: bs.flatMap f) ++ y) :
    as = bs ∧ x = y := by
  obtain ⟨hcount, hentries⟩ := List.cons.inj h
  have hlen : as.length = bs.length := by
    rw [← toNat_countByte ha, ← toNat_countByte hb, hcount]
  exact hf.flatMap hlen hentries

end SelfDelimiting

theorem append_zero_inj {xs ys x y : List UInt8} (hxs : 0 ∉ xs) (hys : 0 ∉ ys)
    (h : xs ++ 0 :: x = ys ++ 0 :: y) : xs = ys ∧ x = y := by
  induction xs generalizing ys with
  | nil =>
    cases ys with
    | nil => exact ⟨rfl, (List.cons.inj h).2⟩
    | cons b bs => exact absurd (List.cons.inj h).1 (fun hb => hys (hb ▸ List.mem_cons_self))
  | cons a as ih =>
    cases ys with
    | nil => exact absurd (List.cons.inj h).1.symm (fun ha => hxs (ha ▸ List.mem_cons_self))
    | cons b bs =>
      obtain ⟨rfl, hrest⟩ := List.cons.inj h
      obtain ⟨rfl, rfl⟩ := ih (List.not_mem_of_not_mem_cons hxs) (List.not_mem_of_not_mem_cons hys)
        hrest
      exact ⟨rfl, rfl⟩

theorem Word.bytes_injective : Function.Injective Word.bytes := by
  intro v w h
  -- Bit `i` of a word is a bit of the byte that starts at the multiple of eight below `i`.
  have bit {start : Nat} (hbyte : (⟨v.extractLsb' start 8⟩ : UInt8) = ⟨w.extractLsb' start 8⟩)
      {i : Nat} (hle : start ≤ i) (hlt : i < start + 8) : v.getLsbD i = w.getLsbD i := by
    have := congrArg (fun b : UInt8 => b.toBitVec.getLsbD (i - start)) hbyte
    simpa [show i - start < 8 by omega, Nat.add_sub_cancel' hle] using this
  simp only [bytes, List.cons.injEq, and_true] at h
  obtain ⟨h₃, h₂, h₁, h₀⟩ := h
  apply BitVec.eq_of_getLsbD_eq
  intro i hi
  by_cases h8 : i < 8
  · exact bit h₀ (Nat.zero_le i) (by omega)
  by_cases h16 : i < 16
  · exact bit h₁ (by omega) (by omega)
  by_cases h24 : i < 24
  · exact bit h₂ (by omega) (by omega)
  · exact bit h₃ (by omega) (by omega)

theorem Word.selfDelimiting_bytes : SelfDelimiting Word.bytes :=
  .of_length (n := 4) (fun _ => rfl) bytes_injective

theorem BitRange.bytes_injective : Function.Injective BitRange.bytes := by
  intro r s h
  have hr := r.high_lt
  have hs := s.high_lt
  have hr' := r.low_le_high
  have hs' := s.low_le_high
  have ofNat {m n : Nat} (hm : m < 32) (hn : n < 32) (hmn : UInt8.ofNat m = UInt8.ofNat n) :
      m = n := by
    have := congrArg UInt8.toNat hmn
    simp only [UInt8.toNat_ofNat'] at this
    omega
  simp only [bytes, List.cons.injEq, and_true] at h
  have hhigh := ofNat hr hs h.1
  have hlow := ofNat (by omega) (by omega) h.2
  cases r
  cases s
  cases hhigh
  cases hlow
  rfl

theorem BitRange.selfDelimiting_bytes : SelfDelimiting BitRange.bytes :=
  .of_length (n := 2) (fun _ => rfl) bytes_injective

theorem Literal.selfDelimiting_bytes : SelfDelimiting Literal.bytes := by
  intro l m x y h
  simp only [bytes, List.append_assoc] at h
  obtain ⟨hrange, h⟩ := BitRange.selfDelimiting_bytes _ _ _ _ h
  obtain ⟨hvalue, rfl⟩ := Word.selfDelimiting_bytes _ _ _ _ h
  cases l
  cases m
  cases hrange
  cases hvalue
  exact ⟨rfl, rfl⟩

namespace Text

theorem toBytes_toList_injective {s t : String} (h : toBytes s.toList = toBytes t.toList) :
    s = t :=
  Option.some.inj ((ofBytes?_eq_some_iff.2 rfl).symm.trans (ofBytes?_eq_some_iff.2 h))

theorem zero_mem_toBytes_iff {cs : List Char} : 0 ∈ toBytes cs ↔ '\x00' ∈ cs := by
  have hchar (c : Char) : (0 : UInt8) ∈ String.utf8EncodeChar c ↔ c = '\x00' := by
    rw [mem_utf8EncodeChar_iff (by decide), ← Char.toNat_inj]
    rfl
  simp only [toBytes, List.mem_flatMap, hchar, exists_eq_right]

end Text

theorem textBytes_eq (s : String) : textBytes s = Text.toBytes s.toList ++ [0] := by
  rw [textBytes, Text.toList_toUTF8]

theorem textBytes_append_inj {s t : String} {x y : List UInt8} (hs : '\x00' ∉ s.toList)
    (ht : '\x00' ∉ t.toList) (h : textBytes s ++ x = textBytes t ++ y) : s = t ∧ x = y := by
  rw [textBytes_eq, textBytes_eq, List.append_assoc, List.append_assoc] at h
  obtain ⟨hst, hxy⟩ := append_zero_inj (mt Text.zero_mem_toBytes_iff.1 hs)
    (mt Text.zero_mem_toBytes_iff.1 ht) h
  exact ⟨Text.toBytes_toList_injective hst, hxy⟩

theorem Field.selfDelimiting_textBytes : SelfDelimiting fun f : Field => textBytes f.name := by
  intro f g x y h
  have hzero (f : Field) : '\x00' ∉ f.name.toList := by cases f <;> decide
  obtain ⟨hname, hxy⟩ := textBytes_append_inj (hzero f) (hzero g) h
  exact ⟨name_injective hname, hxy⟩

namespace BitRange

theorem length_le_of_disjoint {rs : List BitRange} (h : rs.Pairwise Disjoint) :
    rs.length ≤ 32 := by
  have hnodup : (rs.map BitRange.low).Nodup := by
    refine List.pairwise_map.2 (h.imp ?_)
    intro r s hrs heq
    exact hrs r.low ⟨Nat.le_refl _, r.low_le_high⟩ (heq ▸ ⟨Nat.le_refl _, s.low_le_high⟩)
  have hsub : rs.map BitRange.low ⊆ List.range 32 := by
    intro i hi
    obtain ⟨r, -, rfl⟩ := List.mem_map.1 hi
    exact List.mem_range.2 (lt_of_mem ⟨Nat.le_refl _, r.low_le_high⟩)
  simpa using (List.subperm_of_subset hnodup hsub).length_le

end BitRange

namespace Record

def unplaced (r : Record) : Record := { r with span := none }

def body (r : Record) : Record := { r with name := "", span := none }

def Countable (r : Record) : Prop :=
  r.fields.length < 256 ∧ r.literals.length < 256 ∧ r.ignored.length < 256

theorem Sound.length_le {r : Record} (h : r.Sound) :
    r.fields.length + r.literals.length + r.ignored.length ≤ 32 := by
  have := BitRange.length_le_of_disjoint h.disjoint
  simpa only [Instruction.ranges, List.length_append, List.length_map] using this

theorem Sound.countable {r : Record} (h : r.Sound) : r.Countable := by
  have := h.length_le
  refine ⟨?_, ?_, ?_⟩ <;> omega

theorem bodyBytes_append_inj {r s : Record} (hr : r.Countable) (hs : s.Countable)
    {x y : List UInt8} (h : r.bodyBytes ++ x = s.bodyBytes ++ y) : r.body = s.body ∧ x = y := by
  simp only [bodyBytes, List.append_assoc, List.cons_append, List.nil_append] at h
  obtain ⟨hpseudo, h⟩ := List.cons.inj h
  obtain ⟨hvalue, h⟩ := Word.selfDelimiting_bytes _ _ _ _ h
  obtain ⟨hmask, h⟩ := Word.selfDelimiting_bytes _ _ _ _ h
  obtain ⟨hformat, h⟩ := List.cons.inj h
  obtain ⟨hfields, h⟩ := Field.selfDelimiting_textBytes.counted hr.1 hs.1 h
  obtain ⟨hliterals, h⟩ := Literal.selfDelimiting_bytes.counted hr.2.1 hs.2.1 h
  obtain ⟨hignored, h⟩ := BitRange.selfDelimiting_bytes.counted hr.2.2 hs.2.2 h
  have hpseudo' : r.isPseudo = s.isPseudo := by
    cases hr : r.isPseudo <;> cases hs : s.isPseudo <;> simp [hr, hs] at hpseudo ⊢
  have hformat' : r.format = s.format := by
    cases hr : r.format <;> cases hs : s.format <;> simp [hr, hs, WordFormat.width] at hformat ⊢
  have hencoding : r.encoding = s.encoding := by
    cases hr : r.encoding
    cases hs : s.encoding
    simp only [hr, hs] at hvalue hmask
    rw [hvalue, hmask]
  simp only [body, hpseudo', hformat', hencoding, hfields, hliterals, hignored, h, and_self]

/-- The bytes of the record end where they should: its lists can be counted, and its name does not
hold the byte that closes it. -/
def Delimited (r : Record) : Prop := r.Countable ∧ '\x00' ∉ r.name.toList

theorem bytes_append_inj {r s : Record} (hr : r.Delimited) (hs : s.Delimited)
    {x y : List UInt8} (h : r.bytes ++ x = s.bytes ++ y) : r.unplaced = s.unplaced ∧ x = y := by
  simp only [bytes, List.append_assoc] at h
  obtain ⟨hname, hrest⟩ := textBytes_append_inj hr.2 hs.2 h
  obtain ⟨hbody, hxy⟩ := bodyBytes_append_inj hr.1 hs.1 hrest
  refine ⟨?_, hxy⟩
  change ({ r.body with name := r.name } : Record) = { s.body with name := s.name }
  rw [hname, hbody]

theorem bytes_ne_nil (r : Record) : r.bytes ≠ [] := by
  simp [bytes, textBytes]

theorem flatMap_bytes_inj {rs ss : List Record} (hrs : ∀ r ∈ rs, r.Delimited)
    (hss : ∀ s ∈ ss, s.Delimited) (h : rs.flatMap bytes = ss.flatMap bytes) :
    rs.map unplaced = ss.map unplaced := by
  induction rs generalizing ss with
  | nil =>
    cases ss with
    | nil => rfl
    | cons s ss => exact absurd h.symm (by simp [bytes_ne_nil])
  | cons r rs ih =>
    cases ss with
    | nil => exact absurd h (by simp [bytes_ne_nil])
    | cons s ss =>
      rw [List.forall_mem_cons] at hrs hss
      obtain ⟨hhead, htail⟩ := bytes_append_inj hrs.1 hss.1 h
      rw [List.map_cons, List.map_cons, hhead, ih hrs.2 hss.2 htail]

theorem flatMap_bytes_unplaced (rs : List Record) :
    (rs.map unplaced).flatMap bytes = rs.flatMap bytes := by
  rw [List.flatMap_map]
  rfl

end Record

end OpcodeTable
