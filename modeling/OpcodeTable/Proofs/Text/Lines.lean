import Mathlib.Data.List.Basic
import Mathlib.Data.List.TakeWhile
import OpcodeTable.Text.Split

namespace OpcodeTable.Text

def toBytes (cs : List Char) : List UInt8 := cs.flatMap String.utf8EncodeChar

@[simp] theorem toBytes_nil : toBytes [] = [] := rfl

@[simp] theorem toBytes_cons (c : Char) (cs : List Char) :
    toBytes (c :: cs) = String.utf8EncodeChar c ++ toBytes cs := rfl

@[simp] theorem toBytes_append (cs ds : List Char) :
    toBytes (cs ++ ds) = toBytes cs ++ toBytes ds := by
  simp [toBytes]

theorem toBytes_eq_nil_iff {cs : List Char} : toBytes cs = [] ↔ cs = [] := by
  cases cs with
  | nil => exact iff_of_true toBytes_nil rfl
  | cons c cs => simp

theorem ofBytes?_eq_some_iff {bytes : List UInt8} {text : String} :
    ofBytes? bytes = some text ↔ bytes = toBytes text.toList := by
  have hencode (cs : List Char) :
      (⟨bytes.toArray⟩ : ByteArray) = cs.utf8Encode ↔ bytes = toBytes cs := by
    rw [List.utf8Encode, ByteArray.ext_iff, ← Array.toList_inj, List.toList_data_toByteArray]
    rfl
  unfold ofBytes? String.fromUTF8?
  split
  next hvalid =>
    rw [Option.some_inj, ← hencode, String.utf8Encode_toList]
    constructor
    · intro h
      rw [← h]
      rfl
    · intro h
      exact String.toByteArray_inj.1 h
  next hvalid =>
    refine ⟨nofun, fun h => absurd ?_ hvalid⟩
    exact ⟨text.toList, (hencode _).2 h⟩

theorem toList_toUTF8 (s : String) : s.toUTF8.data.toList = toBytes s.toList := by
  rw [String.toUTF8, ← String.utf8Encode_toList, List.utf8Encode, List.toList_data_toByteArray]
  rfl

theorem mem_utf8EncodeChar_iff {b : UInt8} {c : Char} (hb : b.toNat < 128) :
    b ∈ String.utf8EncodeChar c ↔ c.toNat = b.toNat := by
  have hlt : c.toNat < 1114112 := by
    cases c.valid with
    | inl h => exact Nat.lt_trans h (by decide)
    | inr h => exact h.2
  have hbyte (n : Nat) : b = UInt8.ofNat n ↔ b.toNat = n % 256 := by
    rw [← UInt8.toNat_inj, UInt8.toNat_ofNat']
  have hval : c.val.toNat = c.toNat := rfl
  simp only [String.utf8EncodeChar, hval]
  split
  · simp only [List.mem_singleton, hbyte]
    omega
  · split
    · simp only [List.mem_cons, List.not_mem_nil, or_false, hbyte]
      constructor <;> intro h <;> omega
    · split
      · simp only [List.mem_cons, List.not_mem_nil, or_false, hbyte]
        constructor <;> intro h <;> omega
      · simp only [List.mem_cons, List.not_mem_nil, or_false, hbyte]
        constructor <;> intro h <;> omega

theorem lineFeed_mem_utf8EncodeChar_iff {c : Char} :
    lineFeed ∈ String.utf8EncodeChar c ↔ c = '\n' := by
  rw [mem_utf8EncodeChar_iff (by decide), ← Char.toNat_inj]
  rfl

theorem carriageReturn_mem_utf8EncodeChar_iff {c : Char} :
    carriageReturn ∈ String.utf8EncodeChar c ↔ c = '\r' := by
  rw [mem_utf8EncodeChar_iff (by decide), ← Char.toNat_inj]
  rfl

section Pieces

variable {α : Type} [DecidableEq α]

def dropEnd (mark : α) (xs : List α) : List α :=
  if xs.getLast? = some mark then xs.dropLast else xs

theorem dropEnd_concat (mark : α) (xs : List α) : dropEnd mark (xs ++ [mark]) = xs := by
  simp [dropEnd]

theorem dropEnd_append_of_not_mem {mark : α} {xs ys : List α} (hys : ys ≠ []) (h : mark ∉ ys) :
    dropEnd mark (xs ++ ys) = xs ++ ys := by
  rw [dropEnd, List.getLast?_append_of_ne_nil xs hys, if_neg]
  intro hlast
  exact h (List.mem_of_getLast? hlast)

/-- The lines that the pieces between line feeds make up. A line feed ended every piece but the last,
which is a line only if there is something in it. -/
def linesOfPieces (mark : α) : List (List α) → List (List α)
  | [] => []
  | [piece] => if piece = [] then [] else [piece]
  | piece :: next :: pieces => dropEnd mark piece :: linesOfPieces mark (next :: pieces)

end Pieces

def linesOf (text : String) : List String :=
  (linesOfPieces '\r' (text.toList.splitOn '\n')).map String.ofList

theorem lines_eq (bytes : List UInt8) :
    lines bytes = linesOfPieces carriageReturn (bytes.splitOn lineFeed) := by
  fun_induction lines bytes with
  | case1 => simp [linesOfPieces]
  | case2 b bs line h =>
    have hall := List.dropWhile_eq_nil_iff.1 h
    have hfree : lineFeed ∉ b :: bs := fun hmem => by simpa using hall _ hmem
    have hline : line = b :: bs := List.takeWhile_eq_self_iff.2 hall
    rw [List.splitOn_eq_singleton hfree, hline]
    rfl
  | case3 b bs line x rest h ih =>
    have hx : x = lineFeed := by
      have := List.head?_dropWhile_not (· != lineFeed) (b :: bs)
      simpa [h] using this
    have hfree : lineFeed ∉ line := fun hmem => by simpa using List.mem_takeWhile_imp hmem
    have hall : b :: bs = line ++ lineFeed :: rest := by
      rw [← hx, ← h]
      exact List.takeWhile_append_dropWhile.symm
    rw [hall, List.splitOn_append_cons_self_of_not_mem hfree, ih]
    cases hp : rest.splitOn lineFeed with
    | nil => exact absurd hp (List.splitOn_ne_nil _ _)
    | cons piece pieces => rfl

theorem splitOn_append_of_not_mem {mark : UInt8} {xs ys : List UInt8} (h : mark ∉ xs) :
    (xs ++ ys).splitOn mark = (ys.splitOn mark).modifyHead (xs ++ ·) := by
  induction xs with
  | nil =>
    rw [List.nil_append]
    cases ys.splitOn mark <;> rfl
  | cons x xs ih =>
    simp only [List.mem_cons, not_or] at h
    rw [List.cons_append, List.splitOn_cons_eq_if_modifyHead, ih h.2,
      if_neg (by simpa using Ne.symm h.1)]
    cases ys.splitOn mark <;> rfl

theorem splitOn_toBytes (cs : List Char) :
    (toBytes cs).splitOn lineFeed = (cs.splitOn '\n').map toBytes := by
  induction cs with
  | nil => rfl
  | cons c cs ih =>
    rw [toBytes_cons, List.splitOn_cons_eq_if_modifyHead]
    by_cases hc : c = '\n'
    · subst hc
      exact congrArg ([] :: ·) ih
    · have hfree : lineFeed ∉ String.utf8EncodeChar c := mt lineFeed_mem_utf8EncodeChar_iff.1 hc
      rw [splitOn_append_of_not_mem hfree, ih, if_neg (by simpa using hc)]
      cases cs.splitOn '\n' <;> rfl

theorem dropEnd_toBytes (cs : List Char) :
    dropEnd carriageReturn (toBytes cs) = toBytes (dropEnd '\r' cs) := by
  cases List.eq_nil_or_concat cs with
  | inl h =>
    subst h
    rfl
  | inr h =>
    obtain ⟨ds, d, rfl⟩ := h
    rw [List.concat_eq_append]
    by_cases hd : d = '\r'
    · subst hd
      rw [toBytes_append, dropEnd_concat]
      exact dropEnd_concat _ _
    · have hfree : carriageReturn ∉ toBytes [d] := by
        simpa using mt carriageReturn_mem_utf8EncodeChar_iff.1 hd
      rw [toBytes_append, dropEnd_append_of_not_mem (mt toBytes_eq_nil_iff.1 (by simp)) hfree,
        dropEnd_append_of_not_mem (by simp) (by simpa using Ne.symm hd), toBytes_append]

theorem linesOfPieces_map_toBytes (pieces : List (List Char)) :
    linesOfPieces carriageReturn (pieces.map toBytes) = (linesOfPieces '\r' pieces).map toBytes := by
  fun_induction linesOfPieces '\r' pieces with
  | case1 => rfl
  | case2 => rfl
  | case3 piece h => simp [linesOfPieces, toBytes_eq_nil_iff, h]
  | case4 piece next pieces ih =>
    simp only [List.map_cons] at ih
    simp only [List.map_cons, linesOfPieces, dropEnd_toBytes, ih]

theorem lines_toBytes (text : String) :
    lines (toBytes text.toList) = (linesOf text).map fun line => toBytes line.toList := by
  rw [lines_eq, splitOn_toBytes, linesOfPieces_map_toBytes]
  simp [linesOf]

def IsText (bytes : List UInt8) : Prop := ∃ text, ofBytes? bytes = some text

theorem isText_iff {bytes : List UInt8} : IsText bytes ↔ ∃ cs, bytes = toBytes cs := by
  simp only [IsText, ofBytes?_eq_some_iff]
  constructor
  · intro h
    obtain ⟨text, htext⟩ := h
    exact ⟨text.toList, htext⟩
  · intro h
    obtain ⟨cs, hcs⟩ := h
    exact ⟨String.ofList cs, by simpa using hcs⟩

theorem IsText.append {xs ys : List UInt8} (hx : IsText xs) (hy : IsText ys) :
    IsText (xs ++ ys) := by
  obtain ⟨cs, rfl⟩ := isText_iff.1 hx
  obtain ⟨ds, rfl⟩ := isText_iff.1 hy
  exact isText_iff.2 ⟨cs ++ ds, (toBytes_append cs ds).symm⟩

theorem isText_nil : IsText [] := isText_iff.2 ⟨[], rfl⟩

theorem isText_lineFeed : IsText [lineFeed] := isText_iff.2 ⟨['\n'], by decide⟩

theorem isText_carriageReturn : IsText [carriageReturn] := isText_iff.2 ⟨['\r'], by decide⟩

theorem isText_of_dropEnd {piece : List UInt8} (h : IsText (dropEnd carriageReturn piece)) :
    IsText piece := by
  unfold dropEnd at h
  split at h
  next hlast =>
    rw [← List.dropLast_append_getLast? _ hlast]
    exact h.append isText_carriageReturn
  next hlast => exact h

theorem isText_of_forall_linesOfPieces {pieces : List (List UInt8)}
    (h : ∀ line ∈ linesOfPieces carriageReturn pieces, IsText line) :
    IsText ([lineFeed].intercalate pieces) := by
  fun_induction linesOfPieces carriageReturn pieces with
  | case1 => exact isText_nil
  | case2 => exact isText_nil
  | case3 piece hne => simpa using h piece
  | case4 piece next pieces ih =>
    rw [List.forall_mem_cons] at h
    rw [List.intercalate_cons_cons]
    exact ((isText_of_dropEnd h.1).append isText_lineFeed).append (ih h.2)

theorem isText_iff_forall_lines {bytes : List UInt8} :
    IsText bytes ↔ ∀ line ∈ lines bytes, IsText line := by
  constructor
  · intro h line hline
    obtain ⟨text, htext⟩ := h
    rw [ofBytes?_eq_some_iff] at htext
    rw [htext, lines_toBytes, List.mem_map] at hline
    obtain ⟨s, -, rfl⟩ := hline
    exact isText_iff.2 ⟨s.toList, rfl⟩
  · intro h
    rw [lines_eq] at h
    have := isText_of_forall_linesOfPieces h
    rwa [List.intercalate_splitOn] at this

theorem not_isText_iff {bytes : List UInt8} :
    ¬ IsText bytes ↔ ∃ line ∈ lines bytes, ¬ IsText line := by
  rw [isText_iff_forall_lines]
  simp only [not_forall, exists_prop]

end OpcodeTable.Text
