import OpcodeTable.Proofs.Listing.Definitions
import OpcodeTable.Proofs.Record.Bytes

namespace OpcodeTable

namespace Record

def Entered (r : Record) : Prop :=
  ∃ (t t' : Table) (path : String) (number : Nat) (text : String),
    t.readLine path number text = .ok t' ∧ t'.records = t.records ++ [r]

/-- What is written of the record after its name, the byte that closes the name included. -/
def tailBytes (r : Record) : List UInt8 := r.bytes.drop r.name.toUTF8.size

variable {r s : Record} {x y : List UInt8}

theorem tailBytes_eq (r : Record) : r.tailBytes = 0 :: r.bodyBytes := by
  rw [tailBytes, bytes, textBytes, List.append_assoc]
  exact List.drop_left

theorem Entered.sound (h : r.Entered) : r.Sound := by
  obtain ⟨t, t', path, number, text, hline, hrecords⟩ := h
  cases hd : Definition.ofLine? number text with
  | none =>
    rw [Table.readLine_of_blank hd, Except.ok.injEq] at hline
    subst hline
    exact absurd hrecords (by simp)
  | some d =>
    obtain ⟨htiles, -, hdefined⟩ := (Table.readLine_eq_ok_iff hd).1 hline
    rw [hrecords, List.append_cancel_left_eq, List.singleton_inj] at hdefined
    exact hdefined ▸ Definition.sound_record path htiles

theorem entered_of_tiles {d : Definition} {number : Nat} {text : String}
    (h : Definition.ofLine? number text = some d) (htiles : d.Tiles) (path : String) :
    (d.record path).Entered := by
  obtain ⟨t', ht'⟩ := exists_table (List.pairwise_singleton Compatible (d.record path))
  exact ⟨.empty, t', path, number, text, (Table.readLine_eq_ok_iff h).2 ⟨htiles, nofun, ht'⟩, ht'⟩

theorem body_eq_iff :
    r.body = s.body ↔
      r.isPseudo = s.isPseudo ∧ r.encoding.value = s.encoding.value ∧
        r.encoding.mask = s.encoding.mask ∧ r.format = s.format ∧ r.fields = s.fields ∧
        r.literals = s.literals ∧ r.ignored = s.ignored := by
  obtain ⟨⟨_, _, _, ⟨_, _⟩, _, _, _⟩, _⟩ := r
  obtain ⟨⟨_, _, _, ⟨_, _⟩, _, _, _⟩, _⟩ := s
  simp only [body, mk.injEq, Instruction.mk.injEq, Encoding.mk.injEq, true_and]
  tauto

theorem tailBytes_append_inj_iff (hr : r.Countable) (hs : s.Countable) :
    r.tailBytes ++ x = s.tailBytes ++ y ↔ r.body = s.body ∧ x = y := by
  rw [tailBytes_eq, tailBytes_eq, List.cons_append, List.cons_append, List.cons_inj_right]
  constructor
  · exact bodyBytes_append_inj hr hs
  · rintro ⟨hbody, rfl⟩
    change r.body.bodyBytes ++ x = s.body.bodyBytes ++ x
    rw [hbody]

/-- What is written after the name of a record that some line adds tells what the record says, and
where it ends. None of its lists has more entries than the byte before it can count. -/
theorem tailBytes_append_eq_iff (hr : r.Entered) (hs : s.Entered) :
    (∀ x y, r.tailBytes ++ x = s.tailBytes ++ y ↔
        (r.isPseudo = s.isPseudo ∧ r.encoding.value = s.encoding.value ∧
          r.encoding.mask = s.encoding.mask ∧ r.format = s.format ∧ r.fields = s.fields ∧
          r.literals = s.literals ∧ r.ignored = s.ignored) ∧ x = y) ∧
      r.fields.length + r.literals.length + r.ignored.length ≤ 32 ∧
        (countByte r.fields).toNat = r.fields.length ∧
        (countByte r.literals).toNat = r.literals.length ∧
        (countByte r.ignored).toNat = r.ignored.length := by
  obtain ⟨hfields, hliterals, hignored⟩ := hr.sound.countable
  refine ⟨fun x y => ?_, hr.sound.length_le, toNat_countByte hfields, toNat_countByte hliterals,
    toNat_countByte hignored⟩
  rw [tailBytes_append_inj_iff hr.sound.countable hs.sound.countable, body_eq_iff]

end Record

namespace Listing

theorem entered_of_read {mode : ErrorMode} {path : String} {bytes : List UInt8} {c : Compilation}
    (h : read mode path bytes = .ok c) : ∀ r ∈ c.table.records, r.Entered := by
  intro r hr
  obtain ⟨text, -, hwf, hrecords, -⟩ := read_eq_ok_iff.1 h
  rw [hrecords, List.mem_map] at hr
  obtain ⟨d, hd, rfl⟩ := hr
  obtain ⟨k, line, -, hline⟩ := exists_line_of_mem_definitionsFrom hd
  exact Record.entered_of_tiles hline (hwf.tiles d hd) path

def renamed : String := "@a 15..11=1 crd 6..0=0x02\n@other crd 15..11=0x1 6..0=2\n"

theorem tailBytes_append_eq_iff_renamed :
    ∃ c, read .failFast "" (Text.toBytes renamed.toList) = .ok c ∧
      c.table.names = ["a", "other"] ∧ (∀ r ∈ c.table.records, r.Entered) ∧
      ∀ r ∈ c.table.records, ∀ s ∈ c.table.records, r.tailBytes = s.tailBytes := by
  obtain ⟨c, hc, hrec⟩ := @exists_read .failFast "" renamed _ (ofBytes?_toBytes renamed)
    (by decide +kernel)
  have hentered := entered_of_read hc
  have hbody : ∀ r ∈ c.table.records, ∀ s ∈ c.table.records, r.body = s.body := by
    rw [hrec]
    decide +kernel
  refine ⟨c, hc, by rw [Table.names, hrec]; decide +kernel, hentered, ?_⟩
  intro r hr s hs
  have htail := (Record.tailBytes_append_eq_iff (hentered r hr) (hentered s hs)).1 [] []
  exact List.append_cancel_right (htail.2 ⟨Record.body_eq_iff.1 (hbody r hr s hs), rfl⟩)

end Listing

end OpcodeTable
