import OpcodeTable.Proofs.Listing.Decoding
import OpcodeTable.Proofs.Record.Bytes

namespace OpcodeTable.Listing

theorem delimited_of_read {mode : ErrorMode} {path : String} {bytes : List UInt8}
    {c : Compilation} (h : read mode path bytes = .ok c)
    (hzero : ∀ r ∈ c.table.records, '\x00' ∉ r.name.toList) :
    ∀ r ∈ c.table.records, r.Delimited :=
  fun r hr => ⟨(sound_of_read h r hr).countable, hzero r hr⟩

/-- Tables with the same bytes have the same records in the same order, and the other way round,
wherever their definitions stand. -/
theorem bytes_identify {mode mode' : ErrorMode} {path path' : String} {bytes bytes' : List UInt8}
    {c c' : Compilation} (h : read mode path bytes = .ok c)
    (h' : read mode' path' bytes' = .ok c')
    (hzero : ∀ r ∈ c.table.records, '\x00' ∉ r.name.toList)
    (hzero' : ∀ r ∈ c'.table.records, '\x00' ∉ r.name.toList) :
    c.table.bytes = c'.table.bytes ↔
      c.table.records.map Record.unplaced = c'.table.records.map Record.unplaced := by
  constructor
  · exact Record.flatMap_bytes_inj (delimited_of_read h hzero) (delimited_of_read h' hzero')
  · intro hrecords
    rw [Table.bytes, Table.bytes, ← Record.flatMap_bytes_unplaced, hrecords,
      Record.flatMap_bytes_unplaced]

def plain : String := "a 15..11=1 crd 6..0=0x02\n@b 31..0=ignore\n"

def spaced : String := "# the same\n\n a  15..11=0x0_1 crd\t6..0=2 # again\r\n@b 31..0=ignore"

theorem bytes_identify_spaced :
    ∃ c c', read .failFast "" (Text.toBytes plain.toList) = .ok c ∧
      read .collectAll "listing" (Text.toBytes spaced.toList) = .ok c' ∧
      (∀ r ∈ c.table.records, '\x00' ∉ r.name.toList) ∧
      (∀ r ∈ c'.table.records, '\x00' ∉ r.name.toList) ∧
      c.table.records ≠ c'.table.records ∧ c.table.bytes = c'.table.bytes := by
  obtain ⟨c, hc, hrec⟩ := @exists_read .failFast "" plain _ (ofBytes?_toBytes plain)
    (by decide +kernel)
  obtain ⟨c', hc', hrec'⟩ := @exists_read .collectAll "listing" spaced _ (ofBytes?_toBytes spaced)
    (by decide +kernel)
  have hzero : ∀ r ∈ c.table.records, '\x00' ∉ r.name.toList := by
    rw [hrec]
    decide +kernel
  have hzero' : ∀ r ∈ c'.table.records, '\x00' ∉ r.name.toList := by
    rw [hrec']
    decide +kernel
  refine ⟨c, c', hc, hc', hzero, hzero', ?_, (bytes_identify hc hc' hzero hzero').2 ?_⟩
  · rw [hrec, hrec']
    decide +kernel
  · rw [hrec, hrec']
    decide +kernel

def twoLines : String := "@a 15..0=ignore\nb 31..0=1\n"

def oneLine : String :=
  "a\x00\x01\x00\x00\x00\x00\x00\x00\x00\x00\x10\x00\x00\x01\x0f\x00b 31..0=1\n"

theorem bytes_ambiguous :
    ∃ c c', read .failFast "" (Text.toBytes twoLines.toList) = .ok c ∧
      read .failFast "" (Text.toBytes oneLine.toList) = .ok c' ∧
      c.table.bytes = c'.table.bytes ∧ c.table.fingerprint = c'.table.fingerprint ∧
      c.table.records.map Record.unplaced ≠ c'.table.records.map Record.unplaced := by
  obtain ⟨c, hc, hrec⟩ := @exists_read .failFast "" twoLines _ (ofBytes?_toBytes twoLines)
    (by decide +kernel)
  obtain ⟨c', hc', hrec'⟩ := @exists_read .failFast "" oneLine _ (ofBytes?_toBytes oneLine)
    (by decide +kernel)
  have hbytes : c.table.bytes = c'.table.bytes := by
    rw [Table.bytes, Table.bytes, hrec, hrec']
    decide +kernel
  refine ⟨c, c', hc, hc', hbytes, by rw [Table.fingerprint, Table.fingerprint, hbytes], ?_⟩
  rw [hrec, hrec']
  decide +kernel

end OpcodeTable.Listing
