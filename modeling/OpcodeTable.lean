import OpcodeTable.Main
import OpcodeTable.Proofs.Artifact.Rows
import OpcodeTable.Proofs.Command.Outcome
import OpcodeTable.Proofs.Definition.Canonical
import OpcodeTable.Proofs.Draft.Bits
import OpcodeTable.Proofs.Listing.Delimited
import OpcodeTable.Proofs.Listing.Erasure
import OpcodeTable.Proofs.Listing.Fingerprint
import OpcodeTable.Proofs.Listing.Identifiers
import OpcodeTable.Proofs.Listing.Layout
import OpcodeTable.Proofs.Listing.Redefinition
import OpcodeTable.Proofs.Listing.Reorder
import OpcodeTable.Proofs.Listing.Selectors
import OpcodeTable.Proofs.Listing.Values
import OpcodeTable.Proofs.Listing.Warnings
import OpcodeTable.Proofs.Table.Overspecified
import OpcodeTable.Proofs.Table.Store
import OpcodeTable.Proofs.Token.Cursor
import OpcodeTable.Proofs.Word.Lens
