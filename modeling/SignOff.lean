import SignOff.Http.Startup
import SignOff.Ledger.Amendment
import SignOff.Main
import SignOff.Proofs.Approval.Positions
import SignOff.Proofs.DatedDocuments
import SignOff.Proofs.Document.Numbers
import SignOff.Proofs.Document.Synchronizing
import SignOff.Proofs.Halted
import SignOff.Proofs.Http.Causes
import SignOff.Proofs.Http.Refused
import SignOff.Proofs.Independence
import SignOff.Proofs.Json.Denoted
import SignOff.Proofs.Json.Paths
import SignOff.Proofs.KeptRecords
import SignOff.Proofs.Ledger.ReadBack
import SignOff.Proofs.Ledger.Refinement
import SignOff.Proofs.Ledger.WriteOnce
import SignOff.Proofs.Mirror
import SignOff.Proofs.Operator.Sources
import SignOff.Proofs.Origins
import SignOff.Proofs.Permanence
import SignOff.Proofs.RoundTrips
import SignOff.Proofs.Settings.DateFormats
import SignOff.Proofs.Settings.Inserted
import SignOff.Proofs.Settings.Layering
import SignOff.Proofs.Store.Interleaving
import SignOff.Proofs.Undocumented
import SignOff.Store.Shelf
