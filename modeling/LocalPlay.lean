import LocalPlay.Endpoint.Run
import LocalPlay.Fragment.Join
import LocalPlay.Reassembly.Run
import LocalPlay.Settings.Stored
import LocalPlay.Proofs.Reassembly.Checked
import LocalPlay.Proofs.Endpoint.Integrity
import LocalPlay.Proofs.Endpoint.Delivery
import LocalPlay.Proofs.Endpoint.Agreement
import LocalPlay.Proofs.Packet.Decoding
import LocalPlay.Proofs.Endpoint.Replies
import LocalPlay.Proofs.Reassembly.Isolation
import LocalPlay.Proofs.Reassembly.History
import LocalPlay.Proofs.Endpoint.Noise
import LocalPlay.Proofs.Endpoint.Sequencing
import LocalPlay.Proofs.Packet.Acceptance
import LocalPlay.Proofs.Reassembly.Repetition
import LocalPlay.Proofs.Endpoint.Repetition
import LocalPlay.Proofs.Fragment.Joining
import LocalPlay.Proofs.Reassembly.Joining
import LocalPlay.Proofs.Reassembly.Accounting
import LocalPlay.Proofs.Fragment.Chunks
import LocalPlay.Proofs.Endpoint.Datagrams
import LocalPlay.Proofs.Endpoint.ErrorReports
import LocalPlay.Proofs.Reassembly.Refusals
import LocalPlay.Proofs.Endpoint.Singles
import LocalPlay.Proofs.Endpoint.PayloadLimit
import LocalPlay.Proofs.Packet.Streams
import LocalPlay.Proofs.Fragment.Complete
import LocalPlay.Proofs.Fragment.RoundTrip
import LocalPlay.Proofs.Reassembly.Expiry
import LocalPlay.Proofs.Checksum
import LocalPlay.Proofs.Endpoint.Corruption
import LocalPlay.Proofs.Text.WellFormed
import LocalPlay.Proofs.Text.Replacement
import LocalPlay.Proofs.Packet.Shortening
import LocalPlay.Proofs.Packet.ReportCoding
import LocalPlay.Proofs.Settings.Storage
