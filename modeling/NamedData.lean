import NamedData.Index.Describe
import NamedData.Proofs.Trie
import NamedData.Repository
import NamedData.Telemetry.Installation
import NamedData.Proofs.Growth
import NamedData.Proofs.History
import NamedData.Proofs.Matching
import NamedData.Proofs.Search
import NamedData.Proofs.Selection
import NamedData.Proofs.Canonical
import NamedData.Proofs.Answering
import NamedData.Proofs.Sessions
import NamedData.Proofs.Polling
import NamedData.Proofs.Entries
import NamedData.Proofs.Escapes
import NamedData.Proofs.Grammar
import NamedData.Proofs.RoundTrip
import NamedData.Proofs.Widths
import NamedData.Proofs.Census
import NamedData.Proofs.Sweep
import NamedData.Proofs.Stamps
import NamedData.Proofs.Undated
import NamedData.Proofs.Arrival
import NamedData.Proofs.Metering
import NamedData.Proofs.Digests
import NamedData.Proofs.Handles
import NamedData.Proofs.Listings
import NamedData.Proofs.Gaps
import NamedData.Proofs.Screening
import NamedData.Proofs.FullNames
import NamedData.Proofs.Exact
import NamedData.Proofs.Members
import NamedData.Proofs.Frame
import NamedData.Proofs.Probes
import NamedData.Proofs.Milliseconds
import NamedData.Proofs.Markers
import NamedData.Proofs.Decoded
import NamedData.Proofs.Strays
import NamedData.Proofs.Explicit
import NamedData.Proofs.Tours
