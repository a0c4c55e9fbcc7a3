import NameIndex.CookieTable.Lemmas
import NameIndex.Level.ChaCha
import NameIndex.Proofs.Allocate
import NameIndex.Proofs.Relink
import NameIndex.Session
import NameIndex.Proofs.Enroll
import NameIndex.Proofs.Remove
import NameIndex.Proofs.Query
import NameIndex.Proofs.Cursor
import NameIndex.Proofs.Check
import NameIndex.Proofs.Run
import NameIndex.Proofs.Directory
import NameIndex.Proofs.Simulation
import NameIndex.Proofs.Ledger
import NameIndex.Proofs.Bookkeeping
import NameIndex.Proofs.Handles
import NameIndex.Proofs.Canonical
import NameIndex.Proofs.Custody
import NameIndex.Proofs.Admission
import NameIndex.Proofs.Scan
import NameIndex.Proofs.Deque
import NameIndex.Proofs.Removals
import NameIndex.Proofs.Grant
import NameIndex.Proofs.RoundTrip
import NameIndex.Proofs.Growth
import NameIndex.Proofs.Damage
import NameIndex.Proofs.Stem
import NameIndex.Proofs.Predecessors
import NameIndex.Proofs.Exchange
import NameIndex.Proofs.Heights
import NameIndex.Proofs.Session
