import Lru.Describe
import Lru.Fault
import Lru.Key
import Lru.Session.Command
import Lru.Proofs.Statistics.Totals
import Lru.Proofs.Arena.PartialMap
import Lru.Proofs.Cache.Audit
import Lru.Proofs.Cache.Drift
import Lru.Proofs.Cache.Traversal
import Lru.Proofs.Drift.Requests
import Lru.Proofs.Drift.Runs
import Lru.Proofs.RecencyList.Sequence
import Lru.Proofs.Reference.Announcements
import Lru.Proofs.Reference.Balance
import Lru.Proofs.History.Aging
import Lru.Proofs.History.Comparisons
import Lru.Proofs.History.Conservation
import Lru.Proofs.History.Expiry
import Lru.Proofs.History.Handles
import Lru.Proofs.History.Inclusion
import Lru.Proofs.History.Loading
import Lru.Proofs.History.Memoization
import Lru.Proofs.History.Recency
import Lru.Proofs.History.Removal
import Lru.Proofs.History.Resizing
import Lru.Proofs.History.Slots
import Lru.Proofs.History.Verdicts
import Lru.Proofs.History.Walks
import Lru.Proofs.History.WorkingSet
import Lru.Proofs.Session.Accesses
import Lru.Proofs.Session.Accounts
import Lru.Proofs.Session.Clearing
import Lru.Proofs.Session.Handles
import Lru.Proofs.Session.LookupThenInsert
import Lru.Proofs.Session.Observers
import Lru.Proofs.Session.Quiet
import Lru.Proofs.Session.Untimed
