import TaggedHeap.Main
import TaggedHeap.Proofs.Agreement
import TaggedHeap.Proofs.Thread
import TaggedHeap.Proofs.Tiling
import TaggedHeap.Proofs.Chains
import TaggedHeap.Proofs.Shape
import TaggedHeap.Proofs.Merge
import TaggedHeap.Proofs.Settled
import TaggedHeap.Proofs.Place
import TaggedHeap.Proofs.Format
import TaggedHeap.Proofs.Search
import TaggedHeap.Proofs.Growth
import TaggedHeap.Proofs.Live
import TaggedHeap.Proofs.Operations
import TaggedHeap.Proofs.Payload
import TaggedHeap.Proofs.Sound
import TaggedHeap.Proofs.Session
import TaggedHeap.Proofs.Building
import TaggedHeap.Proofs.Guarantees
import TaggedHeap.Proofs.Views
import TaggedHeap.Proofs.Plan
import TaggedHeap.Proofs.Refinement
import TaggedHeap.Proofs.Noninterference
import TaggedHeap.Proofs.Refusal
import TaggedHeap.Proofs.Ledger
import TaggedHeap.Proofs.Replay
import TaggedHeap.Proofs.Account
import TaggedHeap.Proofs.Passage
import TaggedHeap.Proofs.Metering
import TaggedHeap.Proofs.Journal
import TaggedHeap.Proofs.Discharge
import TaggedHeap.Proofs.Lapse
import TaggedHeap.Proofs.Grammar
import TaggedHeap.Proofs.Text
import TaggedHeap.Proofs.Kinship
import TaggedHeap.Proofs.Independence
import TaggedHeap.Proofs.Settings
import TaggedHeap.Proofs.Allotment
import TaggedHeap.Proofs.Upkeep
import TaggedHeap.Proofs.Reclaim
import TaggedHeap.Proofs.Relocation
import TaggedHeap.Proofs.Restoration
import TaggedHeap.Proofs.Restart
import TaggedHeap.Proofs.Course
import TaggedHeap.Proofs.Rounding
import TaggedHeap.Proofs.Demand
import TaggedHeap.Proofs.Leakage
import TaggedHeap.Proofs.Exposure
import TaggedHeap.Proofs.Violations
import TaggedHeap.Proofs.Damage
import TaggedHeap.Proofs.Editing
import TaggedHeap.Proofs.Malformed
