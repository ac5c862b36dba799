import Reconcile.Digest.Blake3
import Reconcile.Slice.Json
import Reconcile.Exchange
import Reconcile.Publish.Shape
import Reconcile.Publish.Sample
import Reconcile.Live.Directory
import Reconcile.Proofs.Ascending
import Reconcile.Proofs.Cbor.Delimited
import Reconcile.Proofs.Cbor.Confined
import Reconcile.Proofs.Digest.Order
import Reconcile.Proofs.Name.Order
import Reconcile.Proofs.Node.Written
import Reconcile.Proofs.Node.Decoding
import Reconcile.Proofs.Tree
import Reconcile.Proofs.Tree.Ordered
import Reconcile.Proofs.Cache.Genuine
import Reconcile.Proofs.Cache.Sifting
import Reconcile.Proofs.Cache.Course
import Reconcile.Proofs.Cache.Obscured
import Reconcile.Proofs.Cache.Budget
import Reconcile.Proofs.Cache.Overlap
import Reconcile.Proofs.Cache.Shown
import Reconcile.Proofs.Cache.Settled
import Reconcile.Proofs.Cache.Answers
import Reconcile.Proofs.Cache.Unspoilt
import Reconcile.Proofs.Traversal.Rest
import Reconcile.Proofs.Traversal.Merge
import Reconcile.Proofs.Traversal.Choice
import Reconcile.Proofs.Traversal.Outlook
import Reconcile.Proofs.Traversal.Plan
import Reconcile.Proofs.Traversal.Underway
import Reconcile.Proofs.Traversal.Track
import Reconcile.Proofs.Traversal.Refusal
import Reconcile.Proofs.Traversal.Vetting
import Reconcile.Proofs.Traversal.Reading
import Reconcile.Proofs.Traversal.Alone
import Reconcile.Proofs.Traversal.Load
import Reconcile.Proofs.Traversal.Descent
import Reconcile.Proofs.Traversal.Common
import Reconcile.Proofs.Reconciler.Ledger
import Reconcile.Proofs.Reconciler.Motion
import Reconcile.Proofs.Reconciler.Change
import Reconcile.Proofs.Reconciler.Orderly
import Reconcile.Proofs.Reconciler.Striding
import Reconcile.Proofs.Reconciler.Turnover
import Reconcile.Proofs.Reconciler.Stepping
import Reconcile.Proofs.Reconciler.Attending
import Reconcile.Proofs.Reconciler.Pacing
import Reconcile.Proofs.Reconciler.Regular
import Reconcile.Proofs.Reconciler.Tracking
import Reconcile.Proofs.Reconciler.Dealing
import Reconcile.Proofs.Reconciler.Surveying
import Reconcile.Proofs.Reconciler.Linking
import Reconcile.Proofs.Reconciler.Intake
import Reconcile.Proofs.Reconciler.Asking
import Reconcile.Proofs.Reconciler.Resting
import Reconcile.Proofs.History
import Reconcile.Proofs.History.Coverage
import Reconcile.Proofs.History.Repetition
import Reconcile.Proofs.History.Ascent
import Reconcile.Proofs.History.Course
import Reconcile.Proofs.History.SingleRound
import Reconcile.Proofs.History.Looseness
import Reconcile.Proofs.History.Laziness
import Reconcile.Proofs.History.Heeding
import Reconcile.Proofs.History.Growth
import Reconcile.Proofs.History.Stalling
import Reconcile.Proofs.History.Faultless
import Reconcile.Proofs.History.Abandonment
import Reconcile.Proofs.History.Acceptance
import Reconcile.Proofs.History.Awaiting
import Reconcile.Proofs.History.Descent
import Reconcile.Proofs.History.Ending
import Reconcile.Proofs.History.Selection
import Reconcile.Proofs.History.Suppression
import Reconcile.Proofs.Publish.Contents
import Reconcile.Proofs.Exchange.Crowd
import Reconcile.Proofs.Exchange.Rounds
import Reconcile.Proofs.Exchange.Locality
import Reconcile.Proofs.Exchange.Difference
import Reconcile.Proofs.Exchange.Survey
import Reconcile.Proofs.Exchange.Standstill
import Reconcile.Proofs.Row
import Reconcile.Proofs.Live.Quiet
import Reconcile.Proofs.Live.Nudges
import Reconcile.Proofs.Live.Deliveries
import Reconcile.Proofs.Live.Isolation
import Reconcile.Proofs.Slice.Identity
import Reconcile.Proofs.Slice.Routing
import Reconcile.Proofs.Name.Uri
import Reconcile.Proofs.Json.Records
