import TreeWalk.Estree.Array
import TreeWalk.Main
import TreeWalk.Script.Player
import TreeWalk.Value.Actions
import TreeWalk.Walk.Recorder
import TreeWalk.Proofs.Bracketing
import TreeWalk.Proofs.EarlyStop
import TreeWalk.Proofs.Children
import TreeWalk.Proofs.Descent
import TreeWalk.Proofs.Orders
import TreeWalk.Proofs.Splice
import TreeWalk.Proofs.Safety
import TreeWalk.Proofs.CallBound
import TreeWalk.Proofs.Signals
import TreeWalk.Proofs.Ancestors
import TreeWalk.Proofs.Graph
import TreeWalk.Proofs.Unfolding
import TreeWalk.Proofs.Searches
import TreeWalk.Proofs.Tracing
import TreeWalk.Proofs.Untouched
import TreeWalk.Proofs.Admission
import TreeWalk.Proofs.Verdicts
import TreeWalk.Proofs.Settled
import TreeWalk.Proofs.Positions
import TreeWalk.Proofs.Recasting
import TreeWalk.Proofs.Courses
import TreeWalk.Proofs.Scans
import TreeWalk.Proofs.Snapshots
import TreeWalk.Proofs.Addressing
import TreeWalk.Proofs.Skipping
import TreeWalk.Proofs.Records
import TreeWalk.Proofs.Itineraries
import TreeWalk.Proofs.Routes
import TreeWalk.Proofs.Subtrees
import TreeWalk.Proofs.Reports
import TreeWalk.Proofs.Prospects
import TreeWalk.Proofs.Forward
import TreeWalk.Proofs.ConsoleCalls
import TreeWalk.Proofs.Trimming
import TreeWalk.Proofs.Sweeping
import TreeWalk.Proofs.Stripping
import TreeWalk.Proofs.Returns
import TreeWalk.Proofs.Offsets
