import ZXRewriting.GraphLike.Listing
import ZXRewriting.Main
import ZXRewriting.Proofs.Multigraph.Links
import ZXRewriting.Proofs.Multigraph.WellFormed
import ZXRewriting.Proofs.Multigraph.Refinement
import ZXRewriting.Proofs.BitMatrix.Elimination
import ZXRewriting.Proofs.BitMatrix.UnitSums
import ZXRewriting.Proofs.Diagram.Drawn
import ZXRewriting.Proofs.Extraction.Termination
import ZXRewriting.Proofs.GraphLike.Gadgets
import ZXRewriting.Proofs.GraphLike.Rules
import ZXRewriting.Proofs.Semantics.Spiders
import ZXRewriting.Proofs.Diagram.Colours
import ZXRewriting.Proofs.Diagram.PiCopy
import ZXRewriting.Proofs.Diagram.Rules
import ZXRewriting.Proofs.Diagram.Circuits
import ZXRewriting.Proofs.Clifford
import ZXRewriting.Proofs.GraphLike.Checks
import ZXRewriting.Proofs.Rewriting.Termination
import ZXRewriting.Proofs.GraphLike.Steps
import ZXRewriting.Proofs.GraphLike.Weight
import ZXRewriting.Proofs.GraphLike.Recorded
import ZXRewriting.Proofs.GraphLike.Relist
import ZXRewriting.Proofs.GraphLike.Boxes
import ZXRewriting.Proofs.GraphLike.Runs
import ZXRewriting.Proofs.GraphLike.Ending
import ZXRewriting.Proofs.Diagram.Threads
import ZXRewriting.Proofs.Floating.Integers
import ZXRewriting.Proofs.Diagram.Cells
import ZXRewriting.Proofs.Diagram.Stream
import ZXRewriting.Proofs.Diagram.Attempts
import ZXRewriting.Proofs.Diagram.ReadBack
import ZXRewriting.Proofs.Diagram.RoundTrip
import ZXRewriting.Proofs.Diagram.Pumping
import ZXRewriting.Proofs.Semantics.Reversible
import ZXRewriting.Proofs.Rewriting.Listing
import ZXRewriting.Proofs.Diagram.Kinds
import ZXRewriting.Proofs.Diagram.Sites
import ZXRewriting.Proofs.GraphLike.Kinds
import ZXRewriting.Proofs.GraphLike.Matches
import ZXRewriting.Proofs.GraphLike.Sites
import ZXRewriting.Proofs.GraphLike.Joining
import ZXRewriting.Proofs.GraphLike.Pruned
import ZXRewriting.Proofs.GraphLike.Settled
import ZXRewriting.Proofs.Diagram.Ledger
import ZXRewriting.Proofs.GraphLike.Traced
import ZXRewriting.Proofs.GraphLike.Tracing
import ZXRewriting.Proofs.TCount
import ZXRewriting.Proofs.Teleportation
import ZXRewriting.Proofs.Extraction.Flow
import ZXRewriting.Proofs.BitMatrix.Echelon
import ZXRewriting.Proofs.Diagram.Cancel
import ZXRewriting.Proofs.Extraction.Freeing
import ZXRewriting.Proofs.Phase.Turns
import ZXRewriting.Proofs.Phase.Rounding
import ZXRewriting.Proofs.Totality
import ZXRewriting.Proofs.Replay
import ZXRewriting.Proofs.Listings
import ZXRewriting.Proofs.GraphLike.Batches
import ZXRewriting.Proofs.Diagram.Recolouring
import ZXRewriting.Proofs.Diagram.Upkeep
import ZXRewriting.Proofs.Diagram.Faithful
import ZXRewriting.Proofs.GraphLike.AnyBoxes
