import TreePatch.Main
import TreePatch.Settings.Encode
import TreePatch.Proofs.Prelude
import TreePatch.Proofs.Forest
import TreePatch.Proofs.Numbering
import TreePatch.Proofs.Linked
import TreePatch.Proofs.Outline
import TreePatch.Proofs.Alignment
import TreePatch.Proofs.Matching
import TreePatch.Proofs.EditScript
import TreePatch.Proofs.Edit
import TreePatch.Proofs.Walks
import TreePatch.Proofs.Graft
import TreePatch.Proofs.Stepwise
import TreePatch.Proofs.Path
import TreePatch.Proofs.Correspondence
import TreePatch.Proofs.Order
import TreePatch.Proofs.Reconcile
import TreePatch.Proofs.Generate
import TreePatch.Proofs.Arrangement
import TreePatch.Proofs.Patching
import TreePatch.Proofs.Clearing
import TreePatch.Proofs.Placing
import TreePatch.Proofs.Linking
import TreePatch.Proofs.Thrown
import TreePatch.Proofs.Apply
import TreePatch.Proofs.Mirror
import TreePatch.Proofs.Likeness
import TreePatch.Proofs.Reconstruct
import TreePatch.Proofs.Converted
import TreePatch.Proofs.Assignment
import TreePatch.Proofs.SameForm
import TreePatch.Proofs.Addressing
import TreePatch.Proofs.Punctuation
import TreePatch.Proofs.RoundTrip
import TreePatch.Proofs.SiblingOrder
import TreePatch.Proofs.Closure
import TreePatch.Proofs.Plan
import TreePatch.Proofs.Changes
import TreePatch.Proofs.EditRuns
import TreePatch.Proofs.TopLevel
import TreePatch.Proofs.Origins
import TreePatch.Proofs.Parallel
import TreePatch.Proofs.Lockstep
import TreePatch.Proofs.Replay
import TreePatch.Proofs.Tokens
import TreePatch.Proofs.Printed
import TreePatch.Proofs.Reprint
import TreePatch.Proofs.Separators
import TreePatch.Proofs.Augmenting
import TreePatch.Proofs.GreatestWeight
import TreePatch.Proofs.MatchedPairs
import TreePatch.Proofs.Absorption
import TreePatch.Proofs.Rejection
import TreePatch.Proofs.Pruning
import TreePatch.Proofs.KeptRows
import TreePatch.Proofs.Conversion
import TreePatch.Proofs.BestAlignment
import TreePatch.Proofs.OperationSets
import TreePatch.Proofs.OrderedSiblings
import TreePatch.Proofs.FewestMoves
import TreePatch.Proofs.CommonLeaves
import TreePatch.Proofs.Tracking
import TreePatch.Proofs.Glyphs
import TreePatch.Proofs.Membership
