import ShapeFlow.Text.Log
import ShapeFlow.Proofs.Combinations
import ShapeFlow.Proofs.Paths
import ShapeFlow.Proofs.Coverage
import ShapeFlow.Proofs.Termination
import ShapeFlow.Proofs.Semilattice
import ShapeFlow.Proofs.Translation
import ShapeFlow.Proofs.Statics
import ShapeFlow.Proofs.Accumulation
import ShapeFlow.Proofs.Orders
import ShapeFlow.Proofs.Idempotence
import ShapeFlow.Proofs.Lineage
import ShapeFlow.Proofs.Evidence
import ShapeFlow.Proofs.Marking
import ShapeFlow.Proofs.Shadowing
import ShapeFlow.Proofs.Bounds
import ShapeFlow.Proofs.Scoping
import ShapeFlow.Proofs.Expansion
import ShapeFlow.Proofs.Untracked
import ShapeFlow.Proofs.Numbering
import ShapeFlow.Proofs.Specificity
import ShapeFlow.Proofs.CallSites
import ShapeFlow.Proofs.Canonical
import ShapeFlow.Proofs.Flattening
import ShapeFlow.Proofs.Queueing
import ShapeFlow.Proofs.Elements
import ShapeFlow.Proofs.Variables
