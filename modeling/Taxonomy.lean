import Taxonomy.Main
import Taxonomy.Session.Basic
import Taxonomy.Proofs.Walk.BreadthFirst
import Taxonomy.Proofs.Hierarchy.Closure
import Taxonomy.Proofs.Hierarchy.WellFormed
import Taxonomy.Proofs.Hierarchy.Insertion
import Taxonomy.Proofs.Hierarchy.Removal
import Taxonomy.Proofs.Hierarchy.Replacement
import Taxonomy.Proofs.Hierarchy.Merging
import Taxonomy.Proofs.Hierarchy.Grown
import Taxonomy.Proofs.Hierarchy.Generation
import Taxonomy.Proofs.Hierarchy.EditedOrder
import Taxonomy.Proofs.Hierarchy.Bounds
import Taxonomy.Proofs.Representation.Rows
import Taxonomy.Proofs.Representation.Compiled
import Taxonomy.Proofs.Representation.Memo
import Taxonomy.Proofs.Representation.Agreement
import Taxonomy.Proofs.Hierarchy.Acyclic
import Taxonomy.Proofs.Hierarchy.Determinism
import Taxonomy.Proofs.Resolution.Order
import Taxonomy.Proofs.Resolution.Fold
import Taxonomy.Proofs.Resolution.Semilattice
import Taxonomy.Proofs.Hierarchy.Conflict
import Taxonomy.Proofs.Walk.Layers
import Taxonomy.Proofs.Resolution.PartialOrder
import Taxonomy.Proofs.Representation.Ambiguity
import Taxonomy.Proofs.Hierarchy.Comparison
import Taxonomy.Proofs.Hierarchy.RenamedOrder
import Taxonomy.Proofs.Hierarchy.Refusal
import Taxonomy.Proofs.Hierarchy.ReservedNames
import Taxonomy.Proofs.Walk.Levels
import Taxonomy.Proofs.Walk.Stratified
import Taxonomy.Proofs.Hierarchy.Region
import Taxonomy.Proofs.Hierarchy.Strata
import Taxonomy.Proofs.Representation.Recency
import Taxonomy.Proofs.Resolution.Hearing
import Taxonomy.Proofs.Resolution.Converse
import Taxonomy.Proofs.Session.Diagnostics
import Taxonomy.Proofs.Hierarchy.Marking
import Taxonomy.Proofs.Walk.Distance
import Taxonomy.Proofs.Hierarchy.Distance
import Taxonomy.Proofs.Hierarchy.Tracking
import Taxonomy.Proofs.Walk.Locality
import Taxonomy.Proofs.Hierarchy.Omission
import Taxonomy.Proofs.Resolution.Sorting
import Taxonomy.Proofs.Hierarchy.Halting
import Taxonomy.Proofs.Hierarchy.Sharing
import Taxonomy.Proofs.Resolution.Grading
import Taxonomy.Proofs.Resolution.LinearExtension
import Taxonomy.Proofs.Hierarchy.Cycles
import Taxonomy.Proofs.Hierarchy.Moving
import Taxonomy.Proofs.Hierarchy.MoreParents
import Taxonomy.Proofs.Hierarchy.UpperPart
import Taxonomy.Proofs.Resolution.Comparable
import Taxonomy.Proofs.Representation.Course
import Taxonomy.Proofs.Resolution.MemberFold
import Taxonomy.Proofs.Resolution.Neutral
import Taxonomy.Proofs.Hierarchy.Coverage
import Taxonomy.Proofs.Resolution.Hulls
import Taxonomy.Proofs.Resolution.Types
import Taxonomy.Proofs.Resolution.Warnings
import Taxonomy.Proofs.Hierarchy.Likeness
import Taxonomy.Proofs.Representation.Ascending
import Taxonomy.Proofs.Session.Ascending
