import PolyhedralPass.Ir
import PolyhedralPass.Nest
import PolyhedralPass.Dependence
import PolyhedralPass.Reading.Tokens
import PolyhedralPass.Isl.Affine
import PolyhedralPass.Reading.Expr
import PolyhedralPass.Isl.Tuple
import PolyhedralPass.Isl.Formula
import PolyhedralPass.Isl.Object
import PolyhedralPass.Reading.Domain
import PolyhedralPass.Reading.Order
import PolyhedralPass.Reading.Access
import PolyhedralPass.Reading.Relation
import PolyhedralPass.Exactness
import PolyhedralPass.Reading.Values
import PolyhedralPass.Acceptance
import PolyhedralPass.Schedule.Interchange
import PolyhedralPass.Legality
import PolyhedralPass.Analysis
import PolyhedralPass.Coverage
import PolyhedralPass.Editor
import PolyhedralPass.Tiling
import PolyhedralPass.Visits
import PolyhedralPass.Nesting
import PolyhedralPass.Flow.Dominance
import PolyhedralPass.Aliasing
import PolyhedralPass.LinearForm
import PolyhedralPass.Addresses
import PolyhedralPass.Failures
import PolyhedralPass.Interchange
import PolyhedralPass.Pass
import PolyhedralPass.Rewiring
import PolyhedralPass.Phis
import PolyhedralPass.Swap
import PolyhedralPass.Placement
import PolyhedralPass.Blocking
import PolyhedralPass.Partition
import PolyhedralPass.Wrapping
import PolyhedralPass.Termination
import PolyhedralPass.Iterations
import PolyhedralPass.Revisit
import PolyhedralPass.Forms
import PolyhedralPass.Translation
import PolyhedralPass.Algebra
import PolyhedralPass.Choice
import PolyhedralPass.Printing
import PolyhedralPass.Collection
import PolyhedralPass.Agreement
import PolyhedralPass.Typing
import PolyhedralPass.TiledTypes
import PolyhedralPass.Rigid
import PolyhedralPass.Renaming
import PolyhedralPass.Course
import PolyhedralPass.Permutability
import PolyhedralPass.Ownership
import PolyhedralPass.Execution
import PolyhedralPass.Diagnostics
import PolyhedralPass.Surroundings
import PolyhedralPass.Isl.Scope
