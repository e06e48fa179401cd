/-
Phase 2 of the pass: the domain, access and order strings of a nest, the
dependence relation isl computes from them, and the legality test on it.
-/
import PolyhedralPass.Nest
import PolyhedralPass.Isl.Input

namespace PolyhedralPass

open Isl (UnionSet UnionMap)

/-- The characters of a name are bytes; `std::isalnum` is the test of the
C locale. -/
def sanitizeISLName (name : String) : String :=
  let clean := name.toList.map fun c => if c.isAlphanum then c else '_'
  match clean with
  | [] => "unknown"
  | c :: cs => if c.isDigit then "V_" ++ String.ofList (c :: cs) else String.ofList (c :: cs)

/-- `std::abs` on `int64_t`, which leaves the smallest value as it is. -/
def absCoeff (coefficient : Int64) : Int64 :=
  if coefficient < 0 then -coefficient else coefficient

/-- What `raw_ostream` prints for an `int64_t`. -/
def printInt64 (n : Int64) : String := toString n.toInt

section Strings

variable (F : Function)

/-- The sign and the blanks in front of a term. -/
def termSeparator (printed : Bool) (coefficient : Int64) : String :=
  if printed && coefficient > 0 then " + "
  else if printed && coefficient < 0 then " - "
  else if !printed && coefficient < 0 then "-"
  else ""

/-- A term without its sign. -/
def termBody (term : AffineTerm) : String :=
  let abs := absCoeff term.coefficient
  match term.symbol with
  | none => printInt64 abs
  | some symbol => (if abs ≠ 1 then printInt64 abs ++ "*" else "") ++
      sanitizeISLName (F.valueNameOrFallback (some symbol) "sym")

/-- The loop of `toISLString` over the terms. -/
def termStrings (printed : Bool) : List AffineTerm → String
  | [] => ""
  | term :: rest => termSeparator printed term.coefficient ++ termBody F term ++
      termStrings true rest

def toISLString (expr : AffineExpr) : String :=
  let printed := expr.constant ≠ 0 || expr.terms.isEmpty
  (if printed then printInt64 expr.constant else "") ++ termStrings F printed expr.terms

variable (nest : LoopNestDescriptor)

/-- The identifier of every loop of the nest. -/
def LoopNestDescriptor.identifiers : List String :=
  nest.loops.map fun loop => sanitizeISLName loop.inductionName

def buildISLTuple (suffix : String) : String :=
  "Stmt[" ++ ", ".intercalate (nest.identifiers.map (· ++ suffix)) ++ "]"

/-- `Lower <= IV < Upper` for one loop. -/
def domainConstraint (loop : LoopDescriptor) : String :=
  toISLString F loop.bounds.lower ++ " <= " ++ sanitizeISLName loop.inductionName ++ " < " ++
    toISLString F loop.bounds.upper

def domainStr : String :=
  "\x7b " ++ buildISLTuple nest "" ++ " : " ++
    " and ".intercalate (nest.loops.map (domainConstraint F)) ++ " \x7d"

/-- The text of one access: the statement and the array element it touches. -/
def mapElem (access : MemoryAccess) : String :=
  buildISLTuple nest "" ++ " -> " ++ sanitizeISLName access.baseName ++ "[" ++
    (if access.subscripts.isEmpty then "0"
      else ", ".intercalate (access.subscripts.map (toISLString F))) ++ "]"

/-- The union map string of the accesses of one kind. -/
def accessStr (kind : AccessKind) : String :=
  let accesses := nest.accesses.filter (·.accessKind == kind)
  if accesses.isEmpty then "\x7b\x7d"
  else "\x7b " ++ "; ".intercalate (accesses.map (mapElem F nest)) ++ " \x7d"

def readStr : String := accessStr F nest .load

def writeStr : String := accessStr F nest .store

/-- The equalities of the outer loops and the strict inequality of loop `i`. -/
def beforeClause (i : Nat) : String :=
  String.join ((nest.identifiers.take i).map fun iv => iv ++ " == " ++ iv ++ "_p and ") ++
    (nest.identifiers.getD i "" ++ " < " ++ nest.identifiers.getD i "" ++ "_p")

def beforeStr : String :=
  "\x7b " ++ buildISLTuple nest "" ++ " -> " ++ buildISLTuple nest "_p" ++ " : " ++
    String.join ((List.range nest.depth).map fun i =>
      (if i > 0 then " or (" else "") ++ beforeClause nest i) ++
    String.join (List.replicate (nest.depth - 1) ")") ++ " \x7d"

/-- The pairs of iterations that lie in violation of loop `k`. -/
def negativeDistStr (k : Nat) : String :=
  "\x7b " ++ buildISLTuple nest "" ++ " -> " ++ buildISLTuple nest "_p" ++ " : " ++
    nest.identifiers.getD k "" ++ "_p < " ++ nest.identifiers.getD k "" ++ " \x7d"

end Strings

/-- The relation of `getDependencies`; `none` is a null pointer.  `eqEq` says
whether the reader takes `==` for an equality, which that of the repository does
not. -/
def getDependencies (eqEq : Bool) (F : Function) (nest : LoopNestDescriptor) :
    Option UnionMap := do
  let domain ← Isl.unionSetReadFromStr eqEq (domainStr F nest)
  let reads ← Isl.unionMapReadFromStr eqEq (readStr F nest)
  let writes ← Isl.unionMapReadFromStr eqEq (writeStr F nest)
  let reads := Isl.intersectDomain reads domain
  let writes := Isl.intersectDomain writes domain
  let ww := Isl.applyRange writes (Isl.reverse writes)
  let wr := Isl.applyRange writes (Isl.reverse reads)
  let rw := Isl.applyRange reads (Isl.reverse writes)
  let conflicts := ww ∪ wr ∪ rw
  let before := Isl.unionMapReadFromStr eqEq (beforeStr nest)
  Isl.intersect (some conflicts) before

/-- The loop of `isTilingLegal`, one test for every dimension.  The result of
the emptiness test is negated as a C++ boolean. -/
noncomputable def isTilingLegal (eqEq : Bool) (nest : LoopNestDescriptor)
    (deps : Option UnionMap) : Bool :=
  if nest.depth < 2 || deps.isNone then false
  else (List.range nest.depth).all fun k =>
    let negativeDist := Isl.unionMapReadFromStr eqEq (negativeDistStr nest k)
    let violations := Isl.intersect deps negativeDist
    !(Isl.unionMapIsEmpty violations).not

end PolyhedralPass
