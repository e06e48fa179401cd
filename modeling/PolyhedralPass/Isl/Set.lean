/-
Integer sets and maps as isl reads them: a point is a named integer tuple, a
union set is a set of points and a union map a set of pairs of points.  The
reader first builds the syntax below; this module says what it denotes.
-/
import Mathlib.Data.Rel
import Mathlib.Data.List.Basic

namespace PolyhedralPass.Isl

/-- An affine expression over the positions of the tuples read so far
(`isl_pw_aff`).  `nan` has no value anywhere. -/
inductive Aff
  | cst (n : Int)
  | var (pos : Nat)
  | add (lhs rhs : Aff)
  | sub (lhs rhs : Aff)
  | scale (factor : Int) (expr : Aff)
  | nan
deriving DecidableEq

def Aff.eval (env : List Int) : Aff → Option Int
  | cst n => some n
  | var pos => env[pos]?
  | add lhs rhs => (lhs.eval env).bind fun a => (rhs.eval env).map fun b => a + b
  | sub lhs rhs => (lhs.eval env).bind fun a => (rhs.eval env).map fun b => a - b
  | scale factor expr => (expr.eval env).map fun a => factor * a
  | nan => none

inductive Comparator
  | lt | gt | le | ge | ne | eq
deriving DecidableEq

def Comparator.holds : Comparator → Int → Int → Prop
  | lt, a, b => a < b
  | gt, a, b => a > b
  | le, a, b => a ≤ b
  | ge, a, b => a ≥ b
  | ne, a, b => a ≠ b
  | eq, a, b => a = b

/-- The quantifier-free conditions of a set or map description. -/
inductive Formula
  | tt
  | ff
  | cmp (op : Comparator) (lhs rhs : Aff)
  | and (lhs rhs : Formula)
  | or (lhs rhs : Formula)
  | not (arg : Formula)
deriving DecidableEq

/-- A comparison holds where both sides have a value and the values compare. -/
def Formula.holds (env : List Int) : Formula → Prop
  | tt => True
  | ff => False
  | cmp op lhs rhs => ∃ a b, lhs.eval env = some a ∧ rhs.eval env = some b ∧ op.holds a b
  | and lhs rhs => lhs.holds env ∧ rhs.holds env
  | or lhs rhs => lhs.holds env ∨ rhs.holds env
  | not arg => ¬ arg.holds env

/-- A tuple: its name, and for each position the expression it is equated with,
`none` where the position introduces a new dimension. -/
structure Tuple where
  name : String
  elems : List (Option Aff)
deriving DecidableEq

/-- The equalities a tuple imposes on its positions, the first of which is
position `first` of the environment. -/
def Tuple.admits (tuple : Tuple) (first : Nat) (env : List Int) : Prop :=
  ∀ i expr, tuple.elems[i]? = some (some expr) → expr.eval env = env[first + i]?

inductive Body
  | set (tuple : Tuple) (cond : Formula)
  | map (dom ran : Tuple) (cond : Formula)
deriving DecidableEq

structure Point where
  name : String
  coords : List Int
deriving DecidableEq

abbrev UnionSet := Set Point

abbrev UnionMap := SetRel Point Point

def Tuple.space (tuple : Tuple) (point : Point) : Prop :=
  point.name = tuple.name ∧ point.coords.length = tuple.elems.length

def Body.toUnionSet : Body → UnionSet
  | set tuple cond => { point | tuple.space point ∧ tuple.admits 0 point.coords ∧
      cond.holds point.coords }
  | map _ _ _ => ∅

def Body.toUnionMap : Body → UnionMap
  | set _ _ => ∅
  | map dom ran cond => { pair | dom.space pair.1 ∧ ran.space pair.2 ∧
      dom.admits 0 pair.1.coords ∧
      ran.admits dom.elems.length (pair.1.coords ++ pair.2.coords) ∧
      cond.holds (pair.1.coords ++ pair.2.coords) }

/-- `isl_union_map_intersect_domain` -/
def intersectDomain (umap : UnionMap) (uset : UnionSet) : UnionMap :=
  { pair | pair ∈ umap ∧ pair.1 ∈ uset }

/-- `isl_union_map_apply_range` -/
abbrev applyRange (first second : UnionMap) : UnionMap := first.comp second

/-- `isl_union_map_reverse` -/
abbrev reverse (umap : UnionMap) : UnionMap := umap.inv

/-- `isl_union_map_intersect`: a `NULL` argument gives `NULL`. -/
def intersect (first second : Option UnionMap) : Option UnionMap :=
  first.bind fun a => second.map fun b => a ∩ b

@[simp] theorem intersect_none (first : Option UnionMap) : intersect first none = none := by
  cases first <;> rfl

/-- `isl_bool`: a predicate may fail. -/
inductive Bool3
  | error | false | true
deriving DecidableEq

/-- `!b` in the C++ of the pass: `isl_bool_error` is -1, so it counts as true. -/
def Bool3.not : Bool3 → Bool
  | error => Bool.false
  | false => Bool.true
  | true => Bool.false

open Classical in
/-- `isl_union_map_is_empty`, taken as exact on a map and as an error on `NULL`. -/
noncomputable def unionMapIsEmpty : Option UnionMap → Bool3
  | none => .error
  | some umap => if umap = ∅ then .true else .false

end PolyhedralPass.Isl
