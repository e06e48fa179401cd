/-
The affine expressions of the pass: a 64-bit constant and a list of terms,
each a symbol with a 64-bit coefficient.  Arithmetic on the coefficients
wraps, as `int64_t` arithmetic does on the targets the pass is built for.
-/
import Mathlib.Algebra.BigOperators.Group.List.Basic
import Mathlib.Algebra.Ring.Int.Defs
import Mathlib.Tactic.Ring
import Mathlib.Tactic.Linarith

namespace PolyhedralPass

/-- The identity of an `llvm::Value`.  The pass compares values by pointer. -/
abbrev Value := Nat

structure AffineTerm where
  symbol : Option Value := none
  coefficient : Int64 := 0
deriving DecidableEq

structure AffineExpr where
  constant : Int64 := 0
  terms : List AffineTerm := []
deriving DecidableEq

/-- The loop of `addTerm`: the first term of the symbol is updated in place,
and a symbol without a term gets a new one at the end. -/
def mergeTerm (symbol : Value) (coefficient : Int64) :
    List AffineTerm → List AffineTerm
  | [] => [⟨some symbol, coefficient⟩]
  | term :: rest =>
      if term.symbol = some symbol then
        { term with coefficient := term.coefficient + coefficient } :: rest
      else term :: mergeTerm symbol coefficient rest

def addTerm (expr : AffineExpr) (symbol : Option Value)
    (coefficient : Int64) : AffineExpr :=
  match symbol with
  | none => expr
  | some symbol =>
      if coefficient = 0 then expr
      else { expr with terms := mergeTerm symbol coefficient expr.terms }

def addExpr (lhs rhs : AffineExpr) : AffineExpr :=
  rhs.terms.foldl (fun result term => addTerm result term.symbol term.coefficient)
    { constant := lhs.constant + rhs.constant, terms := lhs.terms }

def mulExpr (expr : AffineExpr) (factor : Int64) : AffineExpr :=
  expr.terms.foldl
    (fun result term => addTerm result term.symbol (term.coefficient * factor))
    { constant := expr.constant * factor }

def makeUnknownExpr (value : Value) : AffineExpr :=
  addTerm {} (some value) 1

/-- An expression whose value is the given constant. -/
def AffineExpr.ofConstant (constant : Int64) : AffineExpr := { constant }

/-- The expressions that arise from constants and unknown values. -/
inductive AffineExpr.Built : AffineExpr → Prop
  | ofConstant (constant : Int64) : Built (.ofConstant constant)
  | makeUnknownExpr (value : Value) : Built (makeUnknownExpr value)
  | addTerm {expr : AffineExpr} (h : Built expr) (symbol : Option Value) (coefficient : Int64) :
      Built (addTerm expr symbol coefficient)
  | addExpr {lhs rhs : AffineExpr} (hl : Built lhs) (hr : Built rhs) : Built (addExpr lhs rhs)
  | mulExpr {expr : AffineExpr} (h : Built expr) (factor : Int64) : Built (mulExpr expr factor)

def exprMentionsSymbol (expr : AffineExpr) (symbol : Value) : Bool :=
  expr.terms.any fun term => term.symbol == some symbol && term.coefficient != 0

section Evaluation

variable (val : Value → Int)

/-- The value of one term over the integers. -/
def AffineTerm.eval (term : AffineTerm) : Int :=
  term.symbol.elim 0 fun symbol => term.coefficient.toInt * val symbol

/-- The value of the term list over the integers. -/
def evalTerms (terms : List AffineTerm) : Int :=
  (terms.map (AffineTerm.eval val)).sum

/-- The affine function an expression stands for, over the integers. -/
def AffineExpr.eval (expr : AffineExpr) : Int :=
  expr.constant.toInt + evalTerms val expr.terms

@[simp] theorem evalTerms_nil : evalTerms val [] = 0 := rfl

@[simp] theorem evalTerms_cons (term : AffineTerm) (rest : List AffineTerm) :
    evalTerms val (term :: rest) = term.eval val + evalTerms val rest := by
  simp [evalTerms]

@[simp] theorem AffineExpr.eval_ofConstant (constant : Int64) :
    (AffineExpr.ofConstant constant).eval val = constant.toInt := by
  simp [AffineExpr.eval, AffineExpr.ofConstant]

@[simp] theorem eval_makeUnknownExpr (value : Value) :
    (makeUnknownExpr value).eval val = val value := by
  simp [makeUnknownExpr, addTerm, mergeTerm, AffineExpr.eval, AffineTerm.eval]

end Evaluation

end PolyhedralPass
