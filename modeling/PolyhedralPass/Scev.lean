/-
Scalar evolutions: the expressions ScalarEvolution hands to the pass, the
values they stand for, and their translation into affine expressions.
-/
import PolyhedralPass.Affine
import Mathlib.Logic.Function.Basic

namespace PolyhedralPass

/-- The SCEV expressions.  An add-recurrence names its loop by the header
block; its step may be an add-recurrence of the same loop again. -/
inductive SCEV
  | constant (width : Nat) (bits : BitVec width)
  | add (ops : List SCEV)
  | mul (ops : List SCEV)
  | addRec (start step : SCEV) (loop : Nat)
  | trunc (width : Nat) (op : SCEV)
  | zext (width : Nat) (op : SCEV)
  | sext (width : Nat) (op : SCEV)
  | ptrToInt (width : Nat) (op : SCEV)
  | udiv (lhs rhs : SCEV)
  | smax (ops : List SCEV)
  | umax (ops : List SCEV)
  | smin (ops : List SCEV)
  | umin (ops : List SCEV)
  | unknown (value : Value) (width : Nat)
  | couldNotCompute

/-- `APInt::getSExtValue` -/
def getSExtValue {width : Nat} (bits : BitVec width) : Int64 := Int64.ofInt bits.toInt

theorem toInt_getSExtValue {width : Nat} (bits : BitVec width) :
    (getSExtValue bits).toInt = bits.toInt.bmod (2 ^ 64) := by
  rw [getSExtValue, Int64.toInt_ofInt]
  rfl

section Translation

-- `getCanonicalInductionVariable` of the loop of an add-recurrence.
variable (canonicalIV : Nat → Option Value)

mutual

def createExprFromSCEV : SCEV → AffineExpr
  | .constant _ bits => .ofConstant (getSExtValue bits)
  | .add ops => addOperands {} ops
  | .mul ops => mulOperands ops
  | .addRec start step loop =>
      match canonicalIV loop with
      | none => {}
      | some iv =>
          let start := createExprFromSCEV start
          let step := createExprFromSCEV step
          if step.terms.isEmpty then
            addExpr start (mulExpr (makeUnknownExpr iv) step.constant)
          else {}
  | .trunc _ op => createExprFromSCEV op
  | .zext _ op => createExprFromSCEV op
  | .sext _ op => createExprFromSCEV op
  | .ptrToInt _ op => createExprFromSCEV op
  | .unknown value _ => makeUnknownExpr value
  -- no case of the source takes these: the empty expression, a zero, is returned
  | .udiv _ _ => {}
  | .smax _ => {}
  | .umax _ => {}
  | .smin _ => {}
  | .umin _ => {}
  | .couldNotCompute => {}

/-- The loop over the operands of a sum. -/
def addOperands (expr : AffineExpr) : List SCEV → AffineExpr
  | [] => expr
  | op :: ops => addOperands (addExpr expr (createExprFromSCEV op)) ops

/-- The product case: two operands of which one is a constant. -/
def mulOperands : List SCEV → AffineExpr
  | [.constant _ bits, rhs] => mulExpr (createExprFromSCEV rhs) (getSExtValue bits)
  | [lhs, .constant _ bits] => mulExpr (createExprFromSCEV lhs) (getSExtValue bits)
  | _ => {}

end

mutual

/-- Whatever the expression, the translation builds its result with the operations on
affine expressions. -/
theorem createExprFromSCEV_built : ∀ scev : SCEV, (createExprFromSCEV canonicalIV scev).Built
  | .constant _ bits => by
      rw [createExprFromSCEV]
      exact .ofConstant _
  | .add ops => by
      rw [createExprFromSCEV]
      exact addOperands_built ops (.ofConstant 0)
  | .mul ops => by
      rw [createExprFromSCEV, mulOperands.eq_def]
      split
      · exact (createExprFromSCEV_built _).mulExpr _
      · exact (createExprFromSCEV_built _).mulExpr _
      · exact .ofConstant 0
  | .addRec start step loop => by
      rw [createExprFromSCEV]
      split
      · exact .ofConstant 0
      · simp only
        split_ifs
        · have hiv := AffineExpr.Built.makeUnknownExpr ‹Value›
          exact (createExprFromSCEV_built start).addExpr (hiv.mulExpr _)
        · exact .ofConstant 0
  | .trunc _ op => by
      rw [createExprFromSCEV]
      exact createExprFromSCEV_built op
  | .zext _ op => by
      rw [createExprFromSCEV]
      exact createExprFromSCEV_built op
  | .sext _ op => by
      rw [createExprFromSCEV]
      exact createExprFromSCEV_built op
  | .ptrToInt _ op => by
      rw [createExprFromSCEV]
      exact createExprFromSCEV_built op
  | .unknown value _ => by
      rw [createExprFromSCEV]
      exact .makeUnknownExpr value
  | .udiv _ _ => by rw [createExprFromSCEV]; exact .ofConstant 0
  | .smax _ => by rw [createExprFromSCEV]; exact .ofConstant 0
  | .umax _ => by rw [createExprFromSCEV]; exact .ofConstant 0
  | .smin _ => by rw [createExprFromSCEV]; exact .ofConstant 0
  | .umin _ => by rw [createExprFromSCEV]; exact .ofConstant 0
  | .couldNotCompute => by rw [createExprFromSCEV]; exact .ofConstant 0

theorem addOperands_built : ∀ (ops : List SCEV) {expr : AffineExpr}, expr.Built →
    (addOperands canonicalIV expr ops).Built
  | [], _, h => by
      rw [addOperands]
      exact h
  | op :: ops, _, h => by
      rw [addOperands]
      exact addOperands_built ops (h.addExpr (createExprFromSCEV_built op))

end

end Translation

namespace SCEV

mutual

/-- The bit width of the value of an expression. -/
def width : SCEV → Nat
  | constant width _ => width
  | add ops => widthOfOperands ops
  | mul ops => widthOfOperands ops
  | addRec start _ _ => start.width
  | trunc width _ => width
  | zext width _ => width
  | sext width _ => width
  | ptrToInt width _ => width
  | udiv lhs _ => lhs.width
  | smax ops => widthOfOperands ops
  | umax ops => widthOfOperands ops
  | smin ops => widthOfOperands ops
  | umin ops => widthOfOperands ops
  | unknown _ width => width
  | couldNotCompute => 0

def widthOfOperands : List SCEV → Nat
  | [] => 0
  | op :: _ => op.width

end

/-- The unsigned reading of a signed `width`-bit value. -/
def unsigned (width : Nat) (n : Int) : Int := n % 2 ^ width

/-- The signed reading of the low `width` bits. -/
def wrap (width : Nat) (n : Int) : Int := n.bmod (2 ^ width)

mutual

/-- The signed value of an expression, given the value of every IR value and
the number of the current iteration of every loop.  An add-recurrence has added
its step once for each earlier iteration. -/
def value (sym : Value → Int) (iter : Nat → Nat) : SCEV → Int
  | constant _ bits => bits.toInt
  | add ops => wrap (widthOfOperands ops) (values sym iter ops).sum
  | mul ops => wrap (widthOfOperands ops) (values sym iter ops).prod
  | addRec start step loop => wrap start.width (start.value sym iter +
      ((List.range (iter loop)).map fun k =>
        step.value sym (Function.update iter loop k)).sum)
  | trunc width op => wrap width (op.value sym iter)
  | zext width op => wrap width (unsigned op.width (op.value sym iter))
  | sext width op => wrap width (op.value sym iter)
  | ptrToInt width op => wrap width (op.value sym iter)
  | udiv lhs rhs => wrap lhs.width
      (unsigned lhs.width (lhs.value sym iter) / unsigned lhs.width (rhs.value sym iter))
  | smax ops => (values sym iter ops).max?.getD 0
  | umax ops => wrap (widthOfOperands ops)
      (((values sym iter ops).map (unsigned (widthOfOperands ops))).max?.getD 0)
  | smin ops => (values sym iter ops).min?.getD 0
  | umin ops => wrap (widthOfOperands ops)
      (((values sym iter ops).map (unsigned (widthOfOperands ops))).min?.getD 0)
  | unknown value width => wrap width (sym value)
  | couldNotCompute => 0

def values (sym : Value → Int) (iter : Nat → Nat) : List SCEV → List Int
  | [] => []
  | op :: ops => op.value sym iter :: values sym iter ops

end

end SCEV

example : (createExprFromSCEV (fun _ => some 7)
    (.add [.constant 32 3, .addRec (.constant 32 0) (.constant 32 2) 1])) =
    { constant := 3, terms := [⟨some 7, 2⟩] } := by decide

end PolyhedralPass
