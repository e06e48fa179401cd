/-
The affine expressions the pass can build, and the laws of the operations on them:
a symbol has one term at most, and sums and products are those of the integers modulo
two to the power of 64, whatever the order of the operands.
-/
import PolyhedralPass.Analysis
import PolyhedralPass.Forms
import Mathlib.Data.Int.ModEq

namespace PolyhedralPass

section Evaluation

variable (val : Value → Int)

theorem eval_bmod_modEq (form : LinearForm Value) :
    LinearForm.eval val (form.bmod (2 ^ 64)) ≡ LinearForm.eval val form [ZMOD 2 ^ 64] := by
  have hdvd := LinearForm.dvd_eval_sub_bmod (dvd_refl (2 ^ 64)) val form
  rw [map_sub] at hdvd
  exact Int.modEq_iff_dvd.mpr (by exact_mod_cast hdvd)

theorem eval_addTerm_modEq {expr : AffineExpr} (h : expr.OneTermEach) (symbol : Value)
    (coefficient : Int64) : (addTerm expr (some symbol) coefficient).eval val ≡
      expr.eval val + coefficient.toInt * val symbol [ZMOD 2 ^ 64] := by
  have hform := eval_bmod_modEq val (expr.form + coefficient.toInt • LinearForm.var symbol)
  rwa [← form_addTerm h, map_add, map_smul, smul_eq_mul, LinearForm.eval_var, eval_form,
    eval_form] at hform

theorem eval_addExpr_modEq {lhs rhs : AffineExpr} (hl : lhs.OneTermEach) (hr : rhs.OneTermEach) :
    (addExpr lhs rhs).eval val ≡ lhs.eval val + rhs.eval val [ZMOD 2 ^ 64] := by
  have hform := eval_bmod_modEq val (lhs.form + rhs.form)
  rwa [← form_addExpr hl hr, map_add, eval_form, eval_form, eval_form] at hform

theorem eval_mulExpr_modEq {expr : AffineExpr} (h : expr.OneTermEach) (factor : Int64) :
    (mulExpr expr factor).eval val ≡ factor.toInt * expr.eval val [ZMOD 2 ^ 64] := by
  have hform := eval_bmod_modEq val (factor.toInt • expr.form)
  rwa [← form_mulExpr h, map_smul, smul_eq_mul, eval_form, eval_form] at hform

end Evaluation

section Folds

theorem oneTermEach_foldl_addExpr (ops : List AffineExpr) {start : AffineExpr}
    (hstart : start.OneTermEach) : (ops.foldl addExpr start).OneTermEach := by
  induction ops generalizing start with
  | nil => exact hstart
  | cons op ops ih => exact ih (hstart.addExpr op)

/-- A folded sum has the sum of the linear forms. -/
theorem form_foldl_addExpr {ops : List AffineExpr} (hops : ∀ op ∈ ops, op.OneTermEach)
    {start : AffineExpr} (hstart : start.OneTermEach) : (ops.foldl addExpr start).form =
      (start.form + (ops.map AffineExpr.form).sum).bmod (2 ^ 64) := by
  induction ops generalizing start with
  | nil => rw [List.foldl_nil, List.map_nil, List.sum_nil, add_zero, hstart.form_bmod]
  | cons op ops ih =>
      have hop := hops op List.mem_cons_self
      have hrest := fun later hlater => hops later (List.mem_cons_of_mem op hlater)
      rw [List.foldl_cons, ih hrest (hstart.addExpr op), form_addExpr hstart hop,
        LinearForm.bmod_add_bmod, List.map_cons, List.sum_cons, add_assoc]

/-- The order of the operands of a sum does not matter. -/
theorem form_foldl_perm {ops ops' : List AffineExpr} (hops : ∀ op ∈ ops, op.OneTermEach)
    (hperm : ops.Perm ops') {start : AffineExpr} (hstart : start.OneTermEach) :
    (ops.foldl addExpr start).form = (ops'.foldl addExpr start).form := by
  have hops' : ∀ op ∈ ops', op.OneTermEach := fun op hop => hops op (hperm.mem_iff.mpr hop)
  rw [form_foldl_addExpr hops hstart, form_foldl_addExpr hops' hstart,
    (hperm.map AffineExpr.form).sum_eq]

theorem bmod_sum_mulExpr {ops : List AffineExpr} (hops : ∀ op ∈ ops, op.OneTermEach)
    (factor : Int64) (form : LinearForm Value) :
    (form + ((ops.map (mulExpr · factor)).map AffineExpr.form).sum).bmod (2 ^ 64) =
      (form + factor.toInt • (ops.map AffineExpr.form).sum).bmod (2 ^ 64) := by
  induction ops generalizing form with
  | nil => simp
  | cons op ops ih =>
      have hop := hops op List.mem_cons_self
      have hrest := fun later hlater => hops later (List.mem_cons_of_mem op hlater)
      simp only [List.map_cons, List.sum_cons, smul_add, ← add_assoc]
      rw [ih hrest, form_mulExpr hop, add_right_comm, LinearForm.add_bmod_bmod, add_right_comm]

/-- A sum may be multiplied before or behind the fold. -/
theorem form_mulExpr_foldl {ops : List AffineExpr} (hops : ∀ op ∈ ops, op.OneTermEach)
    {start : AffineExpr} (hstart : start.OneTermEach) (factor : Int64) :
    (mulExpr (ops.foldl addExpr start) factor).form =
      ((ops.map (mulExpr · factor)).foldl addExpr (mulExpr start factor)).form := by
  have hmul : ∀ op ∈ ops.map (mulExpr · factor), op.OneTermEach := by
    intro op hop
    obtain ⟨expr, _, rfl⟩ := List.mem_map.mp hop
    exact oneTermEach_mulExpr expr factor
  rw [form_mulExpr (oneTermEach_foldl_addExpr ops hstart), form_foldl_addExpr hops hstart,
    LinearForm.smul_bmod_bmod, smul_add, form_foldl_addExpr hmul (oneTermEach_mulExpr start factor),
    form_mulExpr hstart, LinearForm.bmod_add_bmod, bmod_sum_mulExpr hops]

theorem eval_eq_of_form_eq {first second : AffineExpr} (h : first.form = second.form)
    (val : Value → Int) : first.eval val = second.eval val := by
  rw [← eval_form, ← eval_form, h]

end Folds

/-- The laws of the affine expressions that the pass builds. -/
theorem affineAlgebra :
    (∀ expr : AffineExpr, expr.Built → expr.HasSymbols ∧ expr.OneTermEach) ∧
    (∀ (value : Value) (val : Value → Int), (makeUnknownExpr value).eval val = val value) ∧
    (∀ expr : AffineExpr, expr.Built → ∀ (symbol : Value) (coefficient : Int64)
      (val : Value → Int), (addTerm expr (some symbol) coefficient).eval val ≡
        expr.eval val + coefficient.toInt * val symbol [ZMOD 2 ^ 64]) ∧
    (∀ lhs rhs : AffineExpr, lhs.Built → rhs.Built → ∀ val : Value → Int,
      (addExpr lhs rhs).eval val ≡ lhs.eval val + rhs.eval val [ZMOD 2 ^ 64]) ∧
    (∀ expr : AffineExpr, expr.Built → ∀ (factor : Int64) (val : Value → Int),
      (mulExpr expr factor).eval val ≡ factor.toInt * expr.eval val [ZMOD 2 ^ 64]) ∧
    ∀ (start : AffineExpr) (ops ops' : List AffineExpr), start.Built →
      (∀ op ∈ ops, AffineExpr.Built op) → ops.Perm ops' → ∀ (factor : Int64) (val : Value → Int),
      (ops.foldl addExpr start).eval val = (ops'.foldl addExpr start).eval val ∧
      (mulExpr (ops.foldl addExpr start) factor).eval val =
        ((ops'.map (mulExpr · factor)).foldl addExpr (mulExpr start factor)).eval val := by
  refine ⟨fun expr h => ⟨h.hasSymbols, h.oneTermEach⟩, fun value val =>
    eval_makeUnknownExpr val value, ?_, ?_, ?_, ?_⟩
  · intro expr h symbol coefficient val
    exact eval_addTerm_modEq val h.oneTermEach symbol coefficient
  · intro lhs rhs hl hr val
    exact eval_addExpr_modEq val hl.oneTermEach hr.oneTermEach
  · intro expr h factor val
    exact eval_mulExpr_modEq val h.oneTermEach factor
  · intro start ops ops' hstart hops hperm factor val
    have honce : ∀ op ∈ ops, op.OneTermEach := fun op hop => (hops op hop).oneTermEach
    have honce' : ∀ op ∈ ops', op.OneTermEach := fun op hop => honce op (hperm.mem_iff.mpr hop)
    have hsame := form_foldl_perm honce hperm hstart.oneTermEach
    refine ⟨eval_eq_of_form_eq hsame val, eval_eq_of_form_eq ?_ val⟩
    rw [← form_mulExpr_foldl honce' hstart.oneTermEach,
      form_mulExpr (oneTermEach_foldl_addExpr ops hstart.oneTermEach),
      form_mulExpr (oneTermEach_foldl_addExpr ops' hstart.oneTermEach), hsame]

end PolyhedralPass
