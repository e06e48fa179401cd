/-
`createExprFromSCEV` against the values of the expressions it is called on.  An
expression has a linear form as far as the translation knows its kind; the result is
right where neither the type of the expression nor the 64 bits of a coefficient
overflow, no extension meets a negative number, and nothing else is left to translate.
-/
import PolyhedralPass.Acceptance
import PolyhedralPass.Addresses
import PolyhedralPass.Forms

namespace PolyhedralPass

section Form

variable (canonicalIV : Nat → Option Value)

/-- No symbol has two terms in a translated expression. -/
theorem oneTermEach_createExprFromSCEV (scev : SCEV) :
    (createExprFromSCEV canonicalIV scev).OneTermEach :=
  (createExprFromSCEV_built canonicalIV scev).oneTermEach

/-- The product is one of two factors, of which one is a constant. -/
def SCEV.twoFactors : List SCEV → Bool
  | [.constant _ _, _] => true
  | [_, .constant _ _] => true
  | _ => false

open scoped Classical in
mutual

/-- The linear form of an expression, with coefficients around zero modulo two to the
power of 64.  The kinds the translation does not know have the form zero. -/
noncomputable def SCEV.form : SCEV → LinearForm Value
  | .constant _ bits => (LinearForm.const bits.toInt).bmod (2 ^ 64)
  | .add ops => (SCEV.formSum ops).bmod (2 ^ 64)
  | .mul ops => (SCEV.formProduct ops).bmod (2 ^ 64)
  | .addRec start step loop =>
      match canonicalIV loop with
      | none => 0
      | some iv =>
          if ∀ symbol, ¬ SCEV.Names step symbol then
            (SCEV.form start + (SCEV.form step).1 • LinearForm.var iv).bmod (2 ^ 64)
          else 0
  | .trunc _ op => SCEV.form op
  | .zext _ op => SCEV.form op
  | .sext _ op => SCEV.form op
  | .ptrToInt _ op => SCEV.form op
  | .unknown value _ => LinearForm.var value
  | .udiv _ _ => 0
  | .smax _ => 0
  | .umax _ => 0
  | .smin _ => 0
  | .umin _ => 0
  | .couldNotCompute => 0

/-- The sum of the linear forms of some operands. -/
noncomputable def SCEV.formSum : List SCEV → LinearForm Value
  | [] => 0
  | op :: ops => SCEV.form op + SCEV.formSum ops

/-- A linear form times a constant. -/
noncomputable def SCEV.formProduct : List SCEV → LinearForm Value
  | [.constant _ bits, rhs] => bits.toInt • SCEV.form rhs
  | [lhs, .constant _ bits] => bits.toInt • SCEV.form lhs
  | _ => 0

/-- The symbols an expression is written with: those of its linear form, and those that
only the sum of some operands takes out of it. -/
noncomputable def SCEV.Names : SCEV → Value → Prop
  | .constant _ _, _ => False
  | .add ops, symbol => SCEV.SomeNames ops symbol
  | .mul ops, symbol => ((SCEV.formProduct ops).bmod (2 ^ 64)).2 symbol ≠ 0
  | .addRec start step loop, symbol =>
      match canonicalIV loop with
      | none => False
      | some iv => (∀ other, ¬ SCEV.Names step other) ∧
          (SCEV.Names start symbol ∨ symbol = iv ∧ (SCEV.form step).1 ≠ 0)
  | .trunc _ op, symbol => SCEV.Names op symbol
  | .zext _ op, symbol => SCEV.Names op symbol
  | .sext _ op, symbol => SCEV.Names op symbol
  | .ptrToInt _ op, symbol => SCEV.Names op symbol
  | .unknown value _, symbol => symbol = value
  | .udiv _ _, _ => False
  | .smax _, _ => False
  | .umax _, _ => False
  | .smin _, _ => False
  | .umin _, _ => False
  | .couldNotCompute, _ => False

noncomputable def SCEV.SomeNames : List SCEV → Value → Prop
  | [], _ => False
  | op :: ops, symbol => (SCEV.form op).2 symbol ≠ 0 ∨ SCEV.SomeNames ops symbol

end

theorem formProduct_eq_zero {ops : List SCEV} (h : ¬ SCEV.twoFactors ops = true) :
    SCEV.formProduct canonicalIV ops = 0 := by
  unfold SCEV.twoFactors at h
  split at h
  · exact absurd rfl h
  · exact absurd rfl h
  · rename_i hleft hright
    exact SCEV.formProduct.eq_3 canonicalIV ops hleft hright

mutual

/-- The translation computes the linear form. -/
theorem form_createExprFromSCEV : ∀ scev : SCEV,
    (createExprFromSCEV canonicalIV scev).form = SCEV.form canonicalIV scev
  | .constant _ bits => by
      rw [createExprFromSCEV, SCEV.form, form_ofConstant, toInt_getSExtValue,
        LinearForm.bmod_const]
  | .add ops => by
      have hsum := form_addOperands ops (oneTermEach_ofConstant 0)
      have hzero : (AffineExpr.ofConstant 0).form = 0 := rfl
      rw [hzero, zero_add] at hsum
      rw [createExprFromSCEV, SCEV.form]
      exact hsum
  | .mul ops => by
      rw [createExprFromSCEV, SCEV.form, form_mulOperands ops]
  | .addRec start step loop => by
      rw [createExprFromSCEV, SCEV.form]
      cases canonicalIV loop with
      | none => rfl
      | some iv =>
          have hempty := isEmpty_createExprFromSCEV step
          split_ifs with hnames
          · have hstep : (createExprFromSCEV canonicalIV step).constant.toInt =
                (SCEV.form canonicalIV step).1 := congrArg Prod.fst (form_createExprFromSCEV step)
            simp only [if_pos (hempty.mpr hnames)]
            rw [form_addExpr (oneTermEach_createExprFromSCEV canonicalIV start)
                (oneTermEach_mulExpr _ _), form_mulExpr (oneTermEach_makeUnknownExpr iv),
              LinearForm.add_bmod_bmod, form_makeUnknownExpr, form_createExprFromSCEV start, hstep]
          · simp only [if_neg (mt hempty.mp hnames)]
            rfl
  | .trunc _ op => by
      rw [createExprFromSCEV, SCEV.form, form_createExprFromSCEV op]
  | .zext _ op => by
      rw [createExprFromSCEV, SCEV.form, form_createExprFromSCEV op]
  | .sext _ op => by
      rw [createExprFromSCEV, SCEV.form, form_createExprFromSCEV op]
  | .ptrToInt _ op => by
      rw [createExprFromSCEV, SCEV.form, form_createExprFromSCEV op]
  | .unknown value _ => by
      rw [createExprFromSCEV, SCEV.form, form_makeUnknownExpr]
  | .udiv _ _ => by rw [createExprFromSCEV, SCEV.form]; rfl
  | .smax _ => by rw [createExprFromSCEV, SCEV.form]; rfl
  | .umax _ => by rw [createExprFromSCEV, SCEV.form]; rfl
  | .smin _ => by rw [createExprFromSCEV, SCEV.form]; rfl
  | .umin _ => by rw [createExprFromSCEV, SCEV.form]; rfl
  | .couldNotCompute => by rw [createExprFromSCEV, SCEV.form]; rfl

theorem form_addOperands : ∀ (ops : List SCEV) {expr : AffineExpr}, expr.OneTermEach →
    (addOperands canonicalIV expr ops).form =
      (expr.form + SCEV.formSum canonicalIV ops).bmod (2 ^ 64)
  | [], expr, h => by
      rw [addOperands, SCEV.formSum, add_zero, h.form_bmod]
  | op :: ops, expr, h => by
      have hop := oneTermEach_createExprFromSCEV canonicalIV op
      rw [addOperands, SCEV.formSum, form_addOperands ops (h.addExpr _), form_addExpr h hop,
        LinearForm.bmod_add_bmod, form_createExprFromSCEV op, add_assoc]

theorem form_mulOperands : ∀ ops : List SCEV,
    (mulOperands canonicalIV ops).form = (SCEV.formProduct canonicalIV ops).bmod (2 ^ 64) := by
  intro ops
  rw [mulOperands.eq_def]
  split
  · rename_i bits rhs
    rw [SCEV.formProduct, form_mulExpr (oneTermEach_createExprFromSCEV canonicalIV rhs),
      toInt_getSExtValue, LinearForm.bmod_smul_bmod, form_createExprFromSCEV rhs]
  · rename_i lhs width bits hlhs
    rw [SCEV.formProduct.eq_2 canonicalIV lhs width bits hlhs,
      form_mulExpr (oneTermEach_createExprFromSCEV canonicalIV lhs), toInt_getSExtValue,
      LinearForm.bmod_smul_bmod, form_createExprFromSCEV lhs]
  · rename_i hleft hright
    rw [SCEV.formProduct.eq_3 canonicalIV ops hleft hright, LinearForm.bmod_zero]
    rfl

/-- The terms of a translated expression are of the symbols it is written with. -/
theorem names_createExprFromSCEV : ∀ (scev : SCEV) (symbol : Value),
    some symbol ∈ (createExprFromSCEV canonicalIV scev).terms.map AffineTerm.symbol ↔
      SCEV.Names canonicalIV scev symbol
  | .constant _ _, _ => by
      rw [createExprFromSCEV, SCEV.Names]
      exact iff_of_false List.not_mem_nil id
  | .add ops, symbol => by
      rw [createExprFromSCEV, SCEV.Names, names_addOperands ops]
      exact or_iff_right List.not_mem_nil
  | .mul ops, symbol => by
      rw [createExprFromSCEV, SCEV.Names, ← form_mulOperands ops, mulOperands.eq_def]
      split
      · exact mem_symbols_mulExpr (oneTermEach_createExprFromSCEV canonicalIV _)
          (createExprFromSCEV_hasSymbols canonicalIV _)
      · exact mem_symbols_mulExpr (oneTermEach_createExprFromSCEV canonicalIV _)
          (createExprFromSCEV_hasSymbols canonicalIV _)
      · exact iff_of_false List.not_mem_nil fun h => h rfl
  | .addRec start step loop, symbol => by
      rw [createExprFromSCEV, SCEV.Names]
      cases canonicalIV loop with
      | none => exact iff_of_false List.not_mem_nil id
      | some iv =>
          have hempty := isEmpty_createExprFromSCEV step
          by_cases hnames : ∀ other, ¬ SCEV.Names canonicalIV step other
          · have hstep : (createExprFromSCEV canonicalIV step).constant.toInt =
                (SCEV.form canonicalIV step).1 := congrArg Prod.fst (form_createExprFromSCEV step)
            simp only [if_pos (hempty.mpr hnames)]
            rw [mem_symbols_addExpr (oneTermEach_mulExpr _ _)
              (AffineExpr.Built.hasSymbols (.mulExpr (.makeUnknownExpr iv) _)),
              names_createExprFromSCEV start, mulExpr_makeUnknownExpr_apply, hstep]
            exact (and_iff_right hnames).symm
          · simp only [if_neg (mt hempty.mp hnames)]
            exact iff_of_false List.not_mem_nil fun h => hnames h.1
  | .trunc _ op, symbol => by
      rw [createExprFromSCEV, SCEV.Names, names_createExprFromSCEV op]
  | .zext _ op, symbol => by
      rw [createExprFromSCEV, SCEV.Names, names_createExprFromSCEV op]
  | .sext _ op, symbol => by
      rw [createExprFromSCEV, SCEV.Names, names_createExprFromSCEV op]
  | .ptrToInt _ op, symbol => by
      rw [createExprFromSCEV, SCEV.Names, names_createExprFromSCEV op]
  | .unknown value _, symbol => by
      rw [createExprFromSCEV, SCEV.Names]
      simp [makeUnknownExpr, addTerm, mergeTerm]
  | .udiv _ _, _ => by
      rw [createExprFromSCEV, SCEV.Names]
      exact iff_of_false List.not_mem_nil id
  | .smax _, _ => by
      rw [createExprFromSCEV, SCEV.Names]
      exact iff_of_false List.not_mem_nil id
  | .umax _, _ => by
      rw [createExprFromSCEV, SCEV.Names]
      exact iff_of_false List.not_mem_nil id
  | .smin _, _ => by
      rw [createExprFromSCEV, SCEV.Names]
      exact iff_of_false List.not_mem_nil id
  | .umin _, _ => by
      rw [createExprFromSCEV, SCEV.Names]
      exact iff_of_false List.not_mem_nil id
  | .couldNotCompute, _ => by
      rw [createExprFromSCEV, SCEV.Names]
      exact iff_of_false List.not_mem_nil id

theorem names_addOperands : ∀ (ops : List SCEV) {expr : AffineExpr} {symbol : Value},
    some symbol ∈ (addOperands canonicalIV expr ops).terms.map AffineTerm.symbol ↔
      some symbol ∈ expr.terms.map AffineTerm.symbol ∨ SCEV.SomeNames canonicalIV ops symbol
  | [], expr, symbol => by
      rw [addOperands, SCEV.SomeNames, or_false]
  | op :: ops, expr, symbol => by
      rw [addOperands, SCEV.SomeNames, names_addOperands ops,
        mem_symbols_addExpr (oneTermEach_createExprFromSCEV canonicalIV op)
          (createExprFromSCEV_hasSymbols canonicalIV op), form_createExprFromSCEV op, or_assoc]

/-- An expression without symbols has no terms. -/
theorem isEmpty_createExprFromSCEV (scev : SCEV) :
    (createExprFromSCEV canonicalIV scev).terms.isEmpty = true ↔
      ∀ symbol, ¬ SCEV.Names canonicalIV scev symbol := by
  have hsymbols := createExprFromSCEV_hasSymbols canonicalIV scev
  simp only [← names_createExprFromSCEV scev]
  constructor
  · intro hempty symbol
    rw [List.isEmpty_iff.mp hempty]
    exact List.not_mem_nil
  · intro hnone
    rw [List.isEmpty_iff, List.eq_nil_iff_forall_not_mem]
    intro term hterm
    obtain ⟨symbol, hsymbol⟩ := Option.ne_none_iff_exists'.mp (hsymbols term hterm)
    exact hnone symbol (hsymbol ▸ List.mem_map_of_mem hterm)

end

end Form

section Words

theorem dvd_two_pow_self_sub_wrap (w : Nat) (n : Int) : (2 ^ w : Int) ∣ n - SCEV.wrap w n := by
  have hdvd : ((2 ^ w : Nat) : Int) ∣ n - n.bmod (2 ^ w) := Int.dvd_self_sub_bmod
  rwa [Nat.cast_pow] at hdvd

theorem wrap_eq_wrap_iff {w : Nat} {a b : Int} :
    SCEV.wrap w a = SCEV.wrap w b ↔ (2 ^ w : Int) ∣ a - b := by
  rw [SCEV.wrap, SCEV.wrap, Int.bmod_eq_bmod_iff_bmod_sub_eq_zero, ← Int.dvd_iff_bmod_eq_zero,
    Nat.cast_pow]
  rfl

theorem wrap_wrap (w : Nat) (n : Int) : SCEV.wrap w (SCEV.wrap w n) = SCEV.wrap w n := Int.bmod_bmod

/-- A number is the signed reading of another one if it has as many bits and the low
bits are the same. -/
theorem eq_wrap_iff {w : Nat} {a b : Int} :
    a = SCEV.wrap w b ↔ SCEV.wrap w a = a ∧ (2 ^ w : Int) ∣ b - a := by
  constructor
  · rintro rfl
    exact ⟨wrap_wrap w b, dvd_two_pow_self_sub_wrap w b⟩
  · rintro ⟨hfits, hdvd⟩
    rw [wrap_eq_wrap_iff.mpr hdvd, hfits]

theorem wrap_eq_self_iff {w : Nat} (hw : 0 < w) {n : Int} :
    SCEV.wrap w n = n ↔ -2 ^ (w - 1) ≤ n ∧ n < 2 ^ (w - 1) := by
  have htwice : ((2 ^ w : Nat) : Int) = 2 * 2 ^ (w - 1) := by
    rw [Nat.cast_pow, Nat.cast_ofNat, mul_comm, ← pow_succ, Nat.sub_add_cancel hw]
  constructor
  · intro h
    have hle : -((2 ^ w : Nat) : Int) ≤ 2 * n := by
      have hlow := Int.le_bmod (x := n) (m := 2 ^ w) (Nat.two_pow_pos w)
      rw [SCEV.wrap] at h
      omega
    have hlt : 2 * n < ((2 ^ w : Nat) : Int) := by
      have hhigh := Int.bmod_lt (x := n) (m := 2 ^ w) (Nat.two_pow_pos w)
      rw [SCEV.wrap] at h
      omega
    omega
  · rintro ⟨hle, hlt⟩
    exact Int.bmod_eq_of_le_mul_two (by omega) (by omega)

/-- A wider type takes a number as it is. -/
theorem wrap_of_le {a b : Nat} (ha : 0 < a) (h : a ≤ b) {n : Int} (hn : SCEV.wrap a n = n) :
    SCEV.wrap b n = n := by
  rw [wrap_eq_self_iff ha] at hn
  rw [wrap_eq_self_iff (ha.trans_le h)]
  have hpow : (2 : Int) ^ (a - 1) ≤ 2 ^ (b - 1) :=
    pow_le_pow_right₀ (by decide) (Nat.sub_le_sub_right h 1)
  omega

/-- A zero extension is the number itself where this is not negative. -/
theorem wrap_unsigned_eq_iff {a b : Nat} (ha : 0 < a) (h : a < b) {n : Int}
    (hn : SCEV.wrap a n = n) : n = SCEV.wrap b (SCEV.unsigned a n) ↔ 0 ≤ n := by
  rw [wrap_eq_self_iff ha] at hn
  have hpow : (2 : Int) ^ a ≤ 2 ^ (b - 1) :=
    pow_le_pow_right₀ (by decide) (Nat.le_sub_one_of_lt h)
  have hdouble : (2 : Int) ^ a = 2 * 2 ^ (a - 1) := by
    rw [mul_comm, ← pow_succ, Nat.sub_add_cancel ha]
  have hnonneg : 0 ≤ SCEV.unsigned a n := Int.emod_nonneg n (by positivity)
  have hlt : SCEV.unsigned a n < 2 ^ a := Int.emod_lt_of_pos n (by positivity)
  have hfits : SCEV.wrap b (SCEV.unsigned a n) = SCEV.unsigned a n :=
    (wrap_eq_self_iff (ha.trans h)).mpr ⟨by omega, by omega⟩
  rw [hfits]
  constructor
  · intro heq
    rwa [heq]
  · intro hn0
    exact (Int.emod_eq_of_lt hn0 (by omega)).symm

end Words

section Valuations

variable (F : Function) (SE : ScalarEvolution)

/-- The canonical induction variable of the loop of an add-recurrence. -/
def ScalarEvolution.canonicalIV (loop : Nat) : Option Value :=
  (SE.loopOf loop).bind fun L => L.canonicalInductionVariable F

/-- The value of a symbol, given those of the unknown values and the iterations. -/
def ScalarEvolution.symbolValue (sym : Value → Int) (iter : Nat → Nat) (symbol : Value) : Int :=
  (SE.getSCEV symbol).value sym iter

/-- A value that a term of a translated expression may have for its symbol. -/
def ScalarEvolution.IsSymbol (symbol : Value) : Prop :=
  (∃ width, 0 < width ∧ SE.getSCEV symbol = .unknown symbol width) ∨
    ∃ loop, SE.canonicalIV F loop = some symbol

/-- Canonical induction variables count the iterations of their loops. -/
def ScalarEvolution.Counts : Prop :=
  ∀ loop iv, SE.canonicalIV F loop = some iv → ∃ width, 0 < width ∧
    SE.getSCEV iv = .addRec (.constant width 0) (.constant width 1) loop

/-- The least value of the type of a symbol. -/
def ScalarEvolution.lowest (symbol : Value) : Int := -2 ^ ((SE.getSCEV symbol).width - 1)

def ScalarEvolution.highest (symbol : Value) : Int := 2 ^ ((SE.getSCEV symbol).width - 1) - 1

/-- All values of a linear form are numbers of the given width. -/
def ScalarEvolution.Within (width : Nat) (form : LinearForm Value) : Prop :=
  -2 ^ (width - 1) ≤ form.inf SE.lowest SE.highest ∧
    form.sup SE.lowest SE.highest < 2 ^ (width - 1)

/-- With coefficients of 64 bits, a linear form has values of the given width, which
are the same as before up to the width. -/
def ScalarEvolution.Represents (width : Nat) (form : LinearForm Value) : Prop :=
  SE.Within width (form.bmod (2 ^ 64)) ∧ 2 ^ width ∣ (form - form.bmod (2 ^ 64)).1 ∧
    ∀ symbol, 2 ^ width ∣ (form - form.bmod (2 ^ 64)).2 symbol

variable {F SE}

theorem value_counter {width loop : Nat} (sym : Value → Int) (iter : Nat → Nat) :
    (SCEV.addRec (.constant width 0) (.constant width 1) loop).value sym iter =
      SCEV.wrap width (iter loop) := by
  have hone : (2 ^ width : Int) ∣ (1 : BitVec width).toInt - 1 := by
    have hbits := BitVec.toInt_ofInt (n := width) (i := 1)
    have hsame : (BitVec.ofInt width 1) = 1 := rfl
    rw [hsame] at hbits
    rw [hbits, ← dvd_neg, neg_sub]
    exact dvd_two_pow_self_sub_wrap width 1
  rw [SCEV.value, SCEV.value, SCEV.width, wrap_eq_wrap_iff]
  have hsum : ((List.range (iter loop)).map fun k =>
      (SCEV.constant width 1).value sym (Function.update iter loop k)).sum =
      iter loop * (1 : BitVec width).toInt := by
    simp [SCEV.value]
  have hzero : (0 : BitVec width).toInt = 0 := BitVec.toInt_zero
  rw [hsum, hzero, zero_add, ← mul_sub_one]
  exact dvd_mul_of_dvd_right hone _

theorem symbolValue_counter {loop : Nat} {iv : Value} (hcounts : SE.Counts F)
    (hiv : SE.canonicalIV F loop = some iv) (sym : Value → Int) (iter : Nat → Nat) :
    SE.symbolValue sym iter iv = SCEV.wrap (SE.getSCEV iv).width (iter loop) := by
  obtain ⟨width, _, hscev⟩ := hcounts loop iv hiv
  rw [ScalarEvolution.symbolValue, hscev, value_counter, SCEV.width, SCEV.width]

theorem ScalarEvolution.IsSymbol.width_pos {symbol : Value} (hcounts : SE.Counts F)
    (h : SE.IsSymbol F symbol) : 0 < (SE.getSCEV symbol).width := by
  rcases h with ⟨width, hwidth, hscev⟩ | ⟨loop, hloop⟩
  · rwa [hscev, SCEV.width]
  · obtain ⟨width, hwidth, hscev⟩ := hcounts loop symbol hloop
    rwa [hscev, SCEV.width, SCEV.width]

/-- Symbols have values of their types. -/
theorem wrap_symbolValue {symbol : Value} (hcounts : SE.Counts F) (h : SE.IsSymbol F symbol)
    (sym : Value → Int) (iter : Nat → Nat) :
    SCEV.wrap (SE.getSCEV symbol).width (SE.symbolValue sym iter symbol) =
      SE.symbolValue sym iter symbol := by
  rcases h with ⟨width, _, hscev⟩ | ⟨loop, hloop⟩
  · rw [ScalarEvolution.symbolValue, hscev, SCEV.width, SCEV.value, wrap_wrap]
  · rw [symbolValue_counter hcounts hloop, wrap_wrap]

/-- Any values of their types are the values of the symbols somewhere. -/
theorem exists_symbolValue (hcounts : SE.Counts F) {m : Value → Int}
    (hbox : ∀ v, SE.lowest v ≤ m v ∧ m v ≤ SE.highest v) :
    ∃ sym iter, ∀ v, SE.IsSymbol F v → SE.symbolValue sym iter v = m v := by
  have hfits : ∀ v, SE.IsSymbol F v → SCEV.wrap (SE.getSCEV v).width (m v) = m v := by
    intro v hv
    obtain ⟨hlow, hhigh⟩ := hbox v
    rw [ScalarEvolution.lowest] at hlow
    rw [ScalarEvolution.highest] at hhigh
    exact (wrap_eq_self_iff (hv.width_pos hcounts)).mpr ⟨hlow, by omega⟩
  let iter := fun loop => match SE.canonicalIV F loop with
    | none => 0
    | some iv => (SCEV.unsigned (SE.getSCEV iv).width (m iv)).toNat
  refine ⟨m, iter, fun v hv => ?_⟩
  rcases hv with ⟨width, hwidth, hscev⟩ | ⟨loop, hloop⟩
  · have hv := hfits v (.inl ⟨width, hwidth, hscev⟩)
    rw [hscev, SCEV.width] at hv
    rw [ScalarEvolution.symbolValue, hscev, SCEV.value, hv]
  · have hiter : ((iter loop : Nat) : Int) = SCEV.unsigned (SE.getSCEV v).width (m v) := by
      have hnonneg : 0 ≤ SCEV.unsigned (SE.getSCEV v).width (m v) :=
        Int.emod_nonneg _ (by positivity)
      simp only [iter, hloop]
      exact Int.toNat_of_nonneg hnonneg
    rw [symbolValue_counter hcounts hloop, hiter, ← hfits v (.inr ⟨loop, hloop⟩), wrap_eq_wrap_iff,
      hfits v (.inr ⟨loop, hloop⟩), SCEV.unsigned]
    rw [← dvd_neg, neg_sub]
    exact Int.dvd_self_sub_emod

theorem symbolValue_mem_box (hcounts : SE.Counts F) {symbol : Value} (h : SE.IsSymbol F symbol)
    (sym : Value → Int) (iter : Nat → Nat) : SE.lowest symbol ≤ SE.symbolValue sym iter symbol ∧
      SE.symbolValue sym iter symbol ≤ SE.highest symbol := by
  obtain ⟨hlow, hhigh⟩ :=
    (wrap_eq_self_iff (h.width_pos hcounts)).mp (wrap_symbolValue hcounts h sym iter)
  exact ⟨hlow, Int.le_sub_one_of_lt hhigh⟩

theorem lowest_le_neg_one (SE : ScalarEvolution) (v : Value) : SE.lowest v ≤ -1 :=
  neg_le_neg (one_le_pow₀ (by decide))

theorem highest_nonneg (SE : ScalarEvolution) (v : Value) : 0 ≤ SE.highest v :=
  Int.sub_nonneg_of_le (one_le_pow₀ (by decide))

theorem lowest_le_highest (SE : ScalarEvolution) (v : Value) : SE.lowest v ≤ SE.highest v :=
  (lowest_le_neg_one SE v).trans ((by decide : (-1 : Int) ≤ 0).trans (highest_nonneg SE v))

/-- The linear form is one of symbols. -/
def SymbolsOnly (F : Function) (SE : ScalarEvolution) (form : LinearForm Value) : Prop :=
  ∀ v ∈ form.2.support, SE.IsSymbol F v

/-- What holds of all values of a linear form holds of its values on the box of the types. -/
theorem forall_symbolValue_iff (hcounts : SE.Counts F) {form : LinearForm Value}
    (hform : SymbolsOnly F SE form) (P : Int → Prop) :
    (∀ sym iter, P (LinearForm.eval (SE.symbolValue sym iter) form)) ↔
      ∀ m, (∀ v, SE.lowest v ≤ m v ∧ m v ≤ SE.highest v) → P (LinearForm.eval m form) := by
  classical
  constructor
  · intro h m hbox
    obtain ⟨sym, iter, hvalues⟩ := exists_symbolValue hcounts hbox
    rw [← LinearForm.eval_congr fun v hv => hvalues v (hform v hv)]
    exact h sym iter
  · intro h sym iter
    let m := fun v => if SE.IsSymbol F v then SE.symbolValue sym iter v else 0
    have hsame : ∀ v ∈ form.2.support, m v = SE.symbolValue sym iter v :=
      fun v hv => if_pos (hform v hv)
    rw [← LinearForm.eval_congr hsame]
    refine h m fun v => ?_
    by_cases hv : SE.IsSymbol F v
    · simp only [m, if_pos hv]
      exact symbolValue_mem_box hcounts hv sym iter
    · simp only [m, if_neg hv]
      exact ⟨(lowest_le_neg_one SE v).trans (by decide), highest_nonneg SE v⟩

theorem within_iff (hcounts : SE.Counts F) {form : LinearForm Value}
    (hform : SymbolsOnly F SE form) {width : Nat} (hwidth : 0 < width) :
    (∀ sym iter, SCEV.wrap width (LinearForm.eval (SE.symbolValue sym iter) form) =
      LinearForm.eval (SE.symbolValue sym iter) form) ↔ SE.Within width form := by
  have hle := lowest_le_highest SE
  rw [forall_symbolValue_iff hcounts hform fun n => SCEV.wrap width n = n]
  simp only [wrap_eq_self_iff hwidth]
  rw [ScalarEvolution.Within, ← LinearForm.forall_le_eval_iff hle, ← Int.le_sub_one_iff,
    ← LinearForm.forall_eval_le_iff hle]
  simp only [Int.le_sub_one_iff, ← forall_and]

theorem nonneg_iff (hcounts : SE.Counts F) {form : LinearForm Value}
    (hform : SymbolsOnly F SE form) :
    (∀ sym iter, 0 ≤ LinearForm.eval (SE.symbolValue sym iter) form) ↔
      0 ≤ form.inf SE.lowest SE.highest := by
  rw [forall_symbolValue_iff hcounts hform fun n => 0 ≤ n]
  exact LinearForm.forall_le_eval_iff (lowest_le_highest SE)

theorem SymbolsOnly.of_subset {form form' : LinearForm Value} (h : SymbolsOnly F SE form)
    (hsub : form'.2.support ⊆ form.2.support) : SymbolsOnly F SE form' :=
  fun v hv => h v (hsub hv)

theorem symbolsOnly_zero : SymbolsOnly F SE 0 := fun v hv => absurd hv (Finset.notMem_empty v)

theorem symbolsOnly_var {v : Value} (h : SE.IsSymbol F v) :
    SymbolsOnly F SE (LinearForm.var v) := by
  classical
  intro v' hv'
  obtain rfl := Finset.mem_singleton.mp (Finsupp.support_single_subset hv')
  exact h

theorem SymbolsOnly.bmod {form : LinearForm Value} (h : SymbolsOnly F SE form) (n : Nat) :
    SymbolsOnly F SE (form.bmod n) := h.of_subset (LinearForm.support_bmod_subset n form)

theorem SymbolsOnly.add {form form' : LinearForm Value} (h : SymbolsOnly F SE form)
    (h' : SymbolsOnly F SE form') : SymbolsOnly F SE (form + form') := by
  classical
  intro v hv
  rcases Finset.mem_union.mp (Finsupp.support_add hv) with hv | hv
  · exact h v hv
  · exact h' v hv

theorem SymbolsOnly.smul {form : LinearForm Value} (h : SymbolsOnly F SE form) (c : Int) :
    SymbolsOnly F SE (c • form) := h.of_subset Finsupp.support_smul

/-- A symbol is a number of its own type. -/
theorem represents_var {symbol : Value} {width : Nat}
    (hwidth : (SE.getSCEV symbol).width ≤ width) : SE.Represents width (LinearForm.var symbol) := by
  have hbmod : (LinearForm.var symbol).bmod (2 ^ 64) = LinearForm.var symbol :=
    LinearForm.bmod_var (by decide) symbol
  have hpow : (2 : Int) ^ ((SE.getSCEV symbol).width - 1) ≤ 2 ^ (width - 1) :=
    pow_le_pow_right₀ (by decide) (Nat.sub_le_sub_right hwidth 1)
  have hle := lowest_le_highest SE symbol
  rw [ScalarEvolution.Represents, ScalarEvolution.Within, hbmod, sub_self, LinearForm.inf_var hle,
    LinearForm.sup_var hle, ScalarEvolution.lowest, ScalarEvolution.highest]
  exact ⟨⟨neg_le_neg hpow, by omega⟩, dvd_zero _, fun _ => dvd_zero _⟩

/-- A linear form of 64 bits is the machine value of another one. -/
theorem represents_iff (hcounts : SE.Counts F) {form : LinearForm Value}
    (hform : SymbolsOnly F SE form) {width : Nat} (hwidth : 0 < width) :
    (∀ sym iter, LinearForm.eval (SE.symbolValue sym iter) (form.bmod (2 ^ 64)) =
      SCEV.wrap width (LinearForm.eval (SE.symbolValue sym iter) form)) ↔
      SE.Represents width form := by
  have hdifference : SymbolsOnly F SE (form - form.bmod (2 ^ 64)) := by
    rw [sub_eq_add_neg, ← neg_one_zsmul]
    exact hform.add ((hform.bmod _).smul _)
  rw [ScalarEvolution.Represents, ← within_iff hcounts (hform.bmod _) hwidth,
    ← LinearForm.forall_dvd_eval_iff (lowest_le_neg_one SE) (highest_nonneg SE),
    ← forall_symbolValue_iff hcounts hdifference fun n => (2 ^ width : Int) ∣ n]
  simp only [eq_wrap_iff, map_sub, forall_and]

end Valuations

section Typing

variable (SE : ScalarEvolution)

mutual

/-- The types of ScalarEvolution: operands of one width, casts that narrow or widen,
and unknown values that are their own expressions. -/
def SCEV.WellTyped : SCEV → Prop
  | .constant width _ => 0 < width
  | .add ops => 0 < SCEV.widthOfOperands ops ∧ SCEV.OperandsTyped (SCEV.widthOfOperands ops) ops
  | .mul ops => 0 < SCEV.widthOfOperands ops ∧ SCEV.OperandsTyped (SCEV.widthOfOperands ops) ops
  | .addRec start step _ =>
      0 < start.width ∧ step.width = start.width ∧ SCEV.WellTyped start ∧ SCEV.WellTyped step
  | .trunc width op => 0 < width ∧ width < op.width ∧ SCEV.WellTyped op
  | .zext width op => 0 < op.width ∧ op.width < width ∧ SCEV.WellTyped op
  | .sext width op => 0 < op.width ∧ op.width < width ∧ SCEV.WellTyped op
  | .ptrToInt width op => 0 < width ∧ op.width = width ∧ SCEV.WellTyped op
  | .udiv lhs rhs =>
      0 < lhs.width ∧ rhs.width = lhs.width ∧ SCEV.WellTyped lhs ∧ SCEV.WellTyped rhs
  | .smax ops => 0 < SCEV.widthOfOperands ops ∧ SCEV.OperandsTyped (SCEV.widthOfOperands ops) ops
  | .umax ops => 0 < SCEV.widthOfOperands ops ∧ SCEV.OperandsTyped (SCEV.widthOfOperands ops) ops
  | .smin ops => 0 < SCEV.widthOfOperands ops ∧ SCEV.OperandsTyped (SCEV.widthOfOperands ops) ops
  | .umin ops => 0 < SCEV.widthOfOperands ops ∧ SCEV.OperandsTyped (SCEV.widthOfOperands ops) ops
  | .unknown value width => 0 < width ∧ SE.getSCEV value = .unknown value width
  | .couldNotCompute => True

def SCEV.OperandsTyped (width : Nat) : List SCEV → Prop
  | [] => True
  | op :: ops => op.width = width ∧ SCEV.WellTyped op ∧ SCEV.OperandsTyped width ops

end

variable {SE}

mutual

/-- An expression has values of its width. -/
theorem wrap_value (sym : Value → Int) (iter : Nat → Nat) : ∀ scev : SCEV, scev.WellTyped SE →
    SCEV.wrap scev.width (scev.value sym iter) = scev.value sym iter
  | .constant width bits, _ => by
      rw [SCEV.width, SCEV.value]
      exact BitVec.toInt_bmod_cancel bits
  | .add ops, _ => by rw [SCEV.width, SCEV.value, wrap_wrap]
  | .mul ops, _ => by rw [SCEV.width, SCEV.value, wrap_wrap]
  | .addRec start step loop, _ => by rw [SCEV.width, SCEV.value, wrap_wrap]
  | .trunc width op, _ => by rw [SCEV.width, SCEV.value, wrap_wrap]
  | .zext width op, _ => by rw [SCEV.width, SCEV.value, wrap_wrap]
  | .sext width op, _ => by rw [SCEV.width, SCEV.value, wrap_wrap]
  | .ptrToInt width op, _ => by rw [SCEV.width, SCEV.value, wrap_wrap]
  | .udiv lhs rhs, _ => by rw [SCEV.width, SCEV.value, wrap_wrap]
  | .umax ops, _ => by rw [SCEV.width, SCEV.value, wrap_wrap]
  | .umin ops, _ => by rw [SCEV.width, SCEV.value, wrap_wrap]
  | .unknown value width, _ => by rw [SCEV.width, SCEV.value, wrap_wrap]
  | .couldNotCompute, _ => by rw [SCEV.value, SCEV.wrap, Int.zero_bmod]
  | .smax ops, h => by
      rw [SCEV.WellTyped] at h
      rw [SCEV.width, SCEV.value]
      cases hmax : (SCEV.values sym iter ops).max? with
      | none => rw [Option.getD_none, SCEV.wrap, Int.zero_bmod]
      | some n => exact wrap_values sym iter _ ops h.2 n (List.max?_mem hmax)
  | .smin ops, h => by
      rw [SCEV.WellTyped] at h
      rw [SCEV.width, SCEV.value]
      cases hmin : (SCEV.values sym iter ops).min? with
      | none => rw [Option.getD_none, SCEV.wrap, Int.zero_bmod]
      | some n => exact wrap_values sym iter _ ops h.2 n (List.min?_mem hmin)

theorem wrap_values (sym : Value → Int) (iter : Nat → Nat) (width : Nat) : ∀ ops : List SCEV,
    SCEV.OperandsTyped SE width ops → ∀ n ∈ SCEV.values sym iter ops, SCEV.wrap width n = n
  | [], _ => by simp [SCEV.values]
  | op :: ops, h => by
      rw [SCEV.OperandsTyped] at h
      intro n hn
      rw [SCEV.values, List.mem_cons] at hn
      rcases hn with rfl | hn
      · rw [← h.1]
        exact wrap_value sym iter op h.2.1
      · exact wrap_values sym iter width ops h.2.2 n hn

end

end Typing

section Calls

variable (F : Function) (SE : ScalarEvolution) (P : SCEV → Prop)

mutual

/-- What holds of every expression `createExprFromSCEV` is called on for one expression. -/
def EveryCall : SCEV → Prop
  | .constant width bits => P (.constant width bits)
  | .add ops => P (.add ops) ∧ EveryOperand ops
  | .mul ops => P (.mul ops) ∧ EveryFactor ops
  | .addRec start step loop => P (.addRec start step loop) ∧
      ((SE.canonicalIV F loop).isSome = true → EveryCall start ∧ EveryCall step)
  | .trunc width op => P (.trunc width op) ∧ EveryCall op
  | .zext width op => P (.zext width op) ∧ EveryCall op
  | .sext width op => P (.sext width op) ∧ EveryCall op
  | .ptrToInt width op => P (.ptrToInt width op) ∧ EveryCall op
  | .unknown value width => P (.unknown value width)
  | .udiv lhs rhs => P (.udiv lhs rhs)
  | .smax ops => P (.smax ops)
  | .umax ops => P (.umax ops)
  | .smin ops => P (.smin ops)
  | .umin ops => P (.umin ops)
  | .couldNotCompute => P .couldNotCompute

def EveryOperand : List SCEV → Prop
  | [] => True
  | op :: ops => EveryCall op ∧ EveryOperand ops

/-- The factor beside a constant. -/
def EveryFactor : List SCEV → Prop
  | [.constant _ _, rhs] => EveryCall rhs
  | [lhs, .constant _ _] => EveryCall lhs
  | _ => True

end

theorem EveryCall.self {F : Function} {SE : ScalarEvolution} {P : SCEV → Prop} {scev : SCEV}
    (h : EveryCall F SE P scev) : P scev := by
  cases scev <;> rw [EveryCall] at h <;> first | exact h | exact h.1

/-- The expression is zero under every valuation. -/
def SCEV.Vanishes (scev : SCEV) : Prop := ∀ sym iter, scev.value sym iter = 0

/-- The translation of an expression has its value. -/
def Faithful (scev : SCEV) : Prop :=
  ∀ sym iter, (SE.expr F scev).eval (SE.symbolValue sym iter) = scev.value sym iter

open scoped Classical in
/-- One call of the translation goes right, if those inside it do: the linear form of a
sum, a product with a constant or a recurrence stays within its type, a truncation takes
nothing away, a zero extension meets no negative number, a constant has 64 bits, a
counter does not start again before the recurrence does, and what is not translated is
zero. -/
def Exact : SCEV → Prop
  | .constant _ bits => -2 ^ 63 ≤ bits.toInt ∧ bits.toInt < 2 ^ 63
  | .add ops => SE.Represents (SCEV.widthOfOperands ops) (SCEV.formSum (SE.canonicalIV F) ops)
  | .mul ops =>
      if SCEV.twoFactors ops then
        SE.Represents (SCEV.widthOfOperands ops) (SCEV.formProduct (SE.canonicalIV F) ops)
      else (SCEV.mul ops).Vanishes
  | .addRec start step loop =>
      match SE.canonicalIV F loop with
      | none => (SCEV.addRec start step loop).Vanishes
      | some iv =>
          if ∀ symbol, ¬ SCEV.Names (SE.canonicalIV F) step symbol then
            SE.Represents start.width (SCEV.form (SE.canonicalIV F) start +
              (SCEV.form (SE.canonicalIV F) step).1 • LinearForm.var iv) ∧
            2 ^ start.width ∣ (SCEV.form (SE.canonicalIV F) step).1 * 2 ^ (SE.getSCEV iv).width
          else (SCEV.addRec start step loop).Vanishes
  | .trunc width op => SE.Within width (SCEV.form (SE.canonicalIV F) op)
  | .zext _ op => 0 ≤ (SCEV.form (SE.canonicalIV F) op).inf SE.lowest SE.highest
  | .sext _ _ => True
  | .ptrToInt _ _ => True
  | .unknown _ _ => True
  | .udiv lhs rhs => (SCEV.udiv lhs rhs).Vanishes
  | .smax ops => (SCEV.smax ops).Vanishes
  | .umax ops => (SCEV.umax ops).Vanishes
  | .smin ops => (SCEV.smin ops).Vanishes
  | .umin ops => (SCEV.umin ops).Vanishes
  | .couldNotCompute => SCEV.couldNotCompute.Vanishes

end Calls

section Exactness

variable {F : Function} {SE : ScalarEvolution}

theorem faithful_iff_form {scev : SCEV} : Faithful F SE scev ↔ ∀ sym iter,
    LinearForm.eval (SE.symbolValue sym iter) (SCEV.form (SE.canonicalIV F) scev) =
      scev.value sym iter := by
  have hform : (SE.expr F scev).form = SCEV.form (SE.canonicalIV F) scev :=
    form_createExprFromSCEV (SE.canonicalIV F) scev
  rw [← hform]
  simp only [Faithful, eval_form]

mutual

theorem symbolsOnly_form : ∀ scev : SCEV, scev.WellTyped SE →
    SymbolsOnly F SE (SCEV.form (SE.canonicalIV F) scev)
  | .constant _ bits, _ => by
      rw [SCEV.form, LinearForm.bmod_const]
      exact symbolsOnly_zero
  | .add ops, h => by
      rw [SCEV.form]
      exact (symbolsOnly_formSum _ ops h.2).bmod _
  | .mul ops, h => by
      rw [SCEV.form]
      exact (symbolsOnly_formProduct _ ops h.2).bmod _
  | .addRec start step loop, h => by
      rw [SCEV.form]
      split
      · exact symbolsOnly_zero
      · rename_i iv hiv
        split_ifs
        · refine ((symbolsOnly_form start h.2.2.1).add (SymbolsOnly.smul ?_ _)).bmod _
          exact symbolsOnly_var (.inr ⟨loop, hiv⟩)
        · exact symbolsOnly_zero
  | .trunc _ op, h => by
      rw [SCEV.form]
      exact symbolsOnly_form op h.2.2
  | .zext _ op, h => by
      rw [SCEV.form]
      exact symbolsOnly_form op h.2.2
  | .sext _ op, h => by
      rw [SCEV.form]
      exact symbolsOnly_form op h.2.2
  | .ptrToInt _ op, h => by
      rw [SCEV.form]
      exact symbolsOnly_form op h.2.2
  | .unknown value width, h => by
      rw [SCEV.form]
      exact symbolsOnly_var (.inl ⟨width, h⟩)
  | .udiv _ _, _ => by
      rw [SCEV.form]
      exact symbolsOnly_zero
  | .smax _, _ => by
      rw [SCEV.form]
      exact symbolsOnly_zero
  | .umax _, _ => by
      rw [SCEV.form]
      exact symbolsOnly_zero
  | .smin _, _ => by
      rw [SCEV.form]
      exact symbolsOnly_zero
  | .umin _, _ => by
      rw [SCEV.form]
      exact symbolsOnly_zero
  | .couldNotCompute, _ => by
      rw [SCEV.form]
      exact symbolsOnly_zero

theorem symbolsOnly_formSum (width : Nat) : ∀ ops : List SCEV, SCEV.OperandsTyped SE width ops →
    SymbolsOnly F SE (SCEV.formSum (SE.canonicalIV F) ops)
  | [], _ => by
      rw [SCEV.formSum]
      exact symbolsOnly_zero
  | op :: ops, h => by
      rw [SCEV.formSum]
      exact (symbolsOnly_form op h.2.1).add (symbolsOnly_formSum width ops h.2.2)

theorem symbolsOnly_formProduct (width : Nat) : ∀ ops : List SCEV,
    SCEV.OperandsTyped SE width ops → SymbolsOnly F SE
      (SCEV.formProduct (SE.canonicalIV F) ops) := by
  intro ops h
  rw [SCEV.formProduct.eq_def]
  split
  · rename_i bits rhs
    exact (symbolsOnly_form rhs h.2.2.2.1).smul _
  · rename_i lhs _ bits _
    exact (symbolsOnly_form lhs h.2.1).smul _
  · exact symbolsOnly_zero

end

theorem sum_values {ops : List SCEV} (h : EveryOperand F SE (Faithful F SE) ops)
    (sym : Value → Int) (iter : Nat → Nat) : (SCEV.values sym iter ops).sum =
      LinearForm.eval (SE.symbolValue sym iter) (SCEV.formSum (SE.canonicalIV F) ops) := by
  induction ops with
  | nil => rw [SCEV.values, SCEV.formSum, map_zero, List.sum_nil]
  | cons op ops ih =>
      rw [EveryOperand] at h
      rw [SCEV.values, SCEV.formSum, List.sum_cons, map_add, ih h.2,
        faithful_iff_form.mp h.1.self sym iter]

theorem prod_values {ops : List SCEV} (htwo : SCEV.twoFactors ops = true)
    (h : EveryFactor F SE (Faithful F SE) ops) (sym : Value → Int) (iter : Nat → Nat) :
    (SCEV.values sym iter ops).prod =
      LinearForm.eval (SE.symbolValue sym iter) (SCEV.formProduct (SE.canonicalIV F) ops) := by
  unfold SCEV.twoFactors at htwo
  split at htwo
  · rename_i bits rhs
    rw [EveryFactor] at h
    rw [SCEV.formProduct, map_smul, faithful_iff_form.mp h.self sym iter]
    simp [SCEV.values, SCEV.value]
  · rename_i lhs width bits hlhs
    rw [EveryFactor.eq_2 F SE _ lhs width bits hlhs] at h
    rw [SCEV.formProduct.eq_2 _ lhs width bits hlhs, map_smul, faithful_iff_form.mp h.self sym iter]
    simp [SCEV.values, SCEV.value, mul_comm]
  · exact absurd htwo (by simp)

theorem faithful_zero_iff {scev : SCEV} (hform : SCEV.form (SE.canonicalIV F) scev = 0) :
    Faithful F SE scev ↔ scev.Vanishes := by
  rw [faithful_iff_form, hform, SCEV.Vanishes]
  simp only [map_zero, eq_comm]

theorem faithful_constant_iff {width : Nat} (bits : BitVec width) :
    Faithful F SE (.constant width bits) ↔ Exact F SE (.constant width bits) := by
  rw [faithful_iff_form, Exact, ← wrap_eq_self_iff (w := 64) (by decide)]
  simp only [SCEV.form, LinearForm.bmod_const, LinearForm.eval_const, SCEV.value, SCEV.wrap,
    forall_const]

theorem faithful_add_iff (hcounts : SE.Counts F) {ops : List SCEV}
    (htyped : (SCEV.add ops).WellTyped SE) (h : EveryOperand F SE (Faithful F SE) ops) :
    Faithful F SE (.add ops) ↔ Exact F SE (.add ops) := by
  rw [faithful_iff_form, Exact,
    ← represents_iff hcounts (symbolsOnly_formSum _ ops htyped.2) htyped.1]
  simp only [SCEV.form, SCEV.value, sum_values h]

theorem faithful_mul_iff (hcounts : SE.Counts F) {ops : List SCEV}
    (htyped : (SCEV.mul ops).WellTyped SE) (h : EveryFactor F SE (Faithful F SE) ops) :
    Faithful F SE (.mul ops) ↔ Exact F SE (.mul ops) := by
  rw [Exact]
  split_ifs with htwo
  · rw [faithful_iff_form,
      ← represents_iff hcounts (symbolsOnly_formProduct _ ops htyped.2) htyped.1]
    simp only [SCEV.form, SCEV.value, prod_values htwo h]
  · apply faithful_zero_iff
    rw [SCEV.form, formProduct_eq_zero _ htwo, LinearForm.bmod_zero]

/-- A step without terms is its constant in every iteration. -/
theorem value_step {step : SCEV} (h : Faithful F SE step)
    (hterms : (SE.expr F step).terms.isEmpty = true) (sym : Value → Int) (iter : Nat → Nat) :
    step.value sym iter = (SCEV.form (SE.canonicalIV F) step).1 := by
  have hform : (SE.expr F step).form = SCEV.form (SE.canonicalIV F) step :=
    form_createExprFromSCEV (SE.canonicalIV F) step
  rw [← h sym iter, ← hform, AffineExpr.eval, List.isEmpty_iff.mp hterms, evalTerms_nil, add_zero]
  rfl

/-- Behind a whole round of its counter, a loop has the same symbols as before its first
iteration. -/
theorem symbolValue_round (hcounts : SE.Counts F) {loop : Nat} {iv v : Value}
    (hiv : SE.canonicalIV F loop = some iv) (hv : SE.IsSymbol F v) :
    SE.symbolValue 0 (Function.update 0 loop (2 ^ (SE.getSCEV iv).width)) v =
      SE.symbolValue 0 0 v := by
  rcases hv with ⟨width, _, hscev⟩ | ⟨other, hother⟩
  · rw [ScalarEvolution.symbolValue, ScalarEvolution.symbolValue, hscev, SCEV.value, SCEV.value]
  · rw [symbolValue_counter hcounts hother, symbolValue_counter hcounts hother]
    by_cases hsame : other = loop
    · subst hsame
      obtain rfl : v = iv := Option.some.inj (hother.symm.trans hiv)
      rw [Function.update_self, wrap_eq_wrap_iff]
      simp
    · rw [Function.update_of_ne hsame]

theorem faithful_addRec_iff (hcounts : SE.Counts F) {start step : SCEV} {loop : Nat}
    (htyped : (SCEV.addRec start step loop).WellTyped SE)
    (h : (SE.canonicalIV F loop).isSome = true → EveryCall F SE (Faithful F SE) start ∧
      EveryCall F SE (Faithful F SE) step) :
    Faithful F SE (.addRec start step loop) ↔ Exact F SE (.addRec start step loop) := by
  rw [Exact]
  cases hiv : SE.canonicalIV F loop with
  | none =>
      apply faithful_zero_iff
      rw [SCEV.form, hiv]
  | some iv =>
      simp only
      obtain ⟨hstart, hstep⟩ := h (by rw [hiv]; rfl)
      split_ifs with hnames
      · have hterms := (isEmpty_createExprFromSCEV (SE.canonicalIV F) step).mpr hnames
        let k := (SCEV.form (SE.canonicalIV F) step).1
        let form := SCEV.form (SE.canonicalIV F) start + k • LinearForm.var iv
        have hsymbols : SymbolsOnly F SE form :=
          (symbolsOnly_form start htyped.2.2.1).add
            ((symbolsOnly_var (.inr ⟨loop, hiv⟩)).smul k)
        have hform : SCEV.form (SE.canonicalIV F) (.addRec start step loop) =
            form.bmod (2 ^ 64) := by
          rw [SCEV.form, hiv]
          exact if_pos hnames
        have hvalue : ∀ sym iter, (SCEV.addRec start step loop).value sym iter =
            SCEV.wrap start.width (LinearForm.eval (SE.symbolValue sym iter)
              (SCEV.form (SE.canonicalIV F) start) + iter loop * k) := by
          intro sym iter
          simp only [SCEV.value, value_step hstep.self hterms,
            faithful_iff_form.mp hstart.self sym iter]
          simp [k]
        have heval : ∀ sym iter, LinearForm.eval (SE.symbolValue sym iter) form =
            LinearForm.eval (SE.symbolValue sym iter) (SCEV.form (SE.canonicalIV F) start) +
              k * SCEV.wrap (SE.getSCEV iv).width (iter loop) := by
          intro sym iter
          rw [map_add, map_smul, LinearForm.eval_var, symbolValue_counter hcounts hiv, smul_eq_mul]
        have hround : (2 ^ start.width : Int) ∣ k * 2 ^ (SE.getSCEV iv).width → ∀ sym iter,
            SCEV.wrap start.width (LinearForm.eval (SE.symbolValue sym iter)
              (SCEV.form (SE.canonicalIV F) start) + iter loop * k) =
              SCEV.wrap start.width (LinearForm.eval (SE.symbolValue sym iter) form) := by
          intro hdvd sym iter
          rw [heval, wrap_eq_wrap_iff, add_sub_add_left_eq_sub, mul_comm, ← mul_sub]
          obtain ⟨q, hq⟩ := dvd_two_pow_self_sub_wrap (SE.getSCEV iv).width (iter loop)
          rw [hq, ← mul_assoc]
          exact dvd_mul_of_dvd_left hdvd q
        rw [faithful_iff_form, hform]
        simp only [hvalue]
        constructor
        · intro hall
          have hdvd : (2 ^ start.width : Int) ∣ k * 2 ^ (SE.getSCEV iv).width := by
            have hfirst := hall 0 0
            have hagain := hall 0 (Function.update 0 loop (2 ^ (SE.getSCEV iv).width))
            have hsame : ∀ f : LinearForm Value, SymbolsOnly F SE f → LinearForm.eval
                (SE.symbolValue 0 (Function.update 0 loop (2 ^ (SE.getSCEV iv).width))) f =
                LinearForm.eval (SE.symbolValue 0 0) f := fun f hf =>
              LinearForm.eval_congr fun v hv => symbolValue_round hcounts hiv (hf v hv)
            rw [hsame _ (hsymbols.bmod _), hfirst, hsame _ (symbolsOnly_form start htyped.2.2.1),
              wrap_eq_wrap_iff, add_sub_add_left_eq_sub, Function.update_self] at hagain
            simpa [mul_comm, dvd_neg] using hagain
          refine ⟨(represents_iff hcounts hsymbols htyped.1).mp fun sym iter => ?_, hdvd⟩
          rw [hall sym iter, hround hdvd]
        · rintro ⟨hrepresents, hdvd⟩ sym iter
          rw [hround hdvd]
          exact (represents_iff hcounts hsymbols htyped.1).mpr hrepresents sym iter
      · apply faithful_zero_iff
        rw [SCEV.form, hiv]
        exact if_neg hnames

theorem faithful_trunc_iff (hcounts : SE.Counts F) {width : Nat} {op : SCEV}
    (htyped : (SCEV.trunc width op).WellTyped SE) (h : Faithful F SE op) :
    Faithful F SE (.trunc width op) ↔ Exact F SE (.trunc width op) := by
  rw [faithful_iff_form, Exact, ← within_iff hcounts (symbolsOnly_form op htyped.2.2) htyped.1]
  rw [faithful_iff_form] at h
  simp only [SCEV.form, SCEV.value, ← h]
  exact forall₂_congr fun _ _ => eq_comm

theorem faithful_zext_iff (hcounts : SE.Counts F) {width : Nat} {op : SCEV}
    (htyped : (SCEV.zext width op).WellTyped SE) (h : Faithful F SE op) :
    Faithful F SE (.zext width op) ↔ Exact F SE (.zext width op) := by
  rw [faithful_iff_form, Exact, ← nonneg_iff hcounts (symbolsOnly_form op htyped.2.2)]
  rw [faithful_iff_form] at h
  simp only [SCEV.form, SCEV.value, h]
  exact forall₂_congr fun sym iter =>
    wrap_unsigned_eq_iff htyped.1 htyped.2.1 (wrap_value sym iter op htyped.2.2)

theorem faithful_sext {width : Nat} {op : SCEV} (htyped : (SCEV.sext width op).WellTyped SE)
    (h : Faithful F SE op) : Faithful F SE (.sext width op) := by
  rw [faithful_iff_form] at h ⊢
  intro sym iter
  rw [SCEV.form, SCEV.value, h sym iter]
  exact (wrap_of_le htyped.1 htyped.2.1.le (wrap_value sym iter op htyped.2.2)).symm

theorem faithful_ptrToInt {width : Nat} {op : SCEV}
    (htyped : (SCEV.ptrToInt width op).WellTyped SE) (h : Faithful F SE op) :
    Faithful F SE (.ptrToInt width op) := by
  rw [faithful_iff_form] at h ⊢
  intro sym iter
  rw [SCEV.form, SCEV.value, h sym iter, ← htyped.2.1]
  exact (wrap_value sym iter op htyped.2.2).symm

theorem faithful_unknown {value : Value} {width : Nat}
    (htyped : (SCEV.unknown value width).WellTyped SE) :
    Faithful F SE (.unknown value width) := by
  rw [faithful_iff_form]
  intro sym iter
  rw [SCEV.form, LinearForm.eval_var, ScalarEvolution.symbolValue, htyped.2]

mutual

/-- The calls of the translation for an expression go right exactly if each of them is
exact. -/
theorem everyCall_iff (hcounts : SE.Counts F) : ∀ scev : SCEV, scev.WellTyped SE →
    (EveryCall F SE (Faithful F SE) scev ↔ EveryCall F SE (Exact F SE) scev)
  | .constant width bits, _ => by
      rw [EveryCall, EveryCall]
      exact faithful_constant_iff bits
  | .add ops, h => by
      rw [EveryCall, EveryCall, ← everyOperand_iff hcounts _ ops h.2]
      exact and_congr_left (faithful_add_iff hcounts h)
  | .mul ops, h => by
      rw [EveryCall, EveryCall, ← everyFactor_iff hcounts _ ops h.2]
      exact and_congr_left (faithful_mul_iff hcounts h)
  | .addRec start step loop, h => by
      rw [EveryCall, EveryCall, ← everyCall_iff hcounts start h.2.2.1,
        ← everyCall_iff hcounts step h.2.2.2]
      exact and_congr_left (faithful_addRec_iff hcounts h)
  | .trunc width op, h => by
      rw [EveryCall, EveryCall, ← everyCall_iff hcounts op h.2.2]
      exact and_congr_left fun hop => faithful_trunc_iff hcounts h hop.self
  | .zext width op, h => by
      rw [EveryCall, EveryCall, ← everyCall_iff hcounts op h.2.2]
      exact and_congr_left fun hop => faithful_zext_iff hcounts h hop.self
  | .sext width op, h => by
      rw [EveryCall, EveryCall, ← everyCall_iff hcounts op h.2.2]
      exact and_congr_left fun hop => iff_of_true (faithful_sext h hop.self) trivial
  | .ptrToInt width op, h => by
      rw [EveryCall, EveryCall, ← everyCall_iff hcounts op h.2.2]
      exact and_congr_left fun hop => iff_of_true (faithful_ptrToInt h hop.self) trivial
  | .unknown value width, h => by
      rw [EveryCall, EveryCall]
      exact iff_of_true (faithful_unknown h) trivial
  | .udiv lhs rhs, _ => by
      rw [EveryCall, EveryCall]
      exact faithful_zero_iff (by rw [SCEV.form])
  | .smax ops, _ => by
      rw [EveryCall, EveryCall]
      exact faithful_zero_iff (by rw [SCEV.form])
  | .umax ops, _ => by
      rw [EveryCall, EveryCall]
      exact faithful_zero_iff (by rw [SCEV.form])
  | .smin ops, _ => by
      rw [EveryCall, EveryCall]
      exact faithful_zero_iff (by rw [SCEV.form])
  | .umin ops, _ => by
      rw [EveryCall, EveryCall]
      exact faithful_zero_iff (by rw [SCEV.form])
  | .couldNotCompute, _ => by
      rw [EveryCall, EveryCall]
      exact faithful_zero_iff (by rw [SCEV.form])

theorem everyOperand_iff (hcounts : SE.Counts F) (width : Nat) : ∀ ops : List SCEV,
    SCEV.OperandsTyped SE width ops →
    (EveryOperand F SE (Faithful F SE) ops ↔ EveryOperand F SE (Exact F SE) ops)
  | [], _ => by rw [EveryOperand, EveryOperand]
  | op :: ops, h => by
      rw [EveryOperand, EveryOperand, everyCall_iff hcounts op h.2.1,
        everyOperand_iff hcounts width ops h.2.2]

theorem everyFactor_iff (hcounts : SE.Counts F) (width : Nat) : ∀ ops : List SCEV,
    SCEV.OperandsTyped SE width ops →
    (EveryFactor F SE (Faithful F SE) ops ↔ EveryFactor F SE (Exact F SE) ops) := by
  intro ops h
  rw [EveryFactor.eq_def]
  split
  · rename_i bits rhs
    rw [EveryFactor, everyCall_iff hcounts rhs h.2.2.2.1]
  · rename_i lhs width' bits hlhs
    rw [EveryFactor.eq_2 F SE _ lhs width' bits hlhs, everyCall_iff hcounts lhs h.2.1]
  · rename_i hleft hright
    rw [EveryFactor.eq_3 F SE _ ops hleft hright]

end

end Exactness

section Nest

variable (eqEq : Bool) (F : Function) (SE : ScalarEvolution)

/-- The expressions of the bounds of a loop. -/
def boundSCEVs (loop : LoopDescriptor) : List SCEV :=
  match SE.getSCEV loop.induction with
  | .addRec start _ _ => [start, SE.getSCEV loop.boundValue]
  | _ => []

/-- The expressions of the subscripts of an access. -/
def subscriptSCEVs (inst : Inst) : List SCEV :=
  match inst.kind with
  | .load pointer | .store _ pointer =>
      (chainIndices F F.allInsts.length pointer).map fun index => SE.getSCEV index.value
  | _ => []

/-- The expressions that a nest uses as bounds and subscripts. -/
def nestSCEVs (loops : List LoopDescriptor) : List SCEV :=
  loops.flatMap (boundSCEVs SE) ++
    match loops.getLast? with
    | none => []
    | some innermost => innermost.loopNode.blocks.flatMap fun block =>
        (F.insts block).flatMap (subscriptSCEVs F SE)

/-- isl reads the strings of the domain and of the accesses. -/
structure StringsRead (nest : LoopNestDescriptor) : Prop where
  domain : (Isl.unionSetReadFromStr eqEq (domainStr F nest)).isSome
  reads : (Isl.unionMapReadFromStr eqEq (readStr F nest)).isSome
  writes : (Isl.unionMapReadFromStr eqEq (writeStr F nest)).isSome

/-- The bounds and subscripts of a nest have the values of their expressions, and so has
what every call of the translation returns for them. -/
structure TranslatedFaithfully (nest : LoopNestDescriptor) : Prop where
  exprs : List.Forall₂ (fun (expr : AffineExpr) scev => ∀ sym iter,
    expr.eval (SE.symbolValue sym iter) = scev.value sym iter) nest.exprs
      (nestSCEVs F SE nest.loops)
  calls : ∀ scev ∈ nestSCEVs F SE nest.loops, EveryCall F SE (Faithful F SE) scev

variable (root : Loop)

/-- A nest is rejected by the analysis, by `isRectangularNest` or by isl, or it has the
bounds and subscripts of the program. -/
def FaithfulOrRejected : Prop :=
  ∀ nest, analyzeLoopNest F SE root = some nest → isRectangularNest nest = true →
    StringsRead eqEq F nest → TranslatedFaithfully F SE nest

/-- A nest is rejected, or all calls of the translation are exact. -/
def ExactOrRejected : Prop :=
  ∀ nest, analyzeLoopNest F SE root = some nest → isRectangularNest nest = true →
    StringsRead eqEq F nest → ∀ scev ∈ nestSCEVs F SE nest.loops, EveryCall F SE (Exact F SE) scev

variable {eqEq F SE root}

theorem subscripts_eq (insts : List Inst) :
    (insts.filterMap (accessOf F SE)).flatMap MemoryAccess.subscripts =
      (insts.flatMap (subscriptSCEVs F SE)).map (SE.expr F) := by
  induction insts with
  | nil => rfl
  | cons inst insts ih =>
      rw [List.flatMap_cons, List.map_append, ← ih, List.filterMap_cons, accessOf, subscriptSCEVs]
      cases inst.kind <;>
        simp [flattenPointer, flattenGEP_eq]

/-- The bounds and subscripts of a nest are the translations of its expressions. -/
theorem exprs_analyzeLoopNest {nest : LoopNestDescriptor}
    (h : analyzeLoopNest F SE root = some nest) :
    nest.exprs = (nestSCEVs F SE nest.loops).map (SE.expr F) := by
  obtain ⟨_, hforall, haccesses⟩ := describes_of_analyzeLoopNest h
  have hbounds : ∀ loop ∈ nest.loops, [loop.bounds.lower, loop.bounds.upper] =
      (boundSCEVs SE loop).map (SE.expr F) := by
    intro loop hloop
    obtain ⟨i, hi, rfl⟩ := List.getElem_of_mem hloop
    have hi' : i < (linearizePerfectNest root).length := hforall.length_eq ▸ hi
    have hdescribes := (List.forall₂_iff_get.mp hforall).2 i hi' hi
    obtain ⟨start, step, header, hscev, hlower, _⟩ := hdescribes.recurrence
    have hupper := hdescribes.upper
    simp only [List.get_eq_getElem] at hscev hlower hupper
    rw [boundSCEVs, hscev, hlower, hupper]
    rfl
  rw [LoopNestDescriptor.exprs, nestSCEVs, List.map_append, List.map_flatMap, haccesses,
    collectMemoryAccesses]
  congr 1
  · exact List.flatMap_congr hbounds
  · cases nest.loops.getLast? with
    | none => rfl
    | some innermost =>
        simp only
        rw [List.flatMap_assoc, List.map_flatMap]
        exact List.flatMap_congr fun block _ => subscripts_eq (F.insts block)

/-- The expressions of a nest have the types of ScalarEvolution. -/
theorem wellTyped_of_mem_nestSCEVs (htyped : ∀ value, (SE.getSCEV value).WellTyped SE)
    {loops : List LoopDescriptor} {scev : SCEV} (h : scev ∈ nestSCEVs F SE loops) :
    scev.WellTyped SE := by
  rcases List.mem_append.mp h with h | h
  · obtain ⟨loop, _, hloop⟩ := List.mem_flatMap.mp h
    unfold boundSCEVs at hloop
    split at hloop
    · rename_i start step header hscev
      rcases List.mem_pair.mp hloop with rfl | rfl
      · have hrec := htyped loop.induction
        rw [hscev] at hrec
        exact hrec.2.2.1
      · exact htyped loop.boundValue
    · exact absurd hloop List.not_mem_nil
  · split at h
    · exact absurd h List.not_mem_nil
    · obtain ⟨block, _, hblock⟩ := List.mem_flatMap.mp h
      obtain ⟨inst, _, hinst⟩ := List.mem_flatMap.mp hblock
      unfold subscriptSCEVs at hinst
      split at hinst
      · obtain ⟨index, _, rfl⟩ := List.mem_map.mp hinst
        exact htyped index.value
      · obtain ⟨index, _, rfl⟩ := List.mem_map.mp hinst
        exact htyped index.value
      · exact absurd hinst List.not_mem_nil

/-- What a nest that is not rejected uses as bounds and subscripts is right exactly if
every call of the translation is exact. -/
theorem faithfulOrRejected_iff (eqEq : Bool) (F : Function) (SE : ScalarEvolution) (root : Loop)
    (hcounts : SE.Counts F) (htyped : ∀ value, (SE.getSCEV value).WellTyped SE) :
    FaithfulOrRejected eqEq F SE root ↔ ExactOrRejected eqEq F SE root := by
  constructor
  · intro h nest hnest hrectangular hread scev hscev
    rw [← everyCall_iff hcounts scev (wellTyped_of_mem_nestSCEVs htyped hscev)]
    exact (h nest hnest hrectangular hread).calls scev hscev
  · intro h nest hnest hrectangular hread
    have hcalls : ∀ scev ∈ nestSCEVs F SE nest.loops, EveryCall F SE (Faithful F SE) scev := by
      intro scev hscev
      rw [everyCall_iff hcounts scev (wellTyped_of_mem_nestSCEVs htyped hscev)]
      exact h nest hnest hrectangular hread scev hscev
    refine ⟨?_, hcalls⟩
    rw [exprs_analyzeLoopNest hnest, List.forall₂_map_left_iff, List.forall₂_same]
    exact fun scev hscev => (hcalls scev hscev).self

/-- isl reads the strings of a nest whose words and expressions it can read. -/
theorem stringsRead_of_stringsReadable {nest : LoopNestDescriptor} (hwf : nest.WellFormed F)
    (h : stringsReadable F nest = true) (eqEq : Bool) : StringsRead eqEq F nest := by
  rw [← getDependencies_isSome_iff hwf, getDependencies_isSome hwf] at h
  have haccess : ∀ kind, (Isl.unionMapReadFromStr eqEq (accessStr F nest kind)).isSome := by
    intro kind
    rw [unionMapReadFromStr_access hwf, Option.isSome_map, mapM_option_isSome]
    exact fun access hmem => h.2 access (List.mem_of_mem_filter hmem)
  refine ⟨?_, haccess .load, haccess .store⟩
  rw [unionSetReadFromStr_domain hwf, Option.isSome_map]
  exact h.1

end Nest

section Program

/-- A load whose index is computed from `i`. -/
def indexPayload : Payload :=
  { inner := [⟨40, .int 64, .compute [1]⟩, ⟨41, .ptr, .gep 30 [.elem 40 4]⟩,
      ⟨42, .int 32, .load 41⟩] }

/-- ScalarEvolution with a given expression for the index. -/
def indexEvolution (index : SCEV) : ScalarEvolution where
  getSCEV value := if value = 40 then index else exampleEvolution.getSCEV value
  loopOf := exampleEvolution.loopOf

def indexNest (subscript : AffineExpr) : LoopNestDescriptor :=
  exampleLoops [⟨.load, 42, 30, "A", [subscript]⟩]

/-- The recurrence of `i`. -/
def outerCounter : SCEV := .addRec (.constant 32 0) (.constant 32 1) 1

theorem indexEvolution_counts_of {F : Function} (index : SCEV)
    (houter : exampleOuter.canonicalInductionVariable F = some 1)
    (hinner : exampleInner.canonicalInductionVariable F = some 2) :
    (indexEvolution index).Counts F := by
  intro loop iv h
  obtain ⟨L, hL, hiv⟩ := Option.bind_eq_some_iff.mp h
  change [exampleOuter, exampleInner].find? (·.header == loop) = some L at hL
  have hfound := List.find?_some hL
  have hheader : L.header = loop := beq_iff_eq.mp hfound
  rcases List.mem_pair.mp (List.mem_of_find?_eq_some hL) with rfl | rfl
  · obtain rfl : 1 = iv := Option.some.inj (houter.symm.trans hiv)
    obtain rfl : 1 = loop := hheader
    exact ⟨32, by decide, rfl⟩
  · obtain rfl : 2 = iv := Option.some.inj (hinner.symm.trans hiv)
    obtain rfl : 3 = loop := hheader
    exact ⟨32, by decide, rfl⟩

theorem indexEvolution_counts (index : SCEV) :
    (indexEvolution index).Counts (indexPayload.function .slt) :=
  indexEvolution_counts_of index rfl rfl

theorem indexEvolution_typed {index : SCEV} (hindex : index.WellTyped (indexEvolution index))
    (value : Value) : ((indexEvolution index).getSCEV value).WellTyped (indexEvolution index) := by
  by_cases h40 : value = 40
  · subst h40
    exact hindex
  · have hpos : 0 < 32 := by decide
    have hold : (indexEvolution index).getSCEV value = exampleEvolution.getSCEV value := if_neg h40
    rw [hold]
    by_cases hconstant : value ∈ [8, 9, 10]
    · simp only [List.mem_cons, List.not_mem_nil, or_false] at hconstant
      rcases hconstant with rfl | rfl | rfl <;> exact hpos
    · by_cases hcounter : value = 1 ∨ value = 2
      · rcases hcounter with rfl | rfl
        · exact ⟨hpos, rfl, hpos, hpos⟩
        · exact ⟨hpos, rfl, hpos, hpos⟩
      · have hunknown : exampleEvolution.getSCEV value = .unknown value 32 := by
          have hnone : exampleConstant value = none := by
            rw [exampleConstant, List.lookup_eq_none_iff]
            simp only [List.mem_cons, List.not_mem_nil, or_false, not_or] at hconstant
            simpa using hconstant
          obtain ⟨h1, h2⟩ := not_or.mp hcounter
          simp only [exampleEvolution, hnone, if_neg h1, if_neg h2]
        rw [hunknown]
        exact ⟨hpos, hold.trans hunknown⟩

theorem nestSCEVs_index (index : SCEV) (subscript : AffineExpr) :
    nestSCEVs (indexPayload.function .slt) (indexEvolution index) (indexNest subscript).loops =
      [.constant 32 0, .constant 32 8, .constant 32 0, .constant 32 8, index] := rfl

theorem indexNest_read {subscript : AffineExpr} (hsymbols : subscript.HasSymbols)
    (h : stringsReadable (indexPayload.function .slt) (indexNest subscript) = true) (eqEq : Bool) :
    StringsRead eqEq (indexPayload.function .slt) (indexNest subscript) := by
  have hloops : (exampleLoops []).WellFormed (indexPayload.function .slt) :=
    ⟨by decide, by decide, by decide, by decide, by decide⟩
  have hwf : (indexNest subscript).WellFormed (indexPayload.function .slt) := by
    refine ⟨hloops.depth_ge, hloops.inductionName, hloops.lower_constant, hloops.upper_hasSymbols,
      ?_⟩
    intro access haccess expr hexpr
    obtain rfl := List.mem_singleton.mp haccess
    obtain rfl := List.mem_singleton.mp hexpr
    exact hsymbols
  exact stringsRead_of_stringsReadable hwf h eqEq

theorem counter_exact (index : SCEV) :
    EveryCall (indexPayload.function .slt) (indexEvolution index)
      (Exact (indexPayload.function .slt) (indexEvolution index)) outerCounter := by
  have hstart : ∀ canonicalIV, SCEV.form canonicalIV (.constant 32 0) = 0 := by
    intro canonicalIV
    rw [SCEV.form, LinearForm.bmod_const]
    rfl
  have hstep : ∀ canonicalIV, (SCEV.form canonicalIV (.constant 32 1)).1 = 1 := by
    intro canonicalIV
    rw [SCEV.form, LinearForm.bmod_const]
    rfl
  have hnames : ∀ canonicalIV symbol, ¬ SCEV.Names canonicalIV (.constant 32 1) symbol := by
    intro canonicalIV symbol
    rw [SCEV.Names]
    exact id
  refine ⟨?_, fun _ => ⟨⟨by decide, by decide⟩, ⟨by decide, by decide⟩⟩⟩
  have hiv : (indexEvolution index).canonicalIV (indexPayload.function .slt) 1 = some 1 := rfl
  rw [Exact, hiv]
  simp only [if_pos (hnames _)]
  rw [hstart, hstep, one_smul, zero_add, one_mul]
  exact ⟨represents_var (le_refl 32), dvd_refl _⟩

/-- An index that is `i` in a wider type. -/
theorem sextIndex_translatedFaithfully : TranslatedFaithfully (indexPayload.function .slt)
    (indexEvolution (.sext 64 outerCounter)) (indexNest (makeUnknownExpr 1)) := by
  have hpos : 0 < 32 := by decide
  have htyped : (SCEV.sext 64 outerCounter).WellTyped (indexEvolution (.sext 64 outerCounter)) :=
    ⟨hpos, by decide, hpos, rfl, hpos, hpos⟩
  refine (faithfulOrRejected_iff false (indexPayload.function .slt)
    (indexEvolution (.sext 64 outerCounter)) exampleOuter (indexEvolution_counts _)
    (indexEvolution_typed htyped)).mpr ?_ (indexNest (makeUnknownExpr 1)) rfl (by decide)
    (indexNest_read (by decide) (by decide) false)
  intro nest hnest _ _ scev hscev
  obtain rfl : indexNest (makeUnknownExpr 1) = nest := Option.some.inj hnest
  rw [nestSCEVs_index] at hscev
  simp only [List.mem_cons, List.not_mem_nil, or_false] at hscev
  rcases hscev with rfl | rfl | rfl | rfl | rfl
  · exact ⟨by decide, by decide⟩
  · exact ⟨by decide, by decide⟩
  · exact ⟨by decide, by decide⟩
  · exact ⟨by decide, by decide⟩
  · exact ⟨trivial, counter_exact _⟩

/-- The translation of the index `i / 2` is the constant zero. -/
theorem not_forall_faithfulOrRejected : ¬ ∀ (eqEq : Bool) (F : Function) (SE : ScalarEvolution)
    (root : Loop), SE.Counts F → (∀ value, (SE.getSCEV value).WellTyped SE) →
    FaithfulOrRejected eqEq F SE root := by
  intro hall
  let index : SCEV := .udiv outerCounter (.constant 32 2)
  have hpos : 0 < 32 := by decide
  have htyped : index.WellTyped (indexEvolution index) :=
    ⟨hpos, rfl, ⟨hpos, rfl, hpos, hpos⟩, hpos⟩
  have hfaithful := hall false (indexPayload.function .slt) (indexEvolution index) exampleOuter
    (indexEvolution_counts index) (indexEvolution_typed htyped) (indexNest {}) rfl (by decide)
    (indexNest_read (by decide) (by decide) false)
  have hmem : index ∈ nestSCEVs (indexPayload.function .slt) (indexEvolution index)
      (indexNest {}).loops := by
    rw [nestSCEVs_index]
    simp
  -- in the third iteration of the outer loop the index is one
  have hvalue := (hfaithful.calls index hmem).self 0 fun _ => 2
  exact absurd hvalue (by decide)

end Program

end PolyhedralPass
