/-
Affine expressions as linear forms.  The arithmetic of `addTerm`, `addExpr` and
`mulExpr` on lists of terms is that of linear forms whose coefficients are taken
around zero, modulo two to the power of 64.
-/
import PolyhedralPass.LinearForm
import PolyhedralPass.Scev

namespace PolyhedralPass

section Terms

/-- The linear form of a list of terms, without its constant. -/
noncomputable def termsForm (terms : List AffineTerm) : Value →₀ ℤ :=
  (terms.map fun term =>
    term.symbol.elim 0 fun symbol => Finsupp.single symbol term.coefficient.toInt).sum

/-- The linear form an expression stands for. -/
noncomputable def AffineExpr.form (expr : AffineExpr) : LinearForm Value :=
  (expr.constant.toInt, termsForm expr.terms)

theorem eval_form (val : Value → Int) (expr : AffineExpr) :
    LinearForm.eval val expr.form = expr.eval val := by
  rw [LinearForm.eval_apply, AffineExpr.form, AffineExpr.eval, termsForm, evalTerms, map_list_sum,
    List.map_map]
  congr 3
  funext term
  cases hsymbol : term.symbol with
  | none => simp [AffineTerm.eval, hsymbol]
  | some symbol => simp [AffineTerm.eval, hsymbol]

/-- The coefficient of the first term of a symbol. -/
def coefficientOf (symbol : Value) : List AffineTerm → Int64
  | [] => 0
  | term :: rest =>
      if term.symbol = some symbol then term.coefficient else coefficientOf symbol rest

/-- No symbol has two terms. -/
def AffineExpr.OneTermEach (expr : AffineExpr) : Prop :=
  (expr.terms.map AffineTerm.symbol).Nodup

theorem coefficientOf_eq_zero {symbol : Value} {terms : List AffineTerm}
    (h : some symbol ∉ terms.map AffineTerm.symbol) : coefficientOf symbol terms = 0 := by
  induction terms with
  | nil => rfl
  | cons term rest ih =>
      rw [List.map_cons, List.mem_cons, not_or] at h
      rw [coefficientOf, if_neg (Ne.symm h.1), ih h.2]

theorem termsForm_apply {terms : List AffineTerm} (h : (terms.map AffineTerm.symbol).Nodup)
    (symbol : Value) : termsForm terms symbol = (coefficientOf symbol terms).toInt := by
  induction terms with
  | nil => rfl
  | cons term rest ih =>
      rw [List.map_cons, List.nodup_cons] at h
      have hcons : termsForm (term :: rest) symbol =
          (term.symbol.elim 0 fun s => Finsupp.single s term.coefficient.toInt) symbol +
            termsForm rest symbol := by
        rw [termsForm, List.map_cons, List.sum_cons, Finsupp.add_apply, termsForm]
      rw [hcons, ih h.2, coefficientOf]
      split_ifs with hsame
      · rw [hsame] at h
        rw [coefficientOf_eq_zero h.1, hsame]
        simp
      · cases hsymbol : term.symbol with
        | none => simp
        | some other =>
            have hne : other ≠ symbol := fun heq => hsame (by rw [hsymbol, heq])
            simp [Finsupp.single_eq_of_ne hne.symm]

theorem coefficientOf_mergeTerm (symbol other : Value) (coefficient : Int64)
    (terms : List AffineTerm) : coefficientOf symbol (mergeTerm other coefficient terms) =
      coefficientOf symbol terms + if other = symbol then coefficient else 0 := by
  induction terms with
  | nil =>
      simp only [mergeTerm, coefficientOf, Option.some.injEq]
      rw [Int64.zero_add]
  | cons term rest ih =>
      rw [mergeTerm]
      by_cases hother : term.symbol = some other
      · rw [if_pos hother, coefficientOf, coefficientOf, hother]
        by_cases hsame : other = symbol
        · simp [hsame]
        · simp [hsame, Int64.add_zero]
      · rw [if_neg hother, coefficientOf, coefficientOf, ih]
        by_cases hsymbol : term.symbol = some symbol
        · have hne : other ≠ symbol := fun heq => hother (by rw [hsymbol, heq])
          simp [hsymbol, hne, Int64.add_zero]
        · simp [hsymbol]

theorem coefficientOf_addTerm (symbol : Value) (expr : AffineExpr) (other : Option Value)
    (coefficient : Int64) : coefficientOf symbol (addTerm expr other coefficient).terms =
      coefficientOf symbol expr.terms + if other = some symbol then coefficient else 0 := by
  unfold addTerm
  cases other with
  | none => simp [Int64.add_zero]
  | some other =>
      simp only [Option.some.injEq]
      split_ifs with hzero hsame
      · rw [hzero, Int64.add_zero]
      · rw [Int64.add_zero]
      · rw [coefficientOf_mergeTerm, if_pos ‹other = symbol›]
      · rw [coefficientOf_mergeTerm, if_neg ‹¬ other = symbol›]

theorem symbols_mergeTerm (symbol : Value) (coefficient : Int64) (terms : List AffineTerm) :
    (mergeTerm symbol coefficient terms).map AffineTerm.symbol =
      if some symbol ∈ terms.map AffineTerm.symbol then terms.map AffineTerm.symbol
      else terms.map AffineTerm.symbol ++ [some symbol] := by
  induction terms with
  | nil => simp [mergeTerm]
  | cons term rest ih =>
      rw [mergeTerm]
      by_cases hsymbol : term.symbol = some symbol
      · simp [hsymbol]
      · rw [if_neg hsymbol, List.map_cons, ih, List.map_cons]
        have hne : some symbol ≠ term.symbol := Ne.symm hsymbol
        by_cases hrest : some symbol ∈ rest.map AffineTerm.symbol
        · rw [if_pos hrest, if_pos (List.mem_cons_of_mem _ hrest)]
        · rw [if_neg hrest, if_neg (by simpa [hne] using hrest), List.cons_append]

theorem AffineExpr.OneTermEach.addTerm {expr : AffineExpr} (h : expr.OneTermEach)
    (symbol : Option Value) (coefficient : Int64) :
    (addTerm expr symbol coefficient).OneTermEach := by
  unfold PolyhedralPass.addTerm
  cases symbol with
  | none => exact h
  | some symbol =>
      simp only
      split_ifs with hzero
      · exact h
      · rw [OneTermEach, symbols_mergeTerm]
        split_ifs with hmem
        · exact h
        · exact List.nodup_append.mpr ⟨h, List.nodup_singleton _, by simpa using hmem⟩

theorem mem_symbols_addTerm {symbol other : Value} {expr : AffineExpr} {coefficient : Int64} :
    some symbol ∈ (addTerm expr (some other) coefficient).terms.map AffineTerm.symbol ↔
      some symbol ∈ expr.terms.map AffineTerm.symbol ∨ symbol = other ∧ coefficient ≠ 0 := by
  rw [addTerm]
  split_ifs with hzero
  · simp [hzero]
  · rw [symbols_mergeTerm]
    split_ifs with hmem
    · refine ⟨Or.inl, ?_⟩
      rintro (h | ⟨rfl, _⟩)
      · exact h
      · exact hmem
    · simp [hzero]

end Terms

section Arithmetic

-- What becomes of the coefficients of the terms that are added one by one.
variable {g : Int64 → Int64} (hg : g 0 = 0)

theorem constant_addTerm (expr : AffineExpr) (symbol : Option Value) (coefficient : Int64) :
    (addTerm expr symbol coefficient).constant = expr.constant := by
  unfold addTerm
  split
  · rfl
  · split_ifs <;> rfl

theorem constant_addTerms (terms : List AffineTerm) (expr : AffineExpr) :
    (terms.foldl (fun result term => addTerm result term.symbol (g term.coefficient))
      expr).constant = expr.constant := by
  induction terms generalizing expr with
  | nil => rfl
  | cons term rest ih => rw [List.foldl_cons, ih, constant_addTerm]

theorem AffineExpr.OneTermEach.addTerms (terms : List AffineTerm) {expr : AffineExpr}
    (h : expr.OneTermEach) : (terms.foldl
      (fun result term => PolyhedralPass.addTerm result term.symbol (g term.coefficient))
      expr).OneTermEach := by
  induction terms generalizing expr with
  | nil => exact h
  | cons term rest ih => exact ih (h.addTerm term.symbol _)

include hg in
theorem coefficientOf_addTerms (symbol : Value) {terms : List AffineTerm}
    (h : (terms.map AffineTerm.symbol).Nodup) (expr : AffineExpr) :
    coefficientOf symbol (terms.foldl
      (fun result term => addTerm result term.symbol (g term.coefficient)) expr).terms =
      coefficientOf symbol expr.terms + g (coefficientOf symbol terms) := by
  induction terms generalizing expr with
  | nil => rw [List.foldl_nil, coefficientOf, hg, Int64.add_zero]
  | cons term rest ih =>
      rw [List.map_cons, List.nodup_cons] at h
      rw [List.foldl_cons, ih h.2, coefficientOf_addTerm, coefficientOf]
      split_ifs with hsymbol
      · rw [hsymbol] at h
        rw [coefficientOf_eq_zero h.1, hg, Int64.add_zero]
      · rw [Int64.add_zero]

include hg in
/-- Terms whose coefficients have become zero are not added. -/
theorem mem_symbols_addTerms (symbol : Value) {terms : List AffineTerm}
    (hsymbols : ∀ term ∈ terms, term.symbol ≠ none) (h : (terms.map AffineTerm.symbol).Nodup)
    (expr : AffineExpr) : some symbol ∈ (terms.foldl
      (fun result term => addTerm result term.symbol (g term.coefficient)) expr).terms.map
        AffineTerm.symbol ↔
      some symbol ∈ expr.terms.map AffineTerm.symbol ∨ g (coefficientOf symbol terms) ≠ 0 := by
  induction terms generalizing expr with
  | nil => simp [coefficientOf, hg]
  | cons term rest ih =>
      rw [List.map_cons, List.nodup_cons] at h
      obtain ⟨other, hother⟩ :=
        Option.ne_none_iff_exists'.mp (hsymbols term List.mem_cons_self)
      have hrest := fun later hlater => hsymbols later (List.mem_cons_of_mem term hlater)
      rw [List.foldl_cons, ih hrest h.2, hother, mem_symbols_addTerm, coefficientOf, hother,
        or_assoc]
      refine or_congr_right ?_
      by_cases hsame : other = symbol
      · subst hsame
        rw [hother] at h
        simp [coefficientOf_eq_zero h.1, hg]
      · simp [hsame, Ne.symm hsame]

theorem AffineExpr.OneTermEach.addExpr {lhs : AffineExpr} (h : lhs.OneTermEach)
    (rhs : AffineExpr) : (addExpr lhs rhs).OneTermEach := by
  have hstart : AffineExpr.OneTermEach
      { constant := lhs.constant + rhs.constant, terms := lhs.terms } := h
  exact hstart.addTerms (g := id) rhs.terms

theorem oneTermEach_ofConstant (constant : Int64) : (AffineExpr.ofConstant constant).OneTermEach :=
  List.nodup_nil

theorem oneTermEach_mulExpr (expr : AffineExpr) (factor : Int64) :
    (mulExpr expr factor).OneTermEach :=
  AffineExpr.OneTermEach.addTerms (g := (· * factor)) expr.terms
    (oneTermEach_ofConstant (expr.constant * factor))

theorem oneTermEach_makeUnknownExpr (value : Value) : (makeUnknownExpr value).OneTermEach :=
  (oneTermEach_ofConstant 0).addTerm (some value) 1

theorem AffineExpr.Built.oneTermEach {expr : AffineExpr} (h : expr.Built) : expr.OneTermEach := by
  induction h with
  | ofConstant constant => exact oneTermEach_ofConstant constant
  | makeUnknownExpr value => exact oneTermEach_makeUnknownExpr value
  | addTerm _ symbol coefficient ih => exact ih.addTerm symbol coefficient
  | addExpr _ _ ih _ => exact ih.addExpr _
  | mulExpr _ factor _ => exact oneTermEach_mulExpr _ factor

theorem AffineExpr.OneTermEach.form_bmod {expr : AffineExpr} (h : expr.OneTermEach) :
    expr.form.bmod (2 ^ 64) = expr.form := by
  refine Prod.ext (Int64.toInt_bmod _) (Finsupp.ext fun symbol => ?_)
  have hcoeff : expr.form.2 symbol = (coefficientOf symbol expr.terms).toInt :=
    termsForm_apply h symbol
  rw [LinearForm.bmod, Finsupp.mapRange_apply, hcoeff]
  exact Int64.toInt_bmod _

/-- `addTerm` adds a multiple of a variable. -/
theorem form_addTerm {expr : AffineExpr} (h : expr.OneTermEach) (symbol : Value)
    (coefficient : Int64) : (addTerm expr (some symbol) coefficient).form =
      (expr.form + coefficient.toInt • LinearForm.var symbol).bmod (2 ^ 64) := by
  refine Prod.ext ?_ (Finsupp.ext fun other => ?_)
  · rw [AffineExpr.form, constant_addTerm]
    simp [AffineExpr.form, LinearForm.var, LinearForm.bmod]
  · rw [AffineExpr.form, termsForm_apply (h.addTerm _ _), coefficientOf_addTerm, Int64.toInt_add,
      ← termsForm_apply h]
    rcases eq_or_ne symbol other with rfl | hne
    · simp [AffineExpr.form, LinearForm.var, LinearForm.bmod]
    · simp [AffineExpr.form, LinearForm.var, LinearForm.bmod, hne]

/-- `addExpr` adds linear forms. -/
theorem form_addExpr {lhs rhs : AffineExpr} (hl : lhs.OneTermEach) (hr : rhs.OneTermEach) :
    (addExpr lhs rhs).form = (lhs.form + rhs.form).bmod (2 ^ 64) := by
  have hconstant : (addExpr lhs rhs).constant = lhs.constant + rhs.constant :=
    constant_addTerms (g := id) rhs.terms _
  refine Prod.ext ?_ (Finsupp.ext fun symbol => ?_)
  · rw [AffineExpr.form, hconstant]
    exact Int64.toInt_add lhs.constant rhs.constant
  · have hcoeff : coefficientOf symbol (addExpr lhs rhs).terms =
        coefficientOf symbol lhs.terms + coefficientOf symbol rhs.terms :=
      coefficientOf_addTerms (g := id) rfl symbol hr _
    rw [AffineExpr.form, termsForm_apply (hl.addExpr rhs), hcoeff, Int64.toInt_add,
      ← termsForm_apply hl, ← termsForm_apply hr]
    rfl

theorem form_apply {expr : AffineExpr} (h : expr.OneTermEach) (symbol : Value) :
    expr.form.2 symbol = (coefficientOf symbol expr.terms).toInt := termsForm_apply h symbol

theorem form_apply_ne_zero {expr : AffineExpr} (h : expr.OneTermEach) {symbol : Value} :
    expr.form.2 symbol ≠ 0 ↔ coefficientOf symbol expr.terms ≠ 0 := by
  rw [form_apply h, ne_eq, ← Int64.toInt_zero, Int64.toInt_inj]

theorem mem_symbols_addExpr {lhs rhs : AffineExpr} (hr : rhs.OneTermEach)
    (hsymbols : ∀ term ∈ rhs.terms, term.symbol ≠ none) {symbol : Value} :
    some symbol ∈ (addExpr lhs rhs).terms.map AffineTerm.symbol ↔
      some symbol ∈ lhs.terms.map AffineTerm.symbol ∨ rhs.form.2 symbol ≠ 0 := by
  rw [form_apply_ne_zero hr]
  exact mem_symbols_addTerms (g := id) rfl symbol hsymbols hr _

theorem mem_symbols_mulExpr {expr : AffineExpr} (h : expr.OneTermEach)
    (hsymbols : ∀ term ∈ expr.terms, term.symbol ≠ none) {factor : Int64} {symbol : Value} :
    some symbol ∈ (mulExpr expr factor).terms.map AffineTerm.symbol ↔
      (mulExpr expr factor).form.2 symbol ≠ 0 := by
  have hcoeff : coefficientOf symbol (mulExpr expr factor).terms =
      0 + coefficientOf symbol expr.terms * factor :=
    coefficientOf_addTerms (g := (· * factor)) Int64.zero_mul symbol h _
  rw [form_apply_ne_zero (oneTermEach_mulExpr expr factor), hcoeff, Int64.zero_add]
  exact (mem_symbols_addTerms (g := (· * factor)) Int64.zero_mul symbol hsymbols h _).trans
    (or_iff_right List.not_mem_nil)

theorem mulExpr_makeUnknownExpr_apply {symbol iv : Value} {factor : Int64} :
    (mulExpr (makeUnknownExpr iv) factor).form.2 symbol ≠ 0 ↔
      symbol = iv ∧ factor.toInt ≠ 0 := by
  have hterm : some symbol ∈ (mulExpr (makeUnknownExpr iv) factor).terms.map AffineTerm.symbol ↔
      some symbol ∈ ([] : List AffineTerm).map AffineTerm.symbol ∨
        symbol = iv ∧ 1 * factor ≠ 0 := mem_symbols_addTerm
  have hsymbols : ∀ term ∈ (makeUnknownExpr iv).terms, term.symbol ≠ none := by
    intro term hterm
    obtain rfl : term = ⟨some iv, 1⟩ := List.mem_singleton.mp hterm
    exact Option.some_ne_none iv
  rw [← mem_symbols_mulExpr (oneTermEach_makeUnknownExpr iv) hsymbols, hterm, Int64.one_mul,
    ← Int64.toInt_zero, ne_eq factor.toInt, Int64.toInt_inj]
  exact or_iff_right List.not_mem_nil

/-- `mulExpr` multiplies a linear form. -/
theorem form_mulExpr {expr : AffineExpr} (h : expr.OneTermEach) (factor : Int64) :
    (mulExpr expr factor).form = (factor.toInt • expr.form).bmod (2 ^ 64) := by
  have hconstant : (mulExpr expr factor).constant = expr.constant * factor :=
    constant_addTerms (g := (· * factor)) expr.terms _
  refine Prod.ext ?_ (Finsupp.ext fun symbol => ?_)
  · rw [AffineExpr.form, hconstant, Int64.toInt_mul, mul_comm]
    rfl
  · have hcoeff : coefficientOf symbol (mulExpr expr factor).terms =
        0 + coefficientOf symbol expr.terms * factor :=
      coefficientOf_addTerms (g := (· * factor)) Int64.zero_mul symbol h _
    rw [AffineExpr.form, termsForm_apply (oneTermEach_mulExpr expr factor), hcoeff, Int64.zero_add,
      Int64.toInt_mul, ← termsForm_apply h, mul_comm]
    rfl

theorem form_ofConstant (constant : Int64) :
    (AffineExpr.ofConstant constant).form = LinearForm.const constant.toInt := rfl

theorem form_makeUnknownExpr (value : Value) :
    (makeUnknownExpr value).form = LinearForm.var value := by
  refine Prod.ext rfl ?_
  have hterms : (makeUnknownExpr value).terms = [⟨some value, 1⟩] := rfl
  rw [AffineExpr.form, hterms, termsForm]
  simp [LinearForm.var]

end Arithmetic

end PolyhedralPass
