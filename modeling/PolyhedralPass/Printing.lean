/-
Printed expressions as functions of their symbols: what isl reads where the pass has
printed an affine expression has the value of the expression, but for the smallest
coefficient, zeros that run into what stands in front of them, and names that are
keywords of isl.
-/
import PolyhedralPass.Acceptance
import PolyhedralPass.Algebra
import Mathlib.Algebra.BigOperators.Group.List.Lemmas

namespace PolyhedralPass

open Isl

section Denotation

variable (F : Function) (vars : Vars)

/-- isl reads a printed expression to its end, as the affine function it is printed from,
whatever values the symbols have at the positions of their names. -/
def PrintDenotes (expr : AffineExpr) : Prop :=
  ∃ aff, acceptAffine vars (tokens (toISLString F expr).toList) = some (aff, []) ∧
    ∀ (val : Value → Int) (env : List Int),
      (∀ term ∈ expr.terms, ∀ symbol, term.symbol = some symbol → ∃ pos,
        varsPos vars (termName F term) = some pos ∧ env[pos]? = some (val symbol)) →
      aff.eval env = some (expr.eval val)

/-- No name is a keyword, no coefficient is the smallest one, and nothing stands in front
of a coefficient of zero. -/
structure Printable (expr : AffineExpr) : Prop where
  identifier : ∀ term ∈ expr.terms, checkKeywords (termName F term) = none
  smallest : ∀ term ∈ expr.terms, term.coefficient ≠ Int64.minValue
  zero : ∀ (k : Nat) (term : AffineTerm), expr.terms[k]? = some term → term.coefficient = 0 →
    k = 0 ∧ expr.constant = 0

/-- Every name has a position. -/
def NamesInScope (expr : AffineExpr) : Prop :=
  ∀ term ∈ expr.terms, (varsPos vars (termName F term)).isSome

/-- Distinct symbols are printed as distinct identifiers. -/
def NamesDiffer (expr : AffineExpr) : Prop := (expr.terms.map (termName F)).Nodup

instance (expr : AffineExpr) : Decidable (NamesInScope F vars expr) :=
  inferInstanceAs (Decidable (∀ term ∈ expr.terms, (varsPos vars (termName F term)).isSome))

instance (expr : AffineExpr) : Decidable (NamesDiffer F expr) :=
  inferInstanceAs (Decidable (expr.terms.map (termName F)).Nodup)

variable {F vars} {expr : AffineExpr} {val : Value → Int}

theorem getElem?_varsPos {name : String} {pos : Nat} (hpos : varsPos vars name = some pos)
    (values : String → Int) :
    (vars.map fun item => item.elim 0 values)[pos]? = some (values name) := by
  rw [varsPos, List.findIdx?_eq_some_iff_getElem] at hpos
  obtain ⟨hlt, hname, _⟩ := hpos
  rw [List.getElem?_map, List.getElem?_eq_getElem hlt, beq_iff_eq.mp hname]
  rfl

/-- The value of terms whose words have the values of their symbols. -/
theorem readTerms_eq {env : List Int} {terms : List AffineTerm} (h : ∀ term ∈ terms,
    wordEval vars (termName F term) env = some (term.symbol.elim 0 val)) (sum : Int) :
    readTerms F vars env (some sum) terms = some (sum +
      (terms.map fun term => readCoeff term.coefficient * term.symbol.elim 0 val).sum) := by
  induction terms generalizing sum with
  | nil => simp [readTerms]
  | cons term rest ih =>
      have hrest := ih fun later hlater => h later (List.mem_cons_of_mem term hlater)
      rw [readTerms_cons, Option.bind_some, h term List.mem_cons_self, Option.map_some, hrest,
        List.map_cons, List.sum_cons, add_assoc]

theorem readTerms_none (env : List Int) (terms : List AffineTerm) :
    readTerms F vars env none terms = none := by
  induction terms with
  | nil => rfl
  | cons term rest ih => rwa [readTerms_cons, Option.bind_none]

theorem readTerms_of_wordEval_none {env : List Int} {terms : List AffineTerm} {term : AffineTerm}
    (hterm : term ∈ terms) (h : wordEval vars (termName F term) env = none) (sum : Option Int) :
    readTerms F vars env sum terms = none := by
  induction terms generalizing sum with
  | nil => exact absurd hterm List.not_mem_nil
  | cons first rest ih =>
      rw [readTerms_cons]
      rcases List.mem_cons.mp hterm with rfl | hterm
      · simp only [h, Option.map_none, Option.bind_fun_none]
        exact readTerms_none env rest
      · exact ih hterm _

/-- An expression with a word that has no value has none itself. -/
theorem readExpr_of_wordEval_none {env : List Int} {term : AffineTerm} (hterm : term ∈ expr.terms)
    (h : wordEval vars (termName F term) env = none) : readExpr F vars expr env = none := by
  unfold readExpr
  split
  · rename_i hnil
    exact absurd (hnil ▸ hterm) List.not_mem_nil
  · rename_i first rest hcons
    rw [hcons] at hterm
    split_ifs
    · rcases List.mem_cons.mp hterm with rfl | hterm
      · rw [h]
        exact readTerms_none env rest
      · exact readTerms_of_wordEval_none hterm h _
    · exact readTerms_of_wordEval_none hterm h _

theorem evalTerms_eq_sum (terms : List AffineTerm) : evalTerms val terms =
    (terms.map fun term => term.coefficient.toInt * term.symbol.elim 0 val).sum := by
  rw [evalTerms]
  congr 2
  funext term
  rw [AffineTerm.eval]
  cases term.symbol with
  | none => exact (mul_zero _).symm
  | some symbol => rfl

theorem wordEval_eq {word : String} (hkeyword : checkKeywords word = none) {pos : Nat}
    (hpos : varsPos vars word = some pos) (env : List Int) :
    wordEval vars word env = env[pos]? := by
  have hword : wordPos vars word = some pos := by
    rw [wordPos, wordToken, hkeyword]
    exact hpos
  rw [wordEval, hword]
  rfl

theorem wordPos_of_keyword {word : String} (hkeyword : checkKeywords word ≠ none) :
    wordPos vars word = none := by
  obtain ⟨keyword, hsome⟩ := Option.ne_none_iff_exists'.mp hkeyword
  rw [wordPos, wordToken, hsome]

theorem tokens_printed (hsymbols : expr.HasSymbols) :
    tokens (toISLString F expr).toList = exprTokens F expr := by
  have htokens := tokens_toISLString F hsymbols boundary_nil
  rw [List.append_nil] at htokens
  rw [htokens, tokens_nil, List.append_nil]

/-- What is read of an expression has the value the readings give. -/
theorem PrintDenotes.readExpr_eq (h : PrintDenotes F vars expr) (hsymbols : expr.HasSymbols) :
    exprReadable F vars expr = true ∧ ∀ (val : Value → Int) (env : List Int),
      (∀ term ∈ expr.terms, ∀ symbol, term.symbol = some symbol → ∃ pos,
        varsPos vars (termName F term) = some pos ∧ env[pos]? = some (val symbol)) →
      readExpr F vars expr env = some (expr.eval val) := by
  obtain ⟨aff, haccept, heval⟩ := h
  rw [tokens_printed hsymbols] at haccept
  by_cases hreadable : exprReadable F vars expr = true
  · obtain ⟨aff', haccept', heval'⟩ := acceptAffine_exprTokens F vars hreadable
    have hself := haccept' [] endsSum_nil
    rw [List.append_nil, haccept, Option.some.injEq] at hself
    obtain rfl : aff = aff' := (Prod.mk.inj hself).1
    exact ⟨hreadable, fun val env henv => (heval' env).symm.trans (heval val env henv)⟩
  · have hnone := acceptAffine_exprTokens_none F vars hreadable []
    rw [List.append_nil, haccept] at hnone
    exact absurd hnone (by simp)

/-- Values for the names are values for the symbols. -/
theorem NamesInScope.exists_pos (hscope : NamesInScope F vars expr) (val : Value → Int)
    (values : String → Int)
    (hval : ∀ term ∈ expr.terms, ∀ symbol, term.symbol = some symbol →
      val symbol = values (termName F term)) :
    ∀ term ∈ expr.terms, ∀ symbol, term.symbol = some symbol → ∃ pos,
      varsPos vars (termName F term) = some pos ∧
        (vars.map fun item => item.elim 0 values)[pos]? = some (val symbol) := by
  intro term hterm symbol hsymbol
  obtain ⟨pos, hpos⟩ := Option.isSome_iff_exists.mp (hscope term hterm)
  exact ⟨pos, hpos, by rw [getElem?_varsPos hpos, hval term hterm symbol hsymbol]⟩

theorem PrintDenotes.identifier (h : PrintDenotes F vars expr) (hsymbols : expr.HasSymbols)
    (hscope : NamesInScope F vars expr) :
    ∀ term ∈ expr.terms, checkKeywords (termName F term) = none := by
  intro term hterm
  by_contra hkeyword
  have hread := (h.readExpr_eq hsymbols).2 0 _
    (hscope.exists_pos 0 (fun _ => 0) fun _ _ _ _ => rfl)
  have hnone : wordEval vars (termName F term) (vars.map fun item => item.elim 0 fun _ => 0) =
      none := by
    rw [wordEval, wordPos_of_keyword hkeyword, Option.bind_none]
  rw [readExpr_of_wordEval_none hterm hnone] at hread
  exact absurd hread (by simp)

theorem wordEval_symbols
    (hidentifier : ∀ term ∈ expr.terms, checkKeywords (termName F term) = none)
    (hsymbols : expr.HasSymbols) {env : List Int} (henv : ∀ term ∈ expr.terms,
      ∀ symbol, term.symbol = some symbol → ∃ pos,
        varsPos vars (termName F term) = some pos ∧ env[pos]? = some (val symbol)) :
    ∀ term ∈ expr.terms,
      wordEval vars (termName F term) env = some (term.symbol.elim 0 val) := by
  intro term hterm
  obtain ⟨symbol, hsymbol⟩ := Option.ne_none_iff_exists'.mp (hsymbols term hterm)
  obtain ⟨pos, hpos, hvalue⟩ := henv term hterm symbol hsymbol
  rw [wordEval_eq (hidentifier term hterm) hpos, hvalue, hsymbol]
  rfl

/-- Without a constant in front of a zero, the coefficients are read as they are printed. -/
theorem readExpr_eq_sum {env : List Int} (hwords : ∀ term ∈ expr.terms,
    wordEval vars (termName F term) env = some (term.symbol.elim 0 val))
    (hzero : ∀ (k : Nat) (term : AffineTerm), expr.terms[k]? = some term →
      term.coefficient = 0 → k = 0 ∧ expr.constant = 0) :
    readExpr F vars expr env = some (expr.constant.toInt +
      (expr.terms.map fun term => readCoeff term.coefficient * term.symbol.elim 0 val).sum) := by
  have hread := readTerms_eq hwords expr.constant.toInt
  unfold readExpr
  split
  · rename_i hnil
    simp [hnil]
  · rename_i first rest hcons
    rw [hcons] at hread
    have hfirst : ¬ (expr.constant ≠ 0 ∧ first.coefficient = 0) := by
      rintro ⟨hconstant, hcoefficient⟩
      exact hconstant (hzero 0 first (by rw [hcons]; rfl) hcoefficient).2
    rw [if_neg hfirst, hread, hcons]

theorem PrintDenotes.zero (h : PrintDenotes F vars expr) (hsymbols : expr.HasSymbols)
    (hscope : NamesInScope F vars expr) :
    ∀ (k : Nat) (term : AffineTerm), expr.terms[k]? = some term → term.coefficient = 0 →
      k = 0 ∧ expr.constant = 0 := by
  intro k term hterm hcoefficient
  obtain ⟨hreadable, hread⟩ := h.readExpr_eq hsymbols
  obtain ⟨constant, terms⟩ := expr
  cases terms with
  | nil => exact absurd hterm (by simp)
  | cons first rest =>
      obtain ⟨_, _, hrest⟩ := (exprReadable_iff F vars).mp hreadable
      cases k with
      | succ k =>
          rw [List.getElem?_cons_succ] at hterm
          exact absurd hcoefficient (hrest term (List.mem_of_getElem? hterm))
      | zero =>
          obtain rfl : first = term := Option.some.inj hterm
          refine ⟨rfl, ?_⟩
          by_contra hconstant
          -- where all symbols are zero, the constant is read as a factor of zero
          have henv := hscope.exists_pos 0 (fun _ => 0) fun _ _ _ _ => rfl
          have hwords := wordEval_symbols (h.identifier hsymbols hscope) hsymbols henv
          have hfirst := hwords first List.mem_cons_self
          have hvalues : ∀ symbol : Option Value, symbol.elim 0 (0 : Value → Int) = 0 := by
            intro symbol
            cases symbol <;> rfl
          have hsum := readTerms_eq
            (fun later hlater => hwords later (List.mem_cons_of_mem first hlater)) 0
          have hvalue := hread 0 _ henv
          simp only [readExpr, hfirst, hvalues, ne_eq, hconstant, not_false_eq_true, hcoefficient,
            and_self, if_true, Option.map_some, mul_zero] at hvalue
          simp only [hvalues, mul_zero, List.map_const', List.sum_replicate, smul_zero,
            add_zero] at hsum
          rw [hsum, AffineExpr.eval, evalTerms_eq_sum] at hvalue
          simp only [hvalues, mul_zero, List.map_const', List.sum_replicate, smul_zero, add_zero,
            Option.some.injEq] at hvalue
          exact hconstant (Int64.toInt_inj.mp hvalue.symm)

theorem PrintDenotes.smallest (h : PrintDenotes F vars expr) (hsymbols : expr.HasSymbols)
    (honce : expr.OneTermEach) (hscope : NamesInScope F vars expr)
    (hnames : NamesDiffer F expr) : ∀ term ∈ expr.terms, term.coefficient ≠ Int64.minValue := by
  intro term hterm hcoefficient
  have hidentifier := h.identifier hsymbols hscope
  -- the symbol of the term is one and the other symbols are zero
  let val := fun symbol : Value => if term.symbol = some symbol then (1 : Int) else 0
  have hval : ∀ t ∈ expr.terms, ∀ symbol, t.symbol = some symbol →
      val symbol = if termName F t = termName F term then 1 else 0 := by
    intro t ht symbol hsymbol
    have hsame : term.symbol = some symbol ↔ termName F t = termName F term := by
      rw [← hsymbol]
      constructor
      · intro heq
        rw [List.inj_on_of_nodup_map honce hterm ht heq]
      · intro heq
        rw [List.inj_on_of_nodup_map hnames ht hterm heq]
    simp only [val, hsame]
  have henv := hscope.exists_pos val (fun name => if name = termName F term then 1 else 0) hval
  have hwords := wordEval_symbols hidentifier hsymbols henv
  have hread := readExpr_eq_sum hwords (h.zero hsymbols hscope)
  rw [(h.readExpr_eq hsymbols).2 val _ henv, Option.some.injEq, AffineExpr.eval, evalTerms_eq_sum,
    add_left_cancel_iff] at hread
  have hsum : ∀ coefficient : Int64 → Int, (expr.terms.map fun t =>
      coefficient t.coefficient * t.symbol.elim 0 val).sum = coefficient term.coefficient := by
    intro coefficient
    have honly : ∀ t ∈ expr.terms, coefficient t.coefficient * t.symbol.elim 0 val =
        if t = term then coefficient t.coefficient else 0 := by
      intro t ht
      obtain ⟨symbol, hsymbol⟩ := Option.ne_none_iff_exists'.mp (hsymbols t ht)
      have hsame : term.symbol = some symbol ↔ t = term := by
        rw [← hsymbol]
        exact ⟨fun heq => List.inj_on_of_nodup_map honce ht hterm heq.symm, fun heq => heq ▸ rfl⟩
      simp only [hsymbol, Option.elim_some, val, hsame, mul_ite, mul_one, mul_zero]
    have hcount : expr.terms.count term = 1 :=
      List.count_eq_one_of_mem (List.Nodup.of_map _ honce) hterm
    rw [List.map_congr_left honly, List.sum_map_ite_eq, hcount]
    simp
  rw [hsum, hsum, hcoefficient] at hread
  exact absurd hread (by decide)

/-- Such expressions are read as what they are. -/
theorem Printable.denotes (h : Printable F expr) (hsymbols : expr.HasSymbols)
    (hscope : NamesInScope F vars expr) : PrintDenotes F vars expr := by
  have hreadable : exprReadable F vars expr = true := by
    rw [exprReadable, Bool.and_eq_true, List.all_eq_true, List.all_eq_true]
    constructor
    · intro term hterm
      obtain ⟨pos, hpos⟩ := Option.isSome_iff_exists.mp (hscope term hterm)
      have hword : wordPos vars (termName F term) = some pos := by
        rw [wordPos, wordToken, h.identifier term hterm]
        exact hpos
      rw [termReadable, multipleReadable, hword]
      rfl
    · intro term hterm
      obtain ⟨k, hk⟩ := List.getElem?_of_mem hterm
      rw [List.getElem?_tail] at hk
      rw [bne_iff_ne]
      exact fun hzero => absurd (h.zero (k + 1) term hk hzero).1 (Nat.succ_ne_zero k)
  obtain ⟨aff, haccept, heval⟩ := acceptAffine_exprTokens F vars hreadable
  have hself := haccept [] endsSum_nil
  rw [List.append_nil] at hself
  refine ⟨aff, by rw [tokens_printed hsymbols, hself], ?_⟩
  intro val env henv
  have hcoefficients : ∀ term ∈ expr.terms, readCoeff term.coefficient * term.symbol.elim 0 val =
      term.coefficient.toInt * term.symbol.elim 0 val := by
    intro term hterm
    have hmin : (Int64.minValue).toInt ≠ term.coefficient.toInt := fun heq =>
      h.smallest term hterm (Int64.toInt_inj.mp heq).symm
    have hle := Int64.minValue_le_toInt term.coefficient
    rw [readCoeff_eq (lt_of_le_of_ne hle hmin)]
  rw [heval, readExpr_eq_sum (wordEval_symbols h.identifier hsymbols henv) h.zero,
    List.map_congr_left hcoefficients, AffineExpr.eval, evalTerms_eq_sum]

end Denotation

/-- A printed expression denotes itself exactly if it is printable. -/
theorem printDenotes_iff (F : Function) (vars : Vars) (expr : AffineExpr) (hbuilt : expr.Built)
    (hscope : NamesInScope F vars expr) (hnames : NamesDiffer F expr) :
    PrintDenotes F vars expr ↔ Printable F expr := by
  have hsymbols := hbuilt.hasSymbols
  constructor
  · intro h
    exact ⟨h.identifier hsymbols hscope, h.smallest hsymbols hbuilt.oneTermEach hscope hnames,
      h.zero hsymbols hscope⟩
  · exact fun h => h.denotes hsymbols hscope

/-- The expression `3 - 2*A`. -/
def differenceExpr : AffineExpr := addTerm (.ofConstant 3) (some 30) (-2)

theorem differenceExpr_denotes :
    PrintDenotes (Payload.function {} .slt) [some "A"] differenceExpr := by
  refine (printDenotes_iff (Payload.function {} .slt) [some "A"] differenceExpr
    ((AffineExpr.Built.ofConstant 3).addTerm (some 30) (-2)) (by decide) (by decide)).mpr
    ⟨by decide, by decide, ?_⟩
  intro k term hterm hzero
  have hall : ∀ term ∈ differenceExpr.terms, term.coefficient ≠ 0 := by decide
  exact absurd hzero (hall term (List.mem_of_getElem? hterm))

/-- The expression `3 + A - A`. -/
def cancelledExpr : AffineExpr :=
  addTerm (addTerm (.ofConstant 3) (some 30) 1) (some 30) (-1)

example : toISLString (Payload.function {} .slt) cancelledExpr = "30*A" := by decide

/-- Behind the constant, the `0*` of a symbol that has cancelled makes it a factor. -/
theorem not_forall_printDenotes : ¬ ∀ (F : Function) (vars : Vars) (expr : AffineExpr),
    expr.Built → NamesInScope F vars expr → NamesDiffer F expr → PrintDenotes F vars expr := by
  intro hall
  have hbuilt : cancelledExpr.Built :=
    ((AffineExpr.Built.ofConstant 3).addTerm (some 30) 1).addTerm (some 30) (-1)
  have hscope : NamesInScope (Payload.function {} .slt) [some "A"] cancelledExpr := by decide
  have hdenotes := hall _ _ cancelledExpr hbuilt hscope (by decide)
  have hzero := hdenotes.zero hbuilt.hasSymbols hscope 0 ⟨some 30, 0⟩ rfl rfl
  exact absurd hzero.2 (by decide)

end PolyhedralPass
