/-
What isl reads where the pass has printed an affine expression: the names stand
for the positions in scope, and the coefficients for the numbers printed.
-/
import PolyhedralPass.Isl.Affine
import PolyhedralPass.Reading.Tokens

namespace PolyhedralPass

open Isl

/-- The coefficient as the printed sign and absolute value give it. -/
def readCoeff (coefficient : Int64) : Int :=
  signOf (coefficient < 0) * (absCoeff coefficient).toInt

/-- `std::abs` fails for the smallest coefficient only. -/
theorem readCoeff_eq {coefficient : Int64} (hmin : -2 ^ 63 < coefficient.toInt) :
    readCoeff coefficient = coefficient.toInt := by
  unfold readCoeff absCoeff
  by_cases hneg : coefficient < 0
  · have hneg' : (-coefficient).toInt = -coefficient.toInt := by
      have hlt := Int64.lt_iff_toInt_lt.mp hneg
      have hzero : (0 : Int64).toInt = 0 := rfl
      rw [Int64.toInt_neg]
      exact Int.bmod_eq_of_le (by omega) (by omega)
    simp only [hneg, decide_true, signOf, if_true, hneg']
    ring
  · simp [hneg, signOf]

section Readings

variable (F : Function) (vars : Vars)

/-- Whether isl can read a term. -/
def termReadable (term : AffineTerm) : Bool :=
  multipleReadable vars (absCoeff term.coefficient).toInt (termName F term)

/-- Whether isl can read an expression: it can read every term, and no term but
the first has the coefficient zero, which would be glued to the word before. -/
def exprReadable (expr : AffineExpr) : Bool :=
  expr.terms.all (termReadable F vars) &&
    expr.terms.tail.all fun term => term.coefficient != 0

/-- The value of further terms after a sum. -/
def readTerms (env : List Int) (sum : Option Int) (terms : List AffineTerm) : Option Int :=
  terms.foldl (fun sum term => sum.bind fun a =>
    (wordEval vars (termName F term) env).map fun b => a + readCoeff term.coefficient * b) sum

/-- The value of an expression as isl reads it.  A zero after the constant makes
the constant ten times as large and the coefficient of the first term. -/
def readExpr (expr : AffineExpr) (env : List Int) : Option Int :=
  match expr.terms with
  | [] => some expr.constant.toInt
  | term :: rest =>
      if expr.constant ≠ 0 ∧ term.coefficient = 0 then
        readTerms F vars env
          ((wordEval vars (termName F term) env).map fun b => 10 * expr.constant.toInt * b) rest
      else readTerms F vars env (some expr.constant.toInt) (term :: rest)

/-- A word extended by a zero is no keyword. -/
theorem wordToken_append_zero (word : String) :
    wordToken (word ++ "0") = .ident (word ++ "0") := by
  have hnone : checkKeywords (word ++ "0") = none :=
    checkKeywords_append (c := '0') (by decide) (by decide) word
  rw [wordToken, hnone]

theorem isNan_append_zero (word : String) : isNan (word ++ "0") = false := by
  rw [isNan, wordToken_append_zero]

theorem endsFactor_sepTokens {coefficient : Int64} (hzero : coefficient ≠ 0) (s : Stream) :
    EndsFactor (sepTokens true coefficient ++ s) := by
  intro tok htok
  rcases sepTokens_eq hzero with h | h
  · obtain rfl : Token.char '-' = tok := by simpa [h] using htok
    rfl
  · obtain rfl : Token.char '+' = tok := by simpa [h] using htok
    rfl

/-- The separator of a term sets the operator for it. -/
theorem continues_sepTokens {res : Aff} {coefficient : Int64} (hzero : coefficient ≠ 0)
    {s : Stream} {out : Option (Aff × Stream)}
    (h : Reads vars res (coefficient < 0) false s out) :
    Continues vars res (sepTokens true coefficient ++ s) out := by
  unfold sepTokens
  by_cases hneg : coefficient < 0
  · simp only [hneg, decide_true] at h
    rw [if_pos hneg]
    exact h
  · have hpos := int64_pos_of_not_neg hzero hneg
    simp only [hneg, decide_false] at h
    rw [if_neg hneg, if_pos (by simpa using hpos)]
    exact h

theorem readTerms_cons (env : List Int) (sum : Option Int) (term : AffineTerm)
    (rest : List AffineTerm) :
    readTerms F vars env sum (term :: rest) =
      readTerms F vars env (sum.bind fun a =>
        (wordEval vars (termName F term) env).map fun b =>
          a + readCoeff term.coefficient * b) rest := rfl

/-- The words and terms behind a factor are read to their end. -/
theorem reads_tailTokens {terms : List AffineTerm}
    (hterms : ∀ term ∈ terms, termReadable F vars term)
    (hzeros : ∀ term ∈ terms, term.coefficient ≠ 0) (n : Int) (word : String)
    (hword : multipleReadable vars n word) (res : Aff) (negOp negSign : Bool) :
    ∃ res', (∀ s, EndsSum s → Reads vars res negOp negSign
        (factorTokens n ++ (tailTokens F word terms ++ s)) (some (res', s))) ∧
      ∀ env, res'.eval env = readTerms F vars env ((res.eval env).bind fun a =>
        (wordEval vars word env).map fun b => a + signOf negOp * signOf negSign * n * b)
        terms := by
  obtain ⟨res₁, hadds, hreads⟩ := reads_multiple vars res negOp negSign n hword
  induction terms generalizing word n res negOp negSign res₁ with
  | nil => exact ⟨res₁, fun s hs => hreads s hs.endsFactor _ (hs.continues vars res₁), hadds⟩
  | cons term terms ih =>
      have hzero := hzeros term (by simp)
      have hterm := hterms term (by simp)
      obtain ⟨res₂, hadds₂, hreads₂⟩ := reads_multiple vars res₁ (term.coefficient < 0) false
        (absCoeff term.coefficient).toInt hterm
      obtain ⟨res₃, hread, heval⟩ := ih (fun t ht => hterms t (List.mem_cons_of_mem term ht))
        (fun t ht => hzeros t (List.mem_cons_of_mem term ht)) _ _ hterm res₁
        (term.coefficient < 0) false res₂ hadds₂ hreads₂
      refine ⟨res₃, ?_, ?_⟩
      · intro s hs
        have hall := hreads _ (endsFactor_sepTokens hzero _) _
          (continues_sepTokens vars hzero (hread s hs))
        rw [tailTokens, if_neg hzero]
        simpa only [coeffTokens, List.append_assoc, List.cons_append] using hall
      · intro env
        have hsign : signOf (decide (term.coefficient < 0)) * signOf false *
            (absCoeff term.coefficient).toInt = readCoeff term.coefficient := by
          simp [readCoeff, signOf]
        rw [heval, hadds, readTerms_cons, hsign]

theorem tailTokens_eq_cons (word : String) (terms : List AffineTerm) :
    ∃ word' tail, tailTokens F word terms = wordToken word' :: tail := by
  cases terms with
  | nil => exact ⟨word, [], rfl⟩
  | cons term rest =>
      rw [tailTokens]
      split_ifs
      · exact ⟨word ++ "0", _, rfl⟩
      · exact ⟨word, _, rfl⟩

theorem reads_multiple_none {n : Int} {word : String} (hword : ¬ multipleReadable vars n word)
    (res : Aff) (negOp negSign : Bool) (s : Stream) :
    Reads vars res negOp negSign (factorTokens n ++ wordToken word :: s) none := by
  simp only [multipleReadable, Bool.or_eq_true, Option.isSome_iff_ne_none, Bool.and_eq_true,
    beq_iff_eq, not_or, not_not, not_and, Bool.not_eq_true] at hword
  exact reads_factor_none vars res negOp negSign n hword.2
    (acceptAffineFactor_wordToken_none vars hword.1 s)

/-- Where a further term cannot be read, or is glued to the word in front of it,
nothing is read. -/
theorem reads_tailTokens_none (terms : List AffineTerm) (n : Int) (word : String)
    (hbad : ¬ (multipleReadable vars n word ∧
      (∀ term ∈ terms, termReadable F vars term) ∧ ∀ term ∈ terms, term.coefficient ≠ 0))
    (res : Aff) (negOp negSign : Bool) (s : Stream) :
    Reads vars res negOp negSign (factorTokens n ++ (tailTokens F word terms ++ s)) none := by
  induction terms generalizing word n res negOp negSign with
  | nil =>
      have hword : ¬ multipleReadable vars n word := by
        intro hword
        exact hbad ⟨hword, by simp, by simp⟩
      exact reads_multiple_none vars hword res negOp negSign s
  | cons term terms ih =>
      by_cases hzero : term.coefficient = 0
      · -- the word in front has become another one, multiplied by a word
        rw [tailTokens, if_pos hzero]
        obtain ⟨word', tail, htail⟩ := tailTokens_eq_cons F (termName F term) terms
        rw [htail]
        exact reads_factor_none vars res negOp negSign n (fun _ => isNan_append_zero word)
          (acceptAffineFactor_product_none vars (wordToken_append_zero word) (tail ++ s))
      · by_cases hword : multipleReadable vars n word
        · obtain ⟨res₁, _, hreads⟩ := reads_multiple vars res negOp negSign n hword
          have hnext := ih (absCoeff term.coefficient).toInt (termName F term)
            (fun hall => hbad ⟨hword, by simpa using ⟨⟨hall.1, hall.2.1⟩, hzero, hall.2.2⟩⟩)
            res₁ (term.coefficient < 0) false
          have hall := hreads _ (endsFactor_sepTokens hzero _) _
            (continues_sepTokens vars hzero hnext)
          rw [tailTokens, if_neg hzero]
          simpa only [coeffTokens, List.append_assoc, List.cons_append] using hall
        · rw [tailTokens, if_neg hzero]
          simpa only [List.append_assoc, List.cons_append] using
            reads_multiple_none vars hword res negOp negSign _

/-- A sign in front of the first term of an expression. -/
theorem reads_firstSign {res : Aff} {coefficient : Int64} {s : Stream}
    {out : Option (Aff × Stream)} (h : Reads vars res false (coefficient < 0) s out) :
    Reads vars res false false (sepTokens false coefficient ++ s) out := by
  unfold sepTokens
  by_cases hneg : coefficient < 0
  · simp only [hneg, decide_true] at h
    rw [if_pos hneg]
    exact reads_minus h
  · simp only [hneg, decide_false] at h
    rw [if_neg hneg]
    exact h

theorem acceptAffine_of_reads {s : Stream} {out : Option (Aff × Stream)}
    (h : Reads vars (.cst 0) false false s out) : acceptAffine vars s = out :=
  h _ (Nat.lt_succ_self _)

theorem exprReadable_iff {constant : Int64} {term : AffineTerm} {rest : List AffineTerm} :
    exprReadable F vars ⟨constant, term :: rest⟩ ↔
      termReadable F vars term ∧ (∀ t ∈ rest, termReadable F vars t) ∧
        ∀ t ∈ rest, t.coefficient ≠ 0 := by
  simp [exprReadable, and_assoc]

/-- With a coefficient of zero or more than nine, only a word in scope is read. -/
theorem multipleReadable_of_ne_one {n : Int} (hn : n ≠ 1) (word : String) :
    multipleReadable vars n word = (wordPos vars word).isSome := by
  simp [multipleReadable, hn]

theorem termReadable_of_zero {term : AffineTerm} (hzero : term.coefficient = 0) :
    termReadable F vars term = (wordPos vars (termName F term)).isSome := by
  rw [termReadable, hzero]
  exact multipleReadable_of_ne_one vars (by decide) _

/-- isl reads a printed expression as its value at the positions its words
stand for. -/
theorem acceptAffine_exprTokens {expr : AffineExpr} (hexpr : exprReadable F vars expr) :
    ∃ aff, (∀ s, EndsSum s → acceptAffine vars (exprTokens F expr ++ s) = some (aff, s)) ∧
      ∀ env, aff.eval env = readExpr F vars expr env := by
  obtain ⟨constant, terms⟩ := expr
  obtain ⟨res, hadds, hreads⟩ := reads_int vars (.cst 0) false false constant.toInt
  cases terms with
  | nil =>
      refine ⟨res, ?_, ?_⟩
      · intro s hs
        exact acceptAffine_of_reads vars (hreads s hs.endsFactor _ (hs.continues vars res))
      · intro env
        simp [hadds env, readExpr, Aff.eval, signOf]
  | cons term rest =>
      obtain ⟨hterm, hterms, hzeros⟩ := (exprReadable_iff F vars).mp hexpr
      have htail := fun n => reads_tailTokens F vars hterms hzeros n (termName F term)
      by_cases hconstant : constant = 0
      · obtain ⟨aff, hread, heval⟩ := htail _ hterm (.cst 0) false (term.coefficient < 0)
        refine ⟨aff, ?_, ?_⟩
        · intro s hs
          have hall := reads_firstSign vars (hread s hs)
          simpa [exprTokens, hconstant, coeffTokens] using acceptAffine_of_reads vars hall
        · intro env
          have hzero : (0 : Int64).toInt = 0 := rfl
          simp [heval, readExpr, hconstant, readTerms_cons, Aff.eval, readCoeff, signOf, hzero]
      · by_cases hzero : term.coefficient = 0
        · have hten : 10 * constant.toInt ≠ 1 := by omega
          rw [termReadable_of_zero F vars hzero] at hterm
          obtain ⟨aff, hread, heval⟩ := htail (10 * constant.toInt)
            (by rw [multipleReadable_of_ne_one vars hten, hterm]) (.cst 0) false false
          refine ⟨aff, ?_, ?_⟩
          · intro s hs
            simpa [exprTokens, hconstant, hzero, factorTokens, hten] using
              acceptAffine_of_reads vars (hread s hs)
          · intro env
            simp [heval, readExpr, hconstant, hzero, Aff.eval, signOf]
        · obtain ⟨aff, hread, heval⟩ := htail _ hterm res (term.coefficient < 0) false
          refine ⟨aff, ?_, ?_⟩
          · intro s hs
            have hall := hreads _ (endsFactor_sepTokens hzero _) _
              (continues_sepTokens vars hzero (hread s hs))
            simpa [exprTokens, hconstant, hzero, coeffTokens] using acceptAffine_of_reads vars hall
          · intro env
            simp [heval, hadds env, readExpr, hconstant, hzero, readTerms_cons, Aff.eval,
              readCoeff, signOf]

/-- isl reads no expression outside the grammar. -/
theorem acceptAffine_exprTokens_none {expr : AffineExpr} (hexpr : ¬ exprReadable F vars expr)
    (s : Stream) : acceptAffine vars (exprTokens F expr ++ s) = none := by
  obtain ⟨constant, terms⟩ := expr
  cases terms with
  | nil => exact absurd rfl hexpr
  | cons term rest =>
      rw [exprReadable_iff] at hexpr
      have htail := fun n => reads_tailTokens_none F vars rest n (termName F term)
      by_cases hconstant : constant = 0
      · have hall := reads_firstSign vars
          (htail _ hexpr (.cst 0) false (term.coefficient < 0) s)
        simpa [exprTokens, hconstant, coeffTokens] using acceptAffine_of_reads vars hall
      · by_cases hzero : term.coefficient = 0
        · have hten : 10 * constant.toInt ≠ 1 := by omega
          rw [termReadable_of_zero F vars hzero, ← multipleReadable_of_ne_one vars hten] at hexpr
          simpa [exprTokens, hconstant, hzero, factorTokens, hten] using
            acceptAffine_of_reads vars (htail _ hexpr (.cst 0) false false s)
        · obtain ⟨res, _, hreads⟩ := reads_int vars (.cst 0) false false constant.toInt
          have hnext := htail _ hexpr res (term.coefficient < 0) false s
          have hall := hreads _ (endsFactor_sepTokens hzero _) _
            (continues_sepTokens vars hzero hnext)
          simpa [exprTokens, hconstant, hzero, coeffTokens] using acceptAffine_of_reads vars hall

/-- The expression isl builds for a printed expression. -/
def exprAff (expr : AffineExpr) : Option Aff :=
  (acceptAffine vars (exprTokens F expr)).map Prod.fst

theorem exprAff_eq_none {expr : AffineExpr} (hexpr : ¬ exprReadable F vars expr) :
    exprAff F vars expr = none := by
  have haccept := acceptAffine_exprTokens_none F vars hexpr []
  rw [List.append_nil] at haccept
  rw [exprAff, haccept]
  rfl

theorem exprAff_spec {expr : AffineExpr} (hexpr : exprReadable F vars expr) :
    ∃ aff, exprAff F vars expr = some aff ∧
      (∀ s, EndsSum s → acceptAffine vars (exprTokens F expr ++ s) = some (aff, s)) ∧
      ∀ env, aff.eval env = readExpr F vars expr env := by
  obtain ⟨aff, haccept, heval⟩ := acceptAffine_exprTokens F vars hexpr
  have hself := haccept [] endsSum_nil
  rw [List.append_nil] at hself
  refine ⟨aff, ?_, haccept, heval⟩
  rw [exprAff, hself]
  rfl

theorem acceptAffine_eq_exprAff (expr : AffineExpr) {s : Stream} (hs : EndsSum s) :
    acceptAffine vars (exprTokens F expr ++ s) = (exprAff F vars expr).map fun aff => (aff, s) := by
  by_cases hexpr : exprReadable F vars expr
  · obtain ⟨aff, haff, haccept, _⟩ := exprAff_spec F vars hexpr
    rw [haccept s hs, haff]
    rfl
  · rw [acceptAffine_exprTokens_none F vars hexpr s, exprAff_eq_none F vars hexpr]
    rfl

theorem exprAff_isSome (expr : AffineExpr) :
    (exprAff F vars expr).isSome = exprReadable F vars expr := by
  by_cases hexpr : exprReadable F vars expr
  · obtain ⟨aff, haff, _⟩ := exprAff_spec F vars hexpr
    rw [haff, hexpr]
    rfl
  · rw [exprAff_eq_none F vars hexpr]
    simpa using hexpr

theorem eval_exprAff {expr : AffineExpr} {aff : Aff} (haff : exprAff F vars expr = some aff)
    (env : List Int) : aff.eval env = readExpr F vars expr env := by
  have hexpr : exprReadable F vars expr := by
    rw [← exprAff_isSome, haff]
    rfl
  obtain ⟨aff', haff', _, heval⟩ := exprAff_spec F vars hexpr
  rw [haff, Option.some.injEq] at haff'
  subst haff'
  exact heval env

end Readings

end PolyhedralPass
