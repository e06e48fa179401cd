/-
The token streams of the names and expressions the pass prints.  A term whose
coefficient is zero gets no separator, so its `0` runs into the number or the
word in front of it.
-/
import PolyhedralPass.Dependence
import PolyhedralPass.Isl.Affine

namespace PolyhedralPass

open Isl

theorem isWordChar_of_clean (name : String) :
    ∀ c ∈ name.toList.map (fun c => if c.isAlphanum then c else '_'), isWordChar c := by
  intro c hc
  obtain ⟨d, _, rfl⟩ := List.mem_map.mp hc
  split_ifs with halphanum
  · simp [isWordChar, halphanum]
  · decide

/-- Every sanitized name is a word of isl. -/
theorem isWord_sanitizeISLName (name : String) : IsWord (sanitizeISLName name) := by
  have hchars := isWordChar_of_clean name
  unfold sanitizeISLName
  cases hclean : name.toList.map fun c => if c.isAlphanum then c else '_' with
  | nil => exact ⟨'u', "nknown".toList, rfl, by decide, List.all_eq_true.mp (by decide)⟩
  | cons c cs =>
      rw [hclean] at hchars
      by_cases hdigit : c.isDigit
      · refine ⟨'V', '_' :: c :: cs, by simp [hdigit], by decide, ?_⟩
        intro d hd
        rcases List.mem_cons.mp hd with rfl | hd
        · decide
        · exact hchars d hd
      · simp only [hdigit]
        exact isWord_ofList
          (isWordStart_of_isWordChar (hchars c (by simp)) (by simpa using hdigit))
          fun d hd => hchars d (List.mem_cons_of_mem c hd)

theorem tokens_printInt64 (n : Int64) {rest : List Char} (hrest : Boundary rest) :
    tokens ((printInt64 n).toList ++ rest) = intTokens n.toInt ++ tokens rest :=
  tokens_int n.toInt hrest

/-- A zero printed right after a number multiplies it by ten. -/
theorem toList_toString_zero {n : Int} (hn : n ≠ 0) :
    (toString n).toList ++ ['0'] = (toString (10 * n)).toList := by
  have hdigits : ∀ m : Nat, 0 < m → Nat.toDigits 10 m ++ ['0'] = Nat.toDigits 10 (10 * m) := by
    intro m hm
    exact Nat.toDigits_append_toDigits (b := 10) (n := m) (d := 0) (by decide) hm (by decide)
  simp only [Int.toString_eq_repr, Int.repr_eq_if]
  by_cases hneg : 0 ≤ n
  · have hten : (10 * n).toNat = 10 * n.toNat := by omega
    rw [if_pos hneg, if_pos (by omega), hten, Nat.repr_eq_ofList_toDigits,
      Nat.repr_eq_ofList_toDigits, String.toList_ofList, String.toList_ofList]
    exact hdigits n.toNat (by omega)
  · have hten : (-(10 * n)).toNat = 10 * (-n).toNat := by omega
    rw [if_neg hneg, if_neg (by omega), hten, Nat.repr_eq_ofList_toDigits,
      Nat.repr_eq_ofList_toDigits, String.toList_append, String.toList_append,
      String.toList_ofList, String.toList_ofList, String.toList_ofList, List.append_assoc,
      hdigits (-n).toNat (by omega)]

section Terms

variable (F : Function)

/-- The identifier a term is printed with. -/
def termName (term : AffineTerm) : String :=
  sanitizeISLName (F.valueNameOrFallback term.symbol "sym")

/-- The sign in front of a term. -/
def sepTokens (printed : Bool) (coefficient : Int64) : List Token :=
  if coefficient < 0 then [.char '-']
  else if printed && coefficient > 0 then [.char '+']
  else []

/-- The coefficient of a term and the `*` after it. -/
def coeffTokens (coefficient : Int64) : List Token :=
  factorTokens (absCoeff coefficient).toInt

/-- What follows once the word of a term is written up to its end: that word
and the further terms. -/
def tailTokens : String → List AffineTerm → List Token
  | word, [] => [wordToken word]
  | word, term :: rest =>
      if term.coefficient = 0 then
        wordToken (word ++ "0") :: .char '*' :: tailTokens (termName F term) rest
      else
        wordToken word :: (sepTokens true term.coefficient ++ coeffTokens term.coefficient ++
          tailTokens (termName F term) rest)

/-- The token stream of a printed expression. -/
def exprTokens (expr : AffineExpr) : List Token :=
  match expr.terms with
  | [] => intTokens expr.constant.toInt
  | term :: rest =>
      (if expr.constant = 0 then
        sepTokens false term.coefficient ++ coeffTokens term.coefficient
      else if term.coefficient = 0 then intTokens (10 * expr.constant.toInt) ++ [.char '*']
      else intTokens expr.constant.toInt ++ sepTokens true term.coefficient ++
        coeffTokens term.coefficient) ++ tailTokens F (termName F term) rest

theorem termBody_eq {term : AffineTerm} (hsymbol : term.symbol ≠ none) :
    termBody F term =
      (if absCoeff term.coefficient ≠ 1 then printInt64 (absCoeff term.coefficient) ++ "*"
        else "") ++ termName F term := by
  unfold termBody termName
  cases hcase : term.symbol with
  | none => exact absurd hcase hsymbol
  | some symbol => rfl

theorem tokens_coeff (coefficient : Int64) (cs : List Char) :
    tokens ((if absCoeff coefficient ≠ 1 then printInt64 (absCoeff coefficient) ++ "*"
      else "").toList ++ cs) = coeffTokens coefficient ++ tokens cs := by
  by_cases hone : absCoeff coefficient = 1
  · simp [hone, coeffTokens, factorTokens]
  · have hstar : ("*" : String).toList ++ cs = '*' :: cs := rfl
    have hone' : (absCoeff coefficient).toInt ≠ 1 := fun h => hone (Int64.toInt_inj.mp h)
    rw [if_pos hone, coeffTokens, factorTokens, if_neg hone', String.toList_append,
      List.append_assoc, hstar, tokens_printInt64 _ boundary_star,
      tokens_singleChar (by decide), List.append_assoc]
    rfl

theorem int64_pos_of_not_neg {n : Int64} (hzero : n ≠ 0) (hneg : ¬ n < 0) : 0 < n := by
  rw [Int64.lt_iff_toInt_lt] at hneg ⊢
  have hne : n.toInt ≠ (0 : Int64).toInt := fun h => hzero (Int64.toInt_inj.mp h)
  omega

theorem sepTokens_eq {coefficient : Int64} (hzero : coefficient ≠ 0) :
    sepTokens true coefficient = [.char '-'] ∨ sepTokens true coefficient = [.char '+'] := by
  unfold sepTokens
  by_cases hneg : coefficient < 0
  · exact Or.inl (if_pos hneg)
  · have hpos := int64_pos_of_not_neg hzero hneg
    exact Or.inr (by rw [if_neg hneg, if_pos (by simpa using hpos)])

/-- A separator ends the word or number in front of it. -/
theorem tokens_separator {coefficient : Int64} (hzero : coefficient ≠ 0) (cs : List Char) :
    Boundary ((termSeparator true coefficient).toList ++ cs) ∧
      tokens ((termSeparator true coefficient).toList ++ cs) =
        sepTokens true coefficient ++ tokens cs := by
  by_cases hneg : coefficient < 0
  · have hpos : ¬ coefficient > 0 := by
      rw [gt_iff_lt, Int64.lt_iff_toInt_lt]
      rw [Int64.lt_iff_toInt_lt] at hneg
      omega
    have hsep : termSeparator true coefficient = " - " := by simp [termSeparator, hneg, hpos]
    have hlist : (" - " : String).toList ++ cs = ' ' :: '-' :: ' ' :: cs := rfl
    rw [hsep, hlist]
    refine ⟨boundary_space, ?_⟩
    rw [tokens_space, tokens_minus (by simp), tokens_space, sepTokens, if_pos hneg]
    rfl
  · have hpos := int64_pos_of_not_neg hzero hneg
    have hsep : termSeparator true coefficient = " + " := by simp [termSeparator, hpos]
    have hlist : (" + " : String).toList ++ cs = ' ' :: '+' :: ' ' :: cs := rfl
    rw [hsep, hlist]
    refine ⟨boundary_space, ?_⟩
    rw [tokens_space, tokens_singleChar (by decide), tokens_space, sepTokens, if_neg hneg]
    simp [hpos]

theorem isWord_termName (term : AffineTerm) : IsWord (termName F term) :=
  isWord_sanitizeISLName _

theorem termBody_zero {term : AffineTerm} (hsymbol : term.symbol ≠ none)
    (hzero : term.coefficient = 0) (cs : List Char) :
    (termBody F term).toList ++ cs = '0' :: '*' :: ((termName F term).toList ++ cs) := by
  have habs : absCoeff 0 ≠ 1 := by decide
  have hprint : (printInt64 (absCoeff 0) ++ "*").toList = ['0', '*'] := by decide
  rw [termBody_eq F hsymbol, hzero, if_pos habs, String.toList_append, hprint]
  rfl

theorem tokens_tail {terms : List AffineTerm} (hsymbols : ∀ term ∈ terms, term.symbol ≠ none)
    {word : String} (hword : IsWord word) {rest : List Char} (hrest : Boundary rest) :
    tokens (word.toList ++ ((termStrings F true terms).toList ++ rest)) =
      tailTokens F word terms ++ tokens rest := by
  induction terms generalizing word with
  | nil => exact tokens_word hword hrest
  | cons term terms ih =>
      have hsymbol := hsymbols term (by simp)
      have htail := ih (fun t ht => hsymbols t (List.mem_cons_of_mem term ht))
        (isWord_termName F term)
      simp only [termStrings, String.toList_append, List.append_assoc]
      by_cases hzero : term.coefficient = 0
      · -- the zero extends the word in front of it
        have hsep : termSeparator true term.coefficient = "" := by rw [hzero]; rfl
        have hglued : IsWord (word ++ "0") := isWord_append hword (List.all_eq_true.mp (by decide))
        have hlist : word.toList ++ '0' :: '*' :: ((termName F term).toList ++
            ((termStrings F true terms).toList ++ rest)) =
            (word ++ "0").toList ++ '*' :: ((termName F term).toList ++
              ((termStrings F true terms).toList ++ rest)) := by
          simp
        rw [hsep, String.toList_empty, List.nil_append, termBody_zero F hsymbol hzero, hlist,
          tokens_word hglued boundary_star, tokens_singleChar (by decide), htail, tailTokens,
          if_pos hzero]
        rfl
      · obtain ⟨hboundary, hsep⟩ := tokens_separator hzero ((termBody F term).toList ++
          ((termStrings F true terms).toList ++ rest))
        rw [tokens_word hword hboundary, hsep, termBody_eq F hsymbol, String.toList_append,
          List.append_assoc, tokens_coeff, htail, tailTokens, if_neg hzero]
        simp

theorem head_toString_ne (n : Int) (cs : List Char) :
    ∀ c ∈ ((toString n).toList ++ cs).head?, c ≠ '>' := by
  rw [Int.toString_eq_repr, Int.repr_eq_if]
  split_ifs
  · rw [Nat.repr_eq_ofList_toDigits, String.toList_ofList]
    exact head_toDigits_ne
  · intro c hc
    have hlist : ("-" : String).toList = ['-'] := rfl
    rw [String.toList_append, hlist, List.append_assoc, List.singleton_append, List.head?_cons,
      Option.mem_def, Option.some.injEq] at hc
    subst hc
    decide

theorem head_coeff_ne (coefficient : Int64) {word : String} (hword : IsWord word)
    (cs : List Char) :
    ∀ c ∈ ((if absCoeff coefficient ≠ 1 then printInt64 (absCoeff coefficient) ++ "*"
      else "").toList ++ (word.toList ++ cs)).head?, c ≠ '>' := by
  by_cases hone : absCoeff coefficient = 1
  · obtain ⟨c, ds, hlist, hstart, _⟩ := hword
    intro d hd
    simp only [hone, ne_eq, not_true_eq_false, if_false, String.toList_empty, List.nil_append,
      hlist, List.cons_append, List.head?_cons, Option.mem_def, Option.some.injEq] at hd
    subst hd
    rintro rfl
    exact absurd hstart (by decide)
  · rw [if_pos hone, String.toList_append, List.append_assoc]
    exact head_toString_ne _ _

theorem tokens_firstSign {coefficient : Int64} {cs : List Char}
    (hcs : ∀ c ∈ cs.head?, c ≠ '>') :
    tokens ((termSeparator false coefficient).toList ++ cs) =
      sepTokens false coefficient ++ tokens cs := by
  by_cases hneg : coefficient < 0
  · have hsep : termSeparator false coefficient = "-" := by simp [termSeparator, hneg]
    rw [hsep, sepTokens, if_pos hneg]
    exact tokens_minus hcs
  · have hsep : termSeparator false coefficient = "" := by simp [termSeparator, hneg]
    rw [hsep, sepTokens, if_neg hneg]
    rfl

/-- The token stream of a printed expression, in front of any text that does
not extend its last word. -/
theorem tokens_toISLString {expr : AffineExpr}
    (hsymbols : ∀ term ∈ expr.terms, term.symbol ≠ none) {rest : List Char}
    (hrest : Boundary rest) :
    tokens ((toISLString F expr).toList ++ rest) = exprTokens F expr ++ tokens rest := by
  obtain ⟨constant, terms⟩ := expr
  cases terms with
  | nil =>
      simp only [toISLString, termStrings, exprTokens, List.isEmpty_nil, Bool.or_true, if_true,
        String.append_empty]
      exact tokens_printInt64 constant hrest
  | cons term terms =>
      have hsymbol := hsymbols term (by simp)
      have htail := tokens_tail F (fun t ht => hsymbols t (List.mem_cons_of_mem term ht))
        (isWord_termName F term) hrest
      simp only [toISLString, exprTokens, List.isEmpty_cons, Bool.or_false, decide_eq_true_eq,
        termStrings, String.toList_append, List.append_assoc]
      by_cases hconstant : constant = 0
      · -- nothing is printed before the first term
        rw [termBody_eq F hsymbol]
        simp only [hconstant, ne_eq, not_true_eq_false, decide_false, if_false, if_true,
          String.toList_empty, List.nil_append]
        rw [tokens_firstSign, String.toList_append, List.append_assoc, tokens_coeff, htail]
        · simp
        · rw [String.toList_append, List.append_assoc]
          exact head_coeff_ne _ (isWord_termName F term) _
      · by_cases hzero : term.coefficient = 0
        · -- the zero extends the constant
          have hsep : termSeparator true term.coefficient = "" := by rw [hzero]; rfl
          have hne : constant.toInt ≠ 0 := fun h => hconstant (Int64.toInt_inj.mp h)
          have hlist : (printInt64 constant).toList ++ '0' :: '*' ::
              ((termName F term).toList ++ ((termStrings F true terms).toList ++ rest)) =
              (toString (10 * constant.toInt)).toList ++ '*' ::
                ((termName F term).toList ++ ((termStrings F true terms).toList ++ rest)) := by
            rw [← toList_toString_zero hne, List.append_assoc]
            rfl
          simp only [hconstant, ne_eq, not_false_eq_true, decide_true, if_true, if_false, hsep,
            String.toList_empty, List.nil_append]
          rw [termBody_zero F hsymbol hzero, hlist, tokens_int _ boundary_star,
            tokens_singleChar (by decide), htail]
          simp [hzero]
        · obtain ⟨hboundary, hsep⟩ := tokens_separator hzero ((termBody F term).toList ++
            ((termStrings F true terms).toList ++ rest))
          simp only [hconstant, hzero, ne_eq, not_false_eq_true, decide_true, if_true, if_false]
          rw [tokens_printInt64 _ hboundary, hsep, termBody_eq F hsymbol, String.toList_append,
            List.append_assoc, tokens_coeff, htail]
          simp

end Terms

end PolyhedralPass
