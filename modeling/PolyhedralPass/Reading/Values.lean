/-
What isl reads holds of the values the words stand for.  Where every word of the
strings stands for one value, an access touches the element its subscripts name,
and an iteration within the bounds is in the domain, whatever symbols occur.
-/
import PolyhedralPass.Exactness

namespace PolyhedralPass

open Isl

section Scope

-- What the words stand for.
variable (meaning : String → Int)

/-- The names in scope stand for the values of their positions. -/
def ScopeMeans (vars : Vars) (env : List Int) : Prop :=
  ∀ (pos : Nat) (word : String), vars[pos]? = some (some word) →
    env[pos]? = some (meaning word)

variable {meaning} {vars : Vars} {env : List Int}

theorem ScopeMeans.append_none (h : ScopeMeans meaning vars env) :
    ScopeMeans meaning (vars ++ [none]) env := by
  intro pos word hpos
  rw [List.getElem?_append] at hpos
  split_ifs at hpos
  · exact h pos word hpos
  · rw [List.getElem?_singleton] at hpos
    split_ifs at hpos
    exact absurd hpos (by simp)

theorem ScopeMeans.append_some (h : ScopeMeans meaning vars env) {word : String}
    (hword : env[vars.length]? = some (meaning word)) :
    ScopeMeans meaning (vars ++ [some word]) env := by
  intro pos word' hpos
  rw [List.getElem?_append] at hpos
  split_ifs at hpos with hlt
  · exact h pos word' hpos
  · rw [List.getElem?_singleton] at hpos
    split_ifs at hpos with hzero
    · obtain rfl : word = word' := by simpa using hpos
      obtain rfl : pos = vars.length := by omega
      exact hword

theorem ScopeMeans.append_env (h : ScopeMeans meaning vars env) (more : List Int) :
    ScopeMeans meaning vars (env ++ more) := by
  intro pos word hpos
  have hvalue := h pos word hpos
  have hlt : pos < env.length := (List.getElem?_eq_some_iff.mp hvalue).1
  rw [List.getElem?_append_left hlt, hvalue]

theorem ScopeMeans.wordEval (h : ScopeMeans meaning vars env) {word : String} {pos : Nat}
    (hpos : wordPos vars word = some pos) : wordEval vars word env = some (meaning word) := by
  obtain ⟨_, hvars⟩ := wordToken_of_wordPos hpos
  obtain ⟨hlt, hname, _⟩ := List.findIdx?_eq_some_iff_getElem.mp hvars
  have hscope : vars[pos]? = some (some word) := by
    rw [List.getElem?_eq_getElem hlt]
    simpa using hname
  rw [Isl.wordEval, hpos]
  exact h pos word hscope

/-- Distinct words that are all in scope stand for the values of a tuple. -/
theorem scopeMeans_map_some {words : List String} (hwords : words.map meaning = env) :
    ScopeMeans meaning (words.map some) env := by
  intro pos word hpos
  rw [List.getElem?_map, Option.map_eq_some_iff] at hpos
  obtain ⟨word', hword, heq⟩ := hpos
  rw [← hwords, List.getElem?_map, hword, ← Option.some.inj heq]
  rfl

end Scope

section Expressions

variable (F : Function) (meaning : String → Int) (val : Value → Int)

/-- The words of an expression are identifiers and stand for the values of its
symbols; no coefficient is zero or the least number, which has no absolute value. -/
def WordsMean (expr : AffineExpr) : Prop :=
  ∀ term ∈ expr.terms, term.coefficient ≠ 0 ∧ -2 ^ 63 < term.coefficient.toInt ∧
    checkKeywords (termName F term) = none ∧
    ∃ symbol, term.symbol = some symbol ∧ meaning (termName F term) = val symbol

variable {F meaning val} {vars : Vars} {env : List Int} {expr : AffineExpr}

theorem isNan_of_checkKeywords {word : String} (hword : checkKeywords word = none) :
    isNan word = false := by
  simp [isNan, wordToken, hword]

/-- A readable expression has its value. -/
theorem WordsMean.readExpr (h : WordsMean F meaning val expr) (hscope : ScopeMeans meaning vars env)
    (hread : exprReadable F vars expr) : readExpr F vars expr env = some (expr.eval val) := by
  apply readExpr_eval
  intro term hterm
  obtain ⟨hzero, hmin, hword, symbol, hsymbol, hmeaning⟩ := h term hterm
  refine ⟨hzero, hmin, symbol, hsymbol, ?_⟩
  have hmultiple : termReadable F vars term := List.all_eq_true.mp
    (Bool.and_eq_true_iff.mp hread).1 term hterm
  simp only [termReadable, multipleReadable, isNan_of_checkKeywords hword, Bool.and_false,
    Bool.or_false] at hmultiple
  obtain ⟨pos, hpos⟩ := Option.isSome_iff_exists.mp hmultiple
  rw [hscope.wordEval hpos, hmeaning]

theorem WordsMean.eval_exprAff (h : WordsMean F meaning val expr)
    (hscope : ScopeMeans meaning vars env) {aff : Aff} (haff : exprAff F vars expr = some aff) :
    aff.eval env = some (expr.eval val) := by
  have hread : exprReadable F vars expr := by
    rw [← exprAff_isSome, haff]
    rfl
  rw [PolyhedralPass.eval_exprAff F vars haff, h.readExpr hscope hread]

/-- A single word stands for the value of the expression. -/
theorem WordsMean.eval_bareWord (h : WordsMean F meaning val expr) {word : String}
    (hbare : bareWord F expr = some word) :
    checkKeywords word = none ∧ expr.eval val = meaning word := by
  obtain ⟨constant, terms⟩ := expr
  match terms with
  | [] => simp [bareWord] at hbare
  | [term] =>
      simp only [bareWord, Option.ite_none_right_eq_some, Option.some.injEq] at hbare
      obtain ⟨⟨rfl, hone⟩, rfl⟩ := hbare
      obtain ⟨_, _, hword, symbol, hsymbol, hmeaning⟩ := h term (by simp)
      refine ⟨hword, ?_⟩
      have hvalue : (1 : Int64).toInt = 1 := rfl
      have hzero : (0 : Int64).toInt = 0 := rfl
      simp [AffineExpr.eval, evalTerms_cons, AffineTerm.eval, hsymbol, hone, hvalue, hzero,
        hmeaning]
  | _ :: _ :: _ => simp [bareWord] at hbare

/-- An element of a tuple admits the value of its subscript, and the names in scope
behind it stand for their values. -/
theorem WordsMean.subscriptElem (h : WordsMean F meaning val expr)
    (hscope : ScopeMeans meaning vars env) (hvalue : env[vars.length]? = some (expr.eval val))
    {elem : Option Aff} {vars' : Vars} (helem : subscriptElem F vars expr = some (elem, vars')) :
    ScopeMeans meaning vars' env ∧ vars'.length = vars.length + 1 ∧
      ∀ aff, elem = some aff → aff.eval env = env[vars.length]? := by
  rw [PolyhedralPass.subscriptElem] at helem
  cases hbare : bareWord F expr with
  | some word =>
      obtain ⟨hword, hmeaning⟩ := h.eval_bareWord hbare
      have htoken : wordToken word = .ident word := by rw [wordToken, hword]
      rw [hmeaning] at hvalue
      rw [hbare] at helem
      simp only [wordElem, wordAff, htoken] at helem
      cases hpos : varsPos vars word with
      | none =>
          -- a word that is not in scope names its position
          simp only [hpos, Option.some.injEq, Prod.mk.injEq] at helem
          obtain ⟨rfl, rfl⟩ := helem
          exact ⟨hscope.append_some hvalue, by simp, by simp⟩
      | some pos =>
          simp only [hpos, Option.map_some, Option.some.injEq, Prod.mk.injEq] at helem
          obtain ⟨rfl, rfl⟩ := helem
          refine ⟨hscope.append_none, by simp, ?_⟩
          rintro _ ⟨⟩
          have hwordPos : wordPos vars word = some pos := by
            simp only [wordPos, htoken, hpos]
          have heval := hscope.wordEval hwordPos
          rw [Isl.wordEval, hwordPos, Option.bind_some, wordValue] at heval
          simp [Aff.eval, heval, hvalue]
  | none =>
      rw [hbare] at helem
      obtain ⟨aff, haff, heq⟩ := Option.map_eq_some_iff.mp helem
      obtain ⟨rfl, rfl⟩ := Prod.mk.inj heq
      refine ⟨hscope.append_none, by simp, ?_⟩
      rintro _ ⟨⟩
      rw [h.eval_exprAff hscope.append_none haff, hvalue]

/-- The elements of a tuple admit the values of their subscripts. -/
theorem tupleItems_means {subscripts : List AffineExpr}
    (hmean : ∀ expr ∈ subscripts, WordsMean F meaning val expr)
    (hscope : ScopeMeans meaning vars env)
    (hvalues : ∀ i, i < subscripts.length → env[vars.length + i]? =
      (subscripts.map (AffineExpr.eval val))[i]?)
    {elems : List (Option Aff)} {vars' : Vars}
    (hitems : tupleItems (subscriptElem F) vars subscripts = some (elems, vars')) :
    elems.length = subscripts.length ∧ ∀ i aff, elems[i]? = some (some aff) →
      aff.eval env = env[vars.length + i]? := by
  induction subscripts generalizing vars vars' elems with
  | nil =>
      simp only [tupleItems, Option.some.injEq, Prod.mk.injEq] at hitems
      obtain ⟨rfl, _⟩ := hitems
      exact ⟨rfl, by simp⟩
  | cons expr subscripts ih =>
      obtain ⟨⟨first, vars₁⟩, hfirst, hrest⟩ := Option.bind_eq_some_iff.mp hitems
      obtain ⟨⟨rest, vars₂⟩, htail, heq⟩ := Option.map_eq_some_iff.mp hrest
      obtain ⟨rfl, rfl⟩ := Prod.mk.inj heq
      have hvalue : env[vars.length]? = some (expr.eval val) := by
        simpa using hvalues 0 (by simp)
      obtain ⟨hscope₁, hlength, hadmits⟩ :=
        (hmean expr (by simp)).subscriptElem hscope hvalue hfirst
      have hshift : ∀ i, vars₁.length + i = vars.length + (i + 1) := by omega
      obtain ⟨hrestLength, hrestAdmits⟩ := ih
        (fun e he => hmean e (List.mem_cons_of_mem expr he)) hscope₁
        (fun i hi => by
          rw [hshift]
          simpa using hvalues (i + 1) (by simpa using hi)) htail
      refine ⟨by simp [hrestLength], ?_⟩
      intro i aff haff
      cases i with
      | zero => exact hadmits aff (by simpa using haff)
      | succ i =>
          rw [← hshift]
          exact hrestAdmits i aff (by simpa using haff)

end Expressions

section Nests

variable {F : Function} {nest : LoopNestDescriptor} (hnames : nest.NamesDistinct)
include hnames

theorem LoopNestDescriptor.NamesDistinct.tupleItems_identifiers :
    tupleItems wordElem [] nest.identifiers =
      some (List.replicate nest.depth none, nest.identifiers.map some) := by
  rw [tupleItems_fresh [] hnames.identifiers_word hnames.nodup (by simp), identifiers_length,
    List.nil_append]

-- The values the words have in an iteration.
variable {meaning : String → Int} {val : Value → Int} {x : List Int}
  (hx : nest.identifiers.map meaning = x)
include hx

/-- An access whose string is readable touches the element that the values of its
subscripts name. -/
theorem LoopNestDescriptor.NamesDistinct.touches {access : MemoryAccess}
    (hread : (accessBody F nest access).isSome)
    (hmean : ∀ expr ∈ access.printedSubscripts, WordsMean F meaning val expr) :
    Touches F nest access ⟨"Stmt", x⟩ ⟨sanitizeISLName access.baseName,
      access.printedSubscripts.map (AffineExpr.eval val)⟩ := by
  obtain ⟨body, hbody⟩ := Option.isSome_iff_exists.mp hread
  refine ⟨body, hbody, ?_⟩
  rw [accessBody, hnames.tupleItems_identifiers, Option.bind_some] at hbody
  obtain ⟨⟨ran, vars'⟩, hran, rfl⟩ := Option.map_eq_some_iff.mp hbody
  have hlength : x.length = nest.depth := by rw [← hx, List.length_map, identifiers_length]
  have hvars : (nest.identifiers.map some).length = x.length := by
    rw [List.length_map, ← hx, List.length_map]
  obtain ⟨hrank, hadmits⟩ := tupleItems_means hmean
    ((scopeMeans_map_some hx).append_env (access.printedSubscripts.map (AffineExpr.eval val)))
    (fun i _ => by rw [hvars, List.getElem?_append_right (by omega), Nat.add_sub_cancel_left]) hran
  refine ⟨⟨rfl, by simp [hlength]⟩, ⟨rfl, by simp [hrank]⟩, Tuple.admits_of_replicate, ?_, trivial⟩
  intro i aff haff
  rw [List.length_replicate, ← hlength, ← hvars]
  exact hadmits i aff haff

/-- An iteration whose induction variables lie within the bounds is in the domain. -/
theorem LoopNestDescriptor.NamesDistinct.inDomain (hread : (domainBody F nest).isSome)
    (hlower : ∀ loop ∈ nest.loops, loop.bounds.lower.terms = [])
    (hmean : ∀ loop ∈ nest.loops, WordsMean F meaning val loop.bounds.upper)
    (hbounds : ∀ loop ∈ nest.loops,
      loop.bounds.lower.constant.toInt ≤ meaning (sanitizeISLName loop.inductionName) ∧
        meaning (sanitizeISLName loop.inductionName) < loop.bounds.upper.eval val) :
    InDomain F nest ⟨"Stmt", x⟩ := by
  obtain ⟨body, hbody⟩ := Option.isSome_iff_exists.mp hread
  have hlength : x.length = nest.depth := by rw [← hx, List.length_map, identifiers_length]
  have hitems := hnames.tupleItems_identifiers
  rw [PolyhedralPass.inDomain_iff hbody, mem_domainBody_iff F nest hbody]
  refine ⟨_, _, hitems, ⟨rfl, by simp [hlength]⟩, Tuple.admits_of_replicate, ?_⟩
  rw [domainBody, hitems, Option.bind_some] at hbody
  obtain ⟨cond, hcond, _⟩ := Option.map_eq_some_iff.mp hbody
  have hconds := conjoin_isSome (domainCond F (nest.identifiers.map some)) nest.loops
  rw [hcond, Option.isSome_some, eq_comm, List.all_eq_true] at hconds
  intro loop hloop
  -- the string of the bound is readable, as the domain string is
  obtain ⟨formula, hformula⟩ := Option.isSome_iff_exists.mp (hconds loop hloop)
  obtain ⟨lower, _, hrest⟩ := Option.bind_eq_some_iff.mp hformula
  obtain ⟨iv, hiv, hrest⟩ := Option.bind_eq_some_iff.mp hrest
  obtain ⟨upper, hupper, _⟩ := Option.map_eq_some_iff.mp hrest
  have hreadUpper : exprReadable F (nest.identifiers.map some) loop.bounds.upper := by
    rw [← exprAff_isSome, hupper]
    rfl
  have hscope := scopeMeans_map_some hx
  obtain ⟨i, hi, rfl⟩ := List.getElem_of_mem hloop
  have hi' : i < nest.identifiers.length := by rw [identifiers_length]; exact hi
  have hword : nest.identifiers[i] = sanitizeISLName nest.loops[i].inductionName := by
    simp [LoopNestDescriptor.identifiers]
  refine ⟨_, _, _, by simp [readExpr, hlower _ hloop], ?_,
    (hmean _ hloop).readExpr hscope hreadUpper, hbounds _ hloop⟩
  rw [wordEval_identifier hnames.nodup hnames.identifiers_word hi, ← hx, List.getElem?_map,
    List.getElem?_eq_getElem hi', hword, Option.map_some]

end Nests

end PolyhedralPass
