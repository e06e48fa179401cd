/-
The dependence relation of a nest whose identifiers are distinct: what
`getDependencies` returns is the set of the ordered pairs of iterations of the
box that touch a common array element, one of them in a store.
-/
import PolyhedralPass.Reading.Relation

namespace PolyhedralPass

open Isl

section Values

variable (F : Function) {vars : Vars} {env : List Int} {val : Value → Int}

/-- Terms whose words have the values of their symbols. -/
def TermsEval (vars : Vars) (env : List Int) (val : Value → Int) (terms : List AffineTerm) : Prop :=
  ∀ term ∈ terms, term.coefficient ≠ 0 ∧ -2 ^ 63 < term.coefficient.toInt ∧
    ∃ symbol, term.symbol = some symbol ∧
      wordEval vars (termName F term) env = some (val symbol)

variable {F}

theorem readTerms_eval {terms : List AffineTerm} (hterms : TermsEval F vars env val terms)
    (sum : Int) :
    readTerms F vars env (some sum) terms = some (sum + evalTerms val terms) := by
  induction terms generalizing sum with
  | nil => simp [readTerms]
  | cons term terms ih =>
      obtain ⟨_, hmin, symbol, hsymbol, hword⟩ := hterms term (by simp)
      have hrest := ih (fun t ht => hterms t (List.mem_cons_of_mem term ht))
        (sum + term.coefficient.toInt * val symbol)
      rw [readTerms_cons, Option.bind_some, hword, Option.map_some, readCoeff_eq hmin, hrest,
        evalTerms_cons]
      simp [AffineTerm.eval, hsymbol, add_assoc]

theorem readExpr_eval {expr : AffineExpr} (hterms : TermsEval F vars env val expr.terms) :
    readExpr F vars expr env = some (expr.eval val) := by
  unfold readExpr
  split
  · rename_i hnil
    simp [AffineExpr.eval, hnil]
  · rename_i term rest hcons
    have hzero := (hterms term (by simp [hcons])).1
    have hread := readTerms_eval hterms expr.constant.toInt
    rw [hcons] at hread
    simp [hzero, hread, AffineExpr.eval, hcons]

end Values

section Subscripts

variable (F : Function)

theorem wordPos_append_none (vars : Vars) (k : Nat) (word : String) :
    wordPos (vars ++ List.replicate k none) word = wordPos vars word := by
  unfold wordPos
  split
  · rename_i name
    induction k with
    | zero => simp
    | succ k ih => rw [List.replicate_succ', ← List.append_assoc, varsPos_append_none, ih]
  · rfl

theorem wordEval_append_none (vars : Vars) (k : Nat) (word : String) (env : List Int) :
    wordEval (vars ++ List.replicate k none) word env = wordEval vars word env := by
  rw [wordEval, wordPos_append_none, wordEval]

/-- A subscript over words in scope, none of them with the coefficient zero. -/
def SubscriptInScope (vars : Vars) (expr : AffineExpr) : Prop :=
  ∀ term ∈ expr.terms, term.coefficient ≠ 0 ∧ (wordPos vars (termName F term)).isSome

variable {F} {vars : Vars}

theorem SubscriptInScope.exprReadable {expr : AffineExpr} (hscope : SubscriptInScope F vars expr)
    (k : Nat) : exprReadable F (vars ++ List.replicate k none) expr := by
  simp only [PolyhedralPass.exprReadable, Bool.and_eq_true, List.all_eq_true, termReadable,
    multipleReadable, wordPos_append_none, Bool.or_eq_true, bne_iff_ne]
  exact ⟨fun term hterm => Or.inl (hscope term hterm).2,
    fun term hterm => (hscope term (List.mem_of_mem_tail hterm)).1⟩

theorem readExpr_append_none (vars : Vars) (k : Nat) (expr : AffineExpr) (env : List Int) :
    readExpr F (vars ++ List.replicate k none) expr env = readExpr F vars expr env := by
  simp only [readExpr, readTerms, wordEval_append_none]

theorem bareWord_mem {expr : AffineExpr} {word : String} (hbare : bareWord F expr = some word) :
    ∃ term ∈ expr.terms, termName F term = word := by
  obtain ⟨constant, terms⟩ := expr
  match terms with
  | [] => simp [bareWord] at hbare
  | [term] =>
      simp only [bareWord, Option.ite_none_right_eq_some, Option.some.injEq] at hbare
      exact ⟨term, by simp, hbare.2⟩
  | _ :: _ :: _ => simp [bareWord] at hbare

theorem readExpr_bareWord {expr : AffineExpr} {word : String}
    (hbare : bareWord F expr = some word) (env : List Int) :
    readExpr F vars expr env = wordEval vars word env := by
  obtain ⟨constant, terms⟩ := expr
  match terms with
  | [] => simp [bareWord] at hbare
  | [term] =>
      simp only [bareWord, Option.ite_none_right_eq_some, Option.some.injEq] at hbare
      obtain ⟨⟨rfl, hcoeff⟩, rfl⟩ := hbare
      have hone : readCoeff term.coefficient = 1 := by
        rw [hcoeff]
        decide
      have hzero : (0 : Int64).toInt = 0 := rfl
      have hnil : ∀ sum, readTerms F vars env sum [] = sum := fun _ => rfl
      simp [readExpr, readTerms_cons, hone, hzero, hnil]
  | _ :: _ :: _ => simp [bareWord] at hbare

/-- A subscript in scope is equated with its position. -/
theorem subscriptElem_inScope {expr : AffineExpr} (hscope : SubscriptInScope F vars expr)
    (k : Nat) :
    ∃ aff, subscriptElem F (vars ++ List.replicate k none) expr =
        some (some aff, vars ++ List.replicate (k + 1) none) ∧
      ∀ env, aff.eval env = readExpr F vars expr env := by
  have hvars : vars ++ List.replicate k none ++ [none] = vars ++ List.replicate (k + 1) none := by
    rw [List.append_assoc, List.replicate_succ']
  cases hbare : bareWord F expr with
  | some word =>
      obtain ⟨term, hterm, hword⟩ := bareWord_mem hbare
      obtain ⟨pos, hpos⟩ := Option.isSome_iff_exists.mp (hscope term hterm).2
      rw [hword, ← wordPos_append_none vars k] at hpos
      obtain ⟨htoken, hvarsPos⟩ := wordToken_of_wordPos hpos
      refine ⟨.add (.cst 0) (.var pos), ?_, ?_⟩
      · simp [subscriptElem, hbare, wordElem, wordAff, htoken, hvarsPos, hvars]
      · intro env
        rw [readExpr_bareWord hbare, ← wordEval_append_none vars k, wordEval, hpos]
        simp [Aff.eval, wordValue]
  | none =>
      have hreadable := hscope.exprReadable (k + 1)
      rw [← exprAff_isSome] at hreadable
      obtain ⟨aff, haff⟩ := Option.isSome_iff_exists.mp hreadable
      refine ⟨aff, ?_, ?_⟩
      · simp [subscriptElem, hbare, hvars, haff]
      · intro env
        rw [eval_exprAff F _ haff, readExpr_append_none]

theorem tupleItems_inScope {subscripts : List AffineExpr}
    (hscope : ∀ expr ∈ subscripts, SubscriptInScope F vars expr) (k : Nat) :
    ∃ (affs : List Aff) (vars' : Vars), tupleItems (subscriptElem F) (vars ++ List.replicate k none)
        subscripts = some (affs.map some, vars') ∧ affs.length = subscripts.length ∧
      ∀ env, affs.map (Aff.eval env) = subscripts.map fun expr => readExpr F vars expr env := by
  induction subscripts generalizing k with
  | nil => exact ⟨[], _, rfl, rfl, fun _ => rfl⟩
  | cons expr subscripts ih =>
      obtain ⟨aff, helem, heval⟩ := subscriptElem_inScope (hscope expr (by simp)) k
      obtain ⟨affs, vars', hitems, hlength, hevals⟩ :=
        ih (fun e he => hscope e (List.mem_cons_of_mem expr he)) (k + 1)
      refine ⟨aff :: affs, vars', ?_, by simp [hlength], ?_⟩
      · simp [tupleItems, helem, hitems]
      · intro env
        rw [List.map_cons, List.map_cons, heval, hevals]

/-- The equalities of a tuple of expressions. -/
theorem Tuple.admits_map_some {name : String} {affs : List Aff} {x cell : List Int}
    (hlength : cell.length = affs.length) :
    (⟨name, affs.map some⟩ : Tuple).admits x.length (x ++ cell) ↔
      affs.map (Aff.eval (x ++ cell)) = cell.map some := by
  have hcell : ∀ i, (x ++ cell)[x.length + i]? = cell[i]? := by
    intro i
    rw [List.getElem?_append_right (Nat.le_add_right _ _), Nat.add_sub_cancel_left]
  constructor
  · intro hadmits
    apply List.ext_getElem
    · simp [hlength]
    · intro i hi hi'
      have hi : i < affs.length := by simpa using hi
      have hvalue := hadmits i affs[i] (by simp [hi])
      rw [hcell] at hvalue
      simpa [hlength, hi] using hvalue
  · intro heq i expr hexpr
    have hi : i < affs.length := by
      by_contra hge
      simp [List.getElem?_eq_none (Nat.not_lt.mp hge)] at hexpr
    have hexpr' : affs[i] = expr := by simpa [hi] using hexpr
    have hvalue := congrArg (·[i]?) heq
    rw [hcell, ← hexpr']
    simpa [hi, hlength] using hvalue

end Subscripts

section Order

/-- The alternatives of the order string compare the values lexicographically. -/
theorem precedes_iff_lex (vars : Vars) (env : List Int) (first second : String → Int)
    (outer words : List String)
    (hvalues : ∀ w ∈ outer ++ words, wordEval vars w env = some (first w) ∧
      wordEval vars (w ++ "_p") env = some (second w)) :
    precedes vars env outer words ↔ (∀ w ∈ outer, first w = second w) ∧
      List.Lex (· < ·) (words.map first) (words.map second) := by
  induction words generalizing outer with
  | nil => simp [precedes]
  | cons word words ih =>
      have hcompares : ∀ op, ∀ w ∈ outer ++ word :: words,
          (comparesPrimed vars op w env ↔ op.holds (first w) (second w)) := by
        intro op w hw
        obtain ⟨hfirst, hsecond⟩ := hvalues w hw
        simp [comparesPrimed, hfirst, hsecond]
      have houter : (∀ w ∈ outer, comparesPrimed vars .eq w env) ↔
          ∀ w ∈ outer, first w = second w :=
        forall₂_congr fun w hw => hcompares .eq w (List.mem_append_left _ hw)
      have hword : comparesPrimed vars .lt word env ↔ first word < second word :=
        hcompares .lt word (by simp)
      have hrest : precedes vars env (outer ++ [word]) words ↔ _ :=
        ih (outer ++ [word]) (by simpa using hvalues)
      rw [precedes, hrest, houter, hword, List.map_cons, List.map_cons, List.cons_lex_cons_iff]
      simp only [List.forall_mem_append, List.forall_mem_singleton]
      constructor
      · rintro (⟨heq, hlt⟩ | ⟨⟨heq, hword⟩, hlex⟩)
        · exact ⟨heq, Or.inl hlt⟩
        · exact ⟨heq, Or.inr ⟨hword, hlex⟩⟩
      · rintro ⟨heq, hlt | ⟨hword, hlex⟩⟩
        · exact Or.inl ⟨heq, hlt⟩
        · exact Or.inr ⟨⟨heq, hword⟩, hlex⟩

end Order

section Names

/-- The identifiers of both iterations are distinct words. -/
structure LoopNestDescriptor.NamesDistinct (nest : LoopNestDescriptor) : Prop where
  identifiers_nodup : (nest.identifiers ++ nest.primed).Nodup
  identifiers_word : ∀ word ∈ nest.identifiers, checkKeywords word = none

instance (nest : LoopNestDescriptor) : Decidable nest.NamesDistinct :=
  decidable_of_iff ((nest.identifiers ++ nest.primed).Nodup ∧
      ∀ word ∈ nest.identifiers, checkKeywords word = none)
    ⟨fun h => ⟨h.1, h.2⟩, fun h => ⟨h.identifiers_nodup, h.identifiers_word⟩⟩

variable {nest : LoopNestDescriptor} (hnames : nest.NamesDistinct)
include hnames

theorem LoopNestDescriptor.NamesDistinct.nodup : nest.identifiers.Nodup :=
  (List.nodup_append.mp hnames.identifiers_nodup).1

/-- Both tuples of the order string introduce their positions. -/
theorem LoopNestDescriptor.NamesDistinct.pairScope_eq :
    pairScope nest = some (List.replicate nest.depth none, List.replicate nest.depth none,
      (nest.identifiers ++ nest.primed).map some) := by
  obtain ⟨hnodup, hprimed, hdisjoint⟩ := List.nodup_append.mp hnames.identifiers_nodup
  have hdom := tupleItems_fresh [] hnames.identifiers_word hnodup (by simp)
  have hident : ∀ word ∈ nest.primed, checkKeywords word = none := by
    intro word hword
    obtain ⟨id, _, rfl⟩ := List.mem_map.mp hword
    exact checkKeywords_primed id
  have hran := tupleItems_fresh (nest.identifiers.map some) hident hprimed (by
      intro word hword hmem
      obtain ⟨id, hid, heq⟩ := List.mem_map.mp hmem
      exact hdisjoint id hid word hword (Option.some.inj heq))
  have hlength : nest.primed.length = nest.depth := by
    rw [LoopNestDescriptor.primed, List.length_map, identifiers_length]
  rw [List.nil_append] at hdom
  simp [pairScope, hdom, hran, hlength, identifiers_length]

/-- The words stand for the values of the two iterations. -/
theorem LoopNestDescriptor.NamesDistinct.wordEval_pair {x y : List Int}
    (hx : x.length = nest.depth) (hy : y.length = nest.depth) {i : Nat}
    (hi : i < nest.identifiers.length) :
    wordEval ((nest.identifiers ++ nest.primed).map some) nest.identifiers[i] (x ++ y) = x[i]? ∧
      wordEval ((nest.identifiers ++ nest.primed).map some) (nest.identifiers[i] ++ "_p")
        (x ++ y) = y[i]? := by
  have hword : ∀ word ∈ nest.identifiers ++ nest.primed, checkKeywords word = none := by
    intro word hword
    rcases List.mem_append.mp hword with hword | hword
    · exact hnames.identifiers_word word hword
    · obtain ⟨id, _, rfl⟩ := List.mem_map.mp hword
      exact checkKeywords_primed id
  have hids := identifiers_length nest
  have hfirst := wordEval_map_some hnames.identifiers_nodup hword (i := i)
    (by rw [List.length_append]; omega) (x ++ y)
  have hsecond := wordEval_map_some hnames.identifiers_nodup hword
    (i := nest.identifiers.length + i)
    (by rw [List.length_append, LoopNestDescriptor.primed, List.length_map]; omega) (x ++ y)
  rw [List.getElem_append_left hi, List.getElem?_append_left (by omega)] at hfirst
  rw [List.getElem_append_right (by omega), List.getElem?_append_right (by omega)] at hsecond
  refine ⟨hfirst, ?_⟩
  simpa [LoopNestDescriptor.primed, hids, hx] using hsecond

/-- The order string relates the iterations in lexicographic order. -/
theorem LoopNestDescriptor.NamesDistinct.before_iff {x y : Point}
    (hx : x.coords.length = nest.depth) (hy : y.coords.length = nest.depth) :
    Before nest x y ↔ x.name = "Stmt" ∧ y.name = "Stmt" ∧
      List.Lex (· < ·) x.coords y.coords := by
  have hids := identifiers_length nest
  have hvalue := fun i hi => hnames.wordEval_pair hx hy (i := i) hi
  have hscope := hnames.pairScope_eq
  generalize (nest.identifiers ++ nest.primed).map some = vars at hvalue hscope
  let first := fun w => (wordEval vars w (x.coords ++ y.coords)).getD 0
  let second := fun w => (wordEval vars (w ++ "_p") (x.coords ++ y.coords)).getD 0
  have hfirst : nest.identifiers.map first = x.coords := by
    apply List.ext_getElem
    · rw [List.length_map, hids, hx]
    · intro i hi hi'
      simp [first, (hvalue i (by omega)).1, List.getElem?_eq_getElem hi']
  have hsecond : nest.identifiers.map second = y.coords := by
    apply List.ext_getElem
    · rw [List.length_map, hids, hy]
    · intro i hi hi'
      simp [second, (hvalue i (by omega)).2, List.getElem?_eq_getElem hi']
  have hlex := precedes_iff_lex vars (x.coords ++ y.coords) first second [] nest.identifiers (by
      intro w hw
      obtain ⟨i, hi, rfl⟩ := List.getElem_of_mem (by simpa using hw)
      simp [first, second, hvalue i hi, List.getElem?_eq_getElem (hx ▸ hids ▸ hi),
        List.getElem?_eq_getElem (hy ▸ hids ▸ hi)])
  rw [hfirst, hsecond] at hlex
  simp only [Before, hscope, Option.some.injEq, Prod.mk.injEq]
  constructor
  · rintro ⟨_, _, _, ⟨rfl, rfl, rfl⟩, ⟨⟨hxn, _⟩, ⟨hyn, _⟩, _⟩, hprecedes⟩
    exact ⟨hxn, hyn, (hlex.mp hprecedes).2⟩
  · rintro ⟨hxn, hyn, hprecedes⟩
    refine ⟨_, _, _, ⟨rfl, rfl, rfl⟩, ?_, hlex.mpr ⟨by simp, hprecedes⟩⟩
    refine ⟨⟨hxn, by simp [hx]⟩, ⟨hyn, by simp [hy]⟩, Tuple.admits_of_replicate,
      Tuple.admits_of_replicate, trivial⟩

/-- A pair violates a dimension when it goes back in it. -/
theorem LoopNestDescriptor.NamesDistinct.violates_iff {x y : Point}
    (hx : x.coords.length = nest.depth) (hy : y.coords.length = nest.depth) {k : Nat}
    (hk : k < nest.identifiers.length) :
    Violates nest nest.identifiers[k] x y ↔ x.name = "Stmt" ∧ y.name = "Stmt" ∧
      ∃ a b, x.coords[k]? = some a ∧ y.coords[k]? = some b ∧ b < a := by
  obtain ⟨hfirst, hsecond⟩ := hnames.wordEval_pair hx hy hk
  simp only [Violates, hnames.pairScope_eq, Option.some.injEq, Prod.mk.injEq]
  constructor
  · rintro ⟨_, _, _, ⟨rfl, rfl, rfl⟩, ⟨⟨hxn, _⟩, ⟨hyn, _⟩, _⟩, a, b, ha, hb, hlt⟩
    exact ⟨hxn, hyn, a, b, hfirst.symm.trans ha, hsecond.symm.trans hb, hlt⟩
  · rintro ⟨hxn, hyn, a, b, ha, hb, hlt⟩
    refine ⟨_, _, _, ⟨rfl, rfl, rfl⟩, ?_, a, b, hfirst.trans ha, hsecond.trans hb, hlt⟩
    exact ⟨⟨hxn, by simp [hx]⟩, ⟨hyn, by simp [hy]⟩, Tuple.admits_of_replicate,
      Tuple.admits_of_replicate, trivial⟩

end Names

/-- A nest with constant bounds whose identifiers are distinct words and whose
subscripts are affine in its induction variables. -/
structure LoopNestDescriptor.Box (F : Function) (nest : LoopNestDescriptor) : Prop
    extends nest.WellFormed F, nest.NamesDistinct where
  upper_constant : ∀ loop ∈ nest.loops, loop.bounds.upper.terms = []
  subscript_affine : ∀ access ∈ nest.accesses, ∀ expr ∈ access.subscripts,
    ∀ term ∈ expr.terms, term.coefficient ≠ 0 ∧ -2 ^ 63 < term.coefficient.toInt ∧
      ∃ loop ∈ nest.loops, term.symbol = some loop.induction

instance (F : Function) (nest : LoopNestDescriptor) : Decidable (nest.Box F) :=
  decidable_of_iff (nest.WellFormed F ∧ nest.NamesDistinct ∧
      (∀ loop ∈ nest.loops, loop.bounds.upper.terms = []) ∧
      ∀ access ∈ nest.accesses, ∀ expr ∈ access.subscripts, ∀ term ∈ expr.terms,
        term.coefficient ≠ 0 ∧ -2 ^ 63 < term.coefficient.toInt ∧
          ∃ loop ∈ nest.loops, term.symbol = some loop.induction)
    ⟨fun h => ⟨h.1, h.2.1, h.2.2.1, h.2.2.2⟩, fun h => ⟨h.toWellFormed, h.toNamesDistinct,
      h.upper_constant, h.subscript_affine⟩⟩

section Box

variable (nest : LoopNestDescriptor)

/-- The iterations of a nest with constant bounds. -/
def LoopNestDescriptor.box : Set (List Int) :=
  { x | List.Forall₂ (fun loop v => loop.bounds.lower.constant.toInt ≤ v ∧
      v < loop.bounds.upper.constant.toInt) nest.loops x }

/-- The value of every induction variable at an iteration. -/
def LoopNestDescriptor.valuation (x : List Int) (value : Value) : Int :=
  x.getD (nest.loops.findIdx (·.induction == value)) 0

/-- The subscript values of an access at an iteration. -/
def LoopNestDescriptor.cell (access : MemoryAccess) (x : List Int) : List Int :=
  access.printedSubscripts.map fun expr => expr.eval (nest.valuation x)

/-- The dependences of a nest: what `getDependencies` is there to find. -/
def LoopNestDescriptor.dependences : Set (List Int × List Int) :=
  { pair | pair.1 ∈ nest.box ∧ pair.2 ∈ nest.box ∧ List.Lex (· < ·) pair.1 pair.2 ∧
    ∃ a ∈ nest.accesses, ∃ b ∈ nest.accesses,
      (a.accessKind = .store ∨ b.accessKind = .store) ∧
      sanitizeISLName a.baseName = sanitizeISLName b.baseName ∧
      nest.cell a pair.1 = nest.cell b pair.2 }

variable {F : Function} {nest} (hbox : nest.Box F)
include hbox

theorem LoopNestDescriptor.Box.inDomain_iff (x : Point) :
    InDomain F nest x ↔ x.name = "Stmt" ∧ x.coords ∈ nest.box := by
  obtain ⟨body, hbody, hmem⟩ := mem_domainBody_box (F := F) hbox.nodup hbox.identifiers_word
    hbox.lower_constant hbox.upper_constant
  rw [PolyhedralPass.inDomain_iff hbody, hmem]
  rfl

/-- The induction variables are distinct, as their identifiers are. -/
theorem LoopNestDescriptor.Box.valuation_induction {x : List Int} {i : Nat}
    (hi : i < nest.loops.length) (hx : i < x.length) :
    nest.valuation x nest.loops[i].induction = x[i] := by
  have hfind : nest.loops.findIdx (·.induction == nest.loops[i].induction) = i := by
    rw [List.findIdx_eq hi]
    refine ⟨by simp, ?_⟩
    intro j hj
    rw [beq_eq_false_iff_ne]
    intro heq
    have hi' : i < nest.identifiers.length := by rw [identifiers_length]; exact hi
    have hj' : j < nest.identifiers.length := hj.trans hi'
    have hids : nest.identifiers[j] = nest.identifiers[i] := by
      simp only [LoopNestDescriptor.identifiers, List.getElem_map,
        hbox.inductionName _ (List.getElem_mem _), heq]
    exact absurd ((List.Nodup.getElem_inj_iff hbox.nodup).mp hids) (by omega)
  rw [LoopNestDescriptor.valuation, hfind]
  simp [hx]

/-- The subscripts of a nest in a box are in scope and have their values. -/
theorem LoopNestDescriptor.Box.subscript_spec {access : MemoryAccess}
    (haccess : access ∈ nest.accesses) {expr : AffineExpr}
    (hexpr : expr ∈ access.printedSubscripts) :
    SubscriptInScope F (nest.identifiers.map some) expr ∧
      ∀ x cell : List Int, x.length = nest.depth →
        readExpr F (nest.identifiers.map some) expr (x ++ cell) =
          some (expr.eval (nest.valuation x)) := by
  have hword : ∀ term ∈ expr.terms, term.coefficient ≠ 0 ∧ -2 ^ 63 < term.coefficient.toInt ∧
      ∃ i, ∃ hi : i < nest.loops.length, term.symbol = some nest.loops[i].induction ∧
        termName F term = sanitizeISLName nest.loops[i].inductionName := by
    intro term hterm
    have hsubscript : expr ∈ access.subscripts := by
      unfold MemoryAccess.printedSubscripts at hexpr
      split_ifs at hexpr
      · obtain rfl := List.mem_singleton.mp hexpr
        simp at hterm
      · exact hexpr
    obtain ⟨hzero, hmin, loop, hloop, hsymbol⟩ :=
      hbox.subscript_affine access haccess expr hsubscript term hterm
    obtain ⟨i, hi, rfl⟩ := List.getElem_of_mem hloop
    refine ⟨hzero, hmin, i, hi, hsymbol, ?_⟩
    rw [termName, hsymbol, hbox.inductionName _ hloop]
    rfl
  have heval : ∀ {i : Nat} (hi : i < nest.loops.length) (env : List Int),
      wordEval (nest.identifiers.map some) (sanitizeISLName nest.loops[i].inductionName) env =
        env[i]? := fun hi env => wordEval_identifier hbox.nodup hbox.identifiers_word hi env
  constructor
  · intro term hterm
    obtain ⟨hzero, _, i, hi, _, hname⟩ := hword term hterm
    refine ⟨hzero, ?_⟩
    have hids : i < nest.identifiers.length := by rw [identifiers_length]; exact hi
    have hident : nest.identifiers[i] = sanitizeISLName nest.loops[i].inductionName := by
      simp [LoopNestDescriptor.identifiers]
    have htoken : checkKeywords nest.identifiers[i] = none :=
      hbox.identifiers_word _ (List.getElem_mem hids)
    rw [hname, ← hident]
    simp [wordPos, wordToken, htoken, varsPos_map_some hbox.nodup hids]
  · intro x cell hx
    apply readExpr_eval
    intro term hterm
    obtain ⟨hzero, hmin, i, hi, hsymbol, hname⟩ := hword term hterm
    have hi' : i < x.length := by rw [hx]; exact hi
    refine ⟨hzero, hmin, _, hsymbol, ?_⟩
    rw [hname, heval hi, List.getElem?_append_left hi', hbox.valuation_induction hi hi',
      List.getElem?_eq_getElem hi']

/-- An access touches the element of its array that the subscripts name. -/
theorem LoopNestDescriptor.Box.touches_iff {access : MemoryAccess}
    (haccess : access ∈ nest.accesses) {x : Point} (hx : x.coords.length = nest.depth)
    (cell : Point) :
    Touches F nest access x cell ↔ x.name = "Stmt" ∧
      cell.name = sanitizeISLName access.baseName ∧ cell.coords = nest.cell access x.coords := by
  have hscope := tupleItems_fresh [] hbox.identifiers_word hbox.nodup (by simp)
  rw [List.nil_append, identifiers_length] at hscope
  obtain ⟨affs, vars', hitems, hlength, hevals⟩ :=
    tupleItems_inScope (fun expr hexpr => (hbox.subscript_spec haccess hexpr).1) 0
  rw [List.replicate_zero, List.append_nil] at hitems
  have hbody : accessBody F nest access = some (.map ⟨"Stmt", List.replicate nest.depth none⟩
      ⟨sanitizeISLName access.baseName, affs.map some⟩ .tt) := by
    simp [accessBody, hscope, hitems]
  have hcell : affs.map (Aff.eval (x.coords ++ cell.coords)) =
      (nest.cell access x.coords).map some := by
    rw [hevals, LoopNestDescriptor.cell, List.map_map]
    refine List.map_congr_left fun expr hexpr => ?_
    exact (hbox.subscript_spec haccess hexpr).2 x.coords cell.coords hx
  have hcells : (nest.cell access x.coords).length = affs.length := by
    rw [hlength, LoopNestDescriptor.cell, List.length_map]
  simp only [Touches, hbody, Option.some.injEq, exists_eq_left', Body.toUnionMap,
    Set.mem_ofPred_eq, Tuple.space, List.length_map, List.length_replicate, hx, and_true,
    Formula.holds, Tuple.admits_of_replicate, true_and]
  constructor
  · rintro ⟨hname, ⟨hcellName, hcellLength⟩, hadmits⟩
    rw [← hx, Tuple.admits_map_some hcellLength, hcell] at hadmits
    exact ⟨hname, hcellName, (List.map_injective_iff.mpr (Option.some_injective Int) hadmits).symm⟩
  · rintro ⟨hname, hcellName, hcoords⟩
    have hcellLength : cell.coords.length = affs.length := by rw [hcoords, hcells]
    refine ⟨hname, ⟨hcellName, hcellLength⟩, ?_⟩
    rw [← hx, Tuple.admits_map_some hcellLength, hcell, hcoords]

omit hbox in
theorem LoopNestDescriptor.length_of_mem_box {x : List Int} (hx : x ∈ nest.box) :
    x.length = nest.depth := (List.Forall₂.length_eq hx).symm

/-- Every string is readable. -/
theorem LoopNestDescriptor.Box.getDependencies_isSome :
    (getDependencies true F nest).isSome := by
  rw [PolyhedralPass.getDependencies_isSome hbox.toWellFormed]
  obtain ⟨body, hbody, _⟩ := mem_domainBody_box (F := F) hbox.nodup hbox.identifiers_word
    hbox.lower_constant hbox.upper_constant
  refine ⟨by rw [hbody]; rfl, ?_⟩
  intro access haccess
  have hscope := tupleItems_fresh [] hbox.identifiers_word hbox.nodup (by simp)
  rw [List.nil_append] at hscope
  obtain ⟨affs, vars', hitems, _, _⟩ :=
    tupleItems_inScope (fun expr hexpr => (hbox.subscript_spec haccess hexpr).1) 0
  rw [List.replicate_zero, List.append_nil] at hitems
  simp [accessBody, hscope, hitems]

/-- The pairs of any relation `getDependencies` returns for a nest in a box. -/
theorem LoopNestDescriptor.Box.mem_getDependencies {deps : UnionMap}
    (hdeps : getDependencies true F nest = some deps) (x y : Point) :
    (x, y) ∈ deps ↔ x.name = "Stmt" ∧ y.name = "Stmt" ∧
      (x.coords, y.coords) ∈ nest.dependences := by
  rw [PolyhedralPass.mem_getDependencies hbox.toWellFormed hdeps, hbox.inDomain_iff,
    hbox.inDomain_iff]
  constructor
  · rintro ⟨⟨hxn, hx⟩, ⟨hyn, hy⟩, hbefore, a, ha, b, hb, hkind, cell, hxc, hyc⟩
    have hxl := nest.length_of_mem_box hx
    have hyl := nest.length_of_mem_box hy
    rw [hbox.before_iff hxl hyl] at hbefore
    rw [hbox.touches_iff ha hxl] at hxc
    rw [hbox.touches_iff hb hyl] at hyc
    exact ⟨hxn, hyn, hx, hy, hbefore.2.2, a, ha, b, hb, hkind, hxc.2.1.symm.trans hyc.2.1,
      hxc.2.2.symm.trans hyc.2.2⟩
  · rintro ⟨hxn, hyn, hx, hy, hlex, a, ha, b, hb, hkind, hname, hcell⟩
    have hxl := nest.length_of_mem_box hx
    have hyl := nest.length_of_mem_box hy
    refine ⟨⟨hxn, hx⟩, ⟨hyn, hy⟩, (hbox.before_iff hxl hyl).mpr ⟨hxn, hyn, hlex⟩, a, ha, b, hb,
      hkind, ⟨sanitizeISLName a.baseName, nest.cell a x.coords⟩, ?_, ?_⟩
    · exact (hbox.touches_iff ha hxl _).mpr ⟨hxn, rfl, rfl⟩
    · exact (hbox.touches_iff hb hyl _).mpr ⟨hyn, hname, hcell⟩

end Box

/-- The relation `getDependencies` returns, with `==` as an equality, is the set
of the dependences of the nest. -/
theorem getDependencies_exact (F : Function) (nest : LoopNestDescriptor) (hbox : nest.Box F) :
    getDependencies true F nest = some { pair | pair.1.name = "Stmt" ∧ pair.2.name = "Stmt" ∧
      (pair.1.coords, pair.2.coords) ∈ nest.dependences } := by
  obtain ⟨deps, hdeps⟩ := Option.isSome_iff_exists.mp hbox.getDependencies_isSome
  rw [hdeps, Option.some.injEq]
  ext ⟨x, y⟩
  exact hbox.mem_getDependencies hdeps x y

def exampleFunction : Function where
  blocks := []
  constant _ := none
  argType _ := .ptr
  name value := [(1, "i"), (2, "j"), (3, "A")].lookup value
  operand _ := "%0"

def exampleLoop (induction : Value) (inductionName : String) (upper : Int64) : LoopDescriptor where
  loopNode := .mk 0 [] []
  induction := induction
  nextValue := 10
  inductionName := inductionName
  bounds := { lower := .ofConstant 0, upper := .ofConstant upper }
  startValue := 11
  boundValue := 12
  compare := 13
  predicate := .slt

/-- `A[i][j] = A[i][j - 1]` -/
def exampleNest : LoopNestDescriptor where
  loops := [exampleLoop 1 "i" 8, exampleLoop 2 "j" 8]
  accesses :=
    [⟨.load, 4, 3, "A", [⟨0, [⟨some 1, 1⟩]⟩, ⟨-1, [⟨some 2, 1⟩]⟩]⟩,
      ⟨.store, 5, 3, "A", [⟨0, [⟨some 1, 1⟩]⟩, ⟨0, [⟨some 2, 1⟩]⟩]⟩]

theorem exampleNest_box : exampleNest.Box exampleFunction := by decide

theorem exampleNest_exact : getDependencies true exampleFunction exampleNest =
    some { pair | pair.1.name = "Stmt" ∧ pair.2.name = "Stmt" ∧
      (pair.1.coords, pair.2.coords) ∈ exampleNest.dependences } :=
  getDependencies_exact exampleFunction exampleNest exampleNest_box

end PolyhedralPass
