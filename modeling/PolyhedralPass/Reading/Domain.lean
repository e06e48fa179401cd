/-
What isl reads in the domain string of a nest.
-/
import Mathlib.Data.List.Nodup
import PolyhedralPass.Isl.Object
import PolyhedralPass.Reading.Expr

namespace PolyhedralPass

open Isl

/-- No term of an expression has the null symbol; `addTerm` never adds one. -/
def AffineExpr.HasSymbols (expr : AffineExpr) : Prop := ∀ term ∈ expr.terms, term.symbol ≠ none

instance (expr : AffineExpr) : Decidable expr.HasSymbols :=
  inferInstanceAs (Decidable (∀ term ∈ expr.terms, term.symbol ≠ none))

/-- What the analysis guarantees of every nest it describes: induction variables
that start from a constant, expressions over actual values, and the names the
strings are built from. -/
structure LoopNestDescriptor.WellFormed (F : Function) (nest : LoopNestDescriptor) : Prop where
  depth_ge : 2 ≤ nest.depth
  inductionName : ∀ loop ∈ nest.loops,
    loop.inductionName = F.valueNameOrFallback (some loop.induction) "iv"
  lower_constant : ∀ loop ∈ nest.loops, loop.bounds.lower.terms = []
  upper_hasSymbols : ∀ loop ∈ nest.loops, loop.bounds.upper.HasSymbols
  subscript_hasSymbols : ∀ access ∈ nest.accesses, ∀ expr ∈ access.subscripts, expr.HasSymbols

instance (F : Function) (nest : LoopNestDescriptor) : Decidable (nest.WellFormed F) :=
  decidable_of_iff (2 ≤ nest.depth ∧
      (∀ loop ∈ nest.loops,
        loop.inductionName = F.valueNameOrFallback (some loop.induction) "iv") ∧
      (∀ loop ∈ nest.loops, loop.bounds.lower.terms = []) ∧
      (∀ loop ∈ nest.loops, loop.bounds.upper.HasSymbols) ∧
      ∀ access ∈ nest.accesses, ∀ expr ∈ access.subscripts, expr.HasSymbols)
    ⟨fun h => ⟨h.1, h.2.1, h.2.2.1, h.2.2.2.1, h.2.2.2.2⟩,
      fun h => ⟨h.depth_ge, h.inductionName, h.lower_constant, h.upper_hasSymbols,
        h.subscript_hasSymbols⟩⟩

section Tuples

/-- The tokens of a tuple with the given words. -/
def tupleTokens (name : String) (words : List String) (rest : Stream) : Stream :=
  wordToken name :: .char '[' ::
    (joinTokens (.char ',') (words.map fun word => [wordToken word]) ++ .char ']' :: rest)

theorem tupleTokens_ne_brace (name : String) (words : List String) (rest s : Stream) :
    tupleTokens name words rest ≠ .char '\x7d' :: s := by
  unfold tupleTokens
  rcases wordToken_eq name with hname | ⟨kw, hname⟩
  · simp [hname]
  · simp [hname]

theorem isWord_stmt : IsWord "Stmt" :=
  ⟨'S', "tmt".toList, rfl, by decide, List.all_eq_true.mp (by decide)⟩

@[simp] theorem boundary_openBracket {rest : List Char} : Boundary ('[' :: rest) :=
  boundary_cons (by decide) (by decide)

theorem tokens_tuple {name : String} (hname : IsWord name) {words : List String}
    (hwords : ∀ word ∈ words, IsWord word) (cs : List Char) :
    tokens (name.toList ++ '[' :: ((", ".intercalate words).toList ++ ']' :: cs)) =
      tupleTokens name words (tokens cs) := by
  have hjoin := tokens_intercalate separates_comma id (fun word => [wordToken word])
    (fun word hword rest hrest => by simpa using tokens_word (hwords word hword) hrest)
    (boundary_bracket : Boundary (']' :: cs))
  rw [List.map_id] at hjoin
  rw [tokens_word hname boundary_openBracket, tokens_singleChar (by decide), hjoin,
    tokens_singleChar (by decide)]
  rfl

variable (nest : LoopNestDescriptor)

theorem isWord_identifiers : ∀ word ∈ nest.identifiers, IsWord word := by
  intro word hword
  obtain ⟨loop, _, rfl⟩ := List.mem_map.mp hword
  exact isWord_sanitizeISLName loop.inductionName

/-- The identifiers of the second iteration. -/
def LoopNestDescriptor.primed : List String := nest.identifiers.map (· ++ "_p")

theorem isWord_primed_identifiers : ∀ word ∈ nest.primed, IsWord word := by
  intro word hword
  obtain ⟨id, hid, rfl⟩ := List.mem_map.mp hword
  exact isWord_primed (isWord_identifiers nest id hid)

theorem toList_buildISLTuple (suffix : String) (cs : List Char) :
    (buildISLTuple nest suffix).toList ++ cs =
      "Stmt".toList ++ '[' ::
        ((", ".intercalate (nest.identifiers.map (· ++ suffix))).toList ++ ']' :: cs) := by
  have hopen : ("Stmt[" : String).toList = "Stmt".toList ++ ['['] := rfl
  have hclose : ("]" : String).toList = [']'] := rfl
  simp [buildISLTuple, hopen, hclose]

theorem tokens_buildISLTuple (cs : List Char) :
    tokens ((buildISLTuple nest "").toList ++ cs) =
      tupleTokens "Stmt" nest.identifiers (tokens cs) := by
  have hwords : nest.identifiers.map (· ++ "") = nest.identifiers := by simp
  rw [toList_buildISLTuple, hwords]
  exact tokens_tuple isWord_stmt (isWord_identifiers nest) cs

theorem tokens_buildISLTuple_primed (cs : List Char) :
    tokens ((buildISLTuple nest "_p").toList ++ cs) =
      tupleTokens "Stmt" nest.primed (tokens cs) := by
  rw [toList_buildISLTuple]
  exact tokens_tuple isWord_stmt (isWord_primed_identifiers nest) cs

end Tuples

section Domain

variable (F : Function)

/-- The tokens of the constraint of one loop. -/
def domainTokens (loop : LoopDescriptor) : Stream :=
  exprTokens F loop.bounds.lower ++ .le :: wordToken (sanitizeISLName loop.inductionName) ::
    .lt :: exprTokens F loop.bounds.upper

theorem separates_and : Separates " and " (.keyword .and "and") := by
  intro cs
  have hlist : (" and " : String).toList ++ cs = ' ' :: ("and".toList ++ ' ' :: cs) := rfl
  have hword : IsWord "and" :=
    ⟨'a', "nd".toList, rfl, by decide, List.all_eq_true.mp (by decide)⟩
  have htoken : wordToken "and" = .keyword .and "and" := by decide
  rw [hlist, tokens_space, tokens_word hword boundary_space, tokens_space, htoken]
  exact ⟨boundary_space, rfl⟩

theorem tokens_domainConstraint {loop : LoopDescriptor} (hlower : loop.bounds.lower.HasSymbols)
    (hupper : loop.bounds.upper.HasSymbols) (rest : List Char) (hrest : Boundary rest) :
    tokens ((domainConstraint F loop).toList ++ rest) = domainTokens F loop ++ tokens rest := by
  have hle : ∀ cs, (" <= " : String).toList ++ cs = ' ' :: '<' :: '=' :: ' ' :: cs := fun _ => rfl
  have hlt : ∀ cs, (" < " : String).toList ++ cs = ' ' :: '<' :: ' ' :: cs := fun _ => rfl
  simp only [domainConstraint, String.toList_append, List.append_assoc]
  rw [hle, hlt, tokens_toISLString F hlower boundary_space, tokens_space, tokens_le, tokens_space,
    tokens_word (isWord_sanitizeISLName _) boundary_space, tokens_space, tokens_lt_space,
    tokens_toISLString F hupper hrest]
  simp [domainTokens]

variable (nest : LoopNestDescriptor)

theorem tokens_domainStr (hlower : ∀ loop ∈ nest.loops, loop.bounds.lower.HasSymbols)
    (hupper : ∀ loop ∈ nest.loops, loop.bounds.upper.HasSymbols) :
    tokens (domainStr F nest).toList =
      .char '\x7b' :: tupleTokens "Stmt" nest.identifiers (.char ':' ::
        (joinTokens (.keyword .and "and") (nest.loops.map (domainTokens F)) ++
          [.char '\x7d'])) := by
  have hopen : ∀ cs, ("\x7b " : String).toList ++ cs = '\x7b' :: ' ' :: cs := fun _ => rfl
  have hclose : (" \x7d" : String).toList = [' ', '\x7d'] := rfl
  have hcolon : ∀ cs, (" : " : String).toList ++ cs = ' ' :: ':' :: ' ' :: cs := fun _ => rfl
  simp only [domainStr, String.toList_append, List.append_assoc]
  rw [hopen, hcolon, hclose, tokens_singleChar (by decide), tokens_space, tokens_buildISLTuple,
    tokens_space, tokens_colon_space, tokens_intercalate separates_and _ (domainTokens F)
      (fun loop hloop => tokens_domainConstraint F (hlower loop hloop) (hupper loop hloop))
      boundary_space, tokens_space, tokens_singleChar (by decide)]
  rfl

theorem isSum_exprTokens {vars : Vars} {expr : AffineExpr} {aff : Aff}
    (haff : exprAff F vars expr = some aff) : IsSum vars (exprTokens F expr) aff := by
  intro s hs
  rw [acceptAffine_eq_exprAff F vars expr hs, haff]
  rfl

/-- The condition of one loop, read with the given names in scope. -/
def domainCond (vars : Vars) (loop : LoopDescriptor) : Option Formula :=
  (exprAff F vars loop.bounds.lower).bind fun lower =>
    (wordAff vars (sanitizeISLName loop.inductionName)).bind fun iv =>
      (exprAff F vars loop.bounds.upper).map fun upper =>
        .and (.cmp .le lower iv) (.cmp .lt iv upper)

theorem readsCond_domainTokens (eqEq : Bool) (readFormula : FormulaReader) {vars : Vars}
    {loop : LoopDescriptor} (hlower : loop.bounds.lower.terms = [])
    (hiv : (wordAff vars (sanitizeISLName loop.inductionName)).isSome) :
    ReadsCond eqEq readFormula vars (domainTokens F) (domainCond F vars) loop := by
  have hreadable : exprReadable F vars loop.bounds.lower := by simp [exprReadable, hlower]
  rw [← exprAff_isSome] at hreadable
  obtain ⟨lower, hlower⟩ := Option.isSome_iff_exists.mp hreadable
  obtain ⟨iv, hiv⟩ := Option.isSome_iff_exists.mp hiv
  have hle : comparator? eqEq .le = some .le := rfl
  have hlt : comparator? eqEq .lt = some .lt := rfl
  intro s hs
  cases hupper : exprAff F vars loop.bounds.upper with
  | some upper =>
      have hcond := isCond_two eqEq readFormula vars (isSum_exprTokens F hlower) hle
        (isSum_wordToken hiv) hlt (isSum_exprTokens F hupper) s hs
      simp only [domainCond, hlower, hiv, hupper, Option.bind_some, Option.map_some]
      exact hcond
  | none =>
      have hthird : acceptAffine vars (exprTokens F loop.bounds.upper ++ s) = none := by
        rw [acceptAffine_eq_exprAff F vars _ hs.endsSum, hupper]
        rfl
      have hnone := addConstraint_two_none eqEq vars (isSum_exprTokens F hlower) hle
        (isSum_wordToken hiv) hlt hthird
      have hassoc : domainTokens F loop ++ s = exprTokens F loop.bounds.lower ++ .le ::
          ([wordToken (sanitizeISLName loop.inductionName)] ++ .lt ::
            (exprTokens F loop.bounds.upper ++ s)) := by
        simp [domainTokens]
      simp only [domainCond, hlower, hiv, hupper, Option.bind_some, Option.map_none]
      rw [hassoc, readNegatedConjunct_of_isSome, hnone]
      rw [isSum_exprTokens F hlower _ (.of_comparator hle _)]
      rfl

theorem domainTokens_ne_brace {loop : LoopDescriptor} (hlower : loop.bounds.lower.terms = [])
    (s s' : Stream) : domainTokens F loop ++ s ≠ .char '\x7d' :: s' := by
  unfold domainTokens exprTokens intTokens
  rw [hlower]
  by_cases hneg : loop.bounds.lower.constant.toInt < 0
  · simp [hneg]
  · simp [hneg]

/-- The domain string as isl reads it. -/
def domainBody : Option Body :=
  (tupleItems wordElem [] nest.identifiers).bind fun (elems, vars) =>
    (conjoin (domainCond F vars) nest.loops).map fun cond => .set ⟨"Stmt", elems⟩ cond

theorem objReadBody_domain (eqEq : Bool) (hne : nest.loops ≠ [])
    (hlower : ∀ loop ∈ nest.loops, loop.bounds.lower.terms = []) :
    objReadBody eqEq (tupleTokens "Stmt" nest.identifiers (.char ':' ::
        (joinTokens (.keyword .and "and") (nest.loops.map (domainTokens F)) ++
          [.char '\x7d']))) =
      (domainBody F nest).map fun body => (body, [.char '\x7d']) := by
  have hids : nest.identifiers ≠ [] := by simpa [LoopNestDescriptor.identifiers] using hne
  rw [objReadBody, tupleTokens, readTuple_words [] eqEq hids, domainBody]
  cases htuple : tupleItems wordElem [] nest.identifiers with
  | none => rfl
  | some result =>
      obtain ⟨elems, vars⟩ := result
      have hscope := (tupleItems_word_vars [] htuple).2
      have hcond := readOptionalFormula_conjuncts eqEq vars hne
        (fun loop hloop depth => readsCond_domainTokens F eqEq (readFormula eqEq vars depth)
          (hlower loop hloop) (hscope _ (List.mem_map_of_mem hloop)))
        (fun loop hloop => domainTokens_ne_brace F (hlower loop hloop)) "and" []
      simp only [Option.map_some, Option.bind_some, hcond, Option.map_map]
      rfl

theorem objRead_domainStr (eqEq : Bool) (hne : nest.loops ≠ [])
    (hlower : ∀ loop ∈ nest.loops, loop.bounds.lower.terms = [])
    (hupper : ∀ loop ∈ nest.loops, loop.bounds.upper.HasSymbols) :
    objRead eqEq (tokens (domainStr F nest).toList) =
      (domainBody F nest).map fun body => [body] := by
  have hsymbols : ∀ loop ∈ nest.loops, loop.bounds.lower.HasSymbols := by
    intro loop hloop
    simp [AffineExpr.HasSymbols, hlower loop hloop]
  rw [tokens_domainStr F nest hsymbols hupper]
  apply objRead_one (objReadBody_domain F nest eqEq hne hlower)
  exact tupleTokens_ne_brace _ _ _

/-- The union set isl reads in the domain string. -/
theorem unionSetReadFromStr_domainStr (eqEq : Bool) (hne : nest.loops ≠ [])
    (hlower : ∀ loop ∈ nest.loops, loop.bounds.lower.terms = [])
    (hupper : ∀ loop ∈ nest.loops, loop.bounds.upper.HasSymbols) :
    unionSetReadFromStr eqEq (domainStr F nest) = (domainBody F nest).map Body.toUnionSet := by
  have hset : ∀ body, domainBody F nest = some body → body.isMap = false := by
    intro body hbody
    obtain ⟨⟨elems, vars⟩, _, hrest⟩ := Option.bind_eq_some_iff.mp hbody
    obtain ⟨cond, _, rfl⟩ := Option.map_eq_some_iff.mp hrest
    rfl
  rw [unionSetReadFromStr, objRead_domainStr F nest eqEq hne hlower hupper]
  cases hbody : domainBody F nest with
  | none => rfl
  | some body => simp [hset body hbody]

/-- The value a word is read as. -/
theorem eval_wordAff {vars : Vars} {word : String} {aff : Aff}
    (haff : wordAff vars word = some aff) (env : List Int) :
    aff.eval env = wordEval vars word env := by
  unfold wordAff at haff
  unfold wordEval wordPos
  split at haff
  · rename_i name htoken
    obtain ⟨pos, hpos, rfl⟩ := Option.map_eq_some_iff.mp haff
    simp [Aff.eval, htoken, hpos, wordValue]
  · rename_i name htoken
    obtain rfl := Option.some.inj haff
    simp [Aff.eval, htoken]
  · exact absurd haff (by simp)

/-- A loop's constraint holds where its identifier and its bounds have values
that compare. -/
theorem domainCond_holds {vars : Vars} {loop : LoopDescriptor} {cond : Formula}
    (hcond : domainCond F vars loop = some cond) (env : List Int) :
    cond.holds env ↔ ∃ l v u, readExpr F vars loop.bounds.lower env = some l ∧
      wordEval vars (sanitizeISLName loop.inductionName) env = some v ∧
      readExpr F vars loop.bounds.upper env = some u ∧ l ≤ v ∧ v < u := by
  obtain ⟨lower, hlower, hrest⟩ := Option.bind_eq_some_iff.mp hcond
  obtain ⟨iv, hiv, hrest⟩ := Option.bind_eq_some_iff.mp hrest
  obtain ⟨upper, hupper, rfl⟩ := Option.map_eq_some_iff.mp hrest
  simp only [Formula.holds, eval_exprAff F vars hlower, eval_exprAff F vars hupper,
    eval_wordAff hiv, Comparator.holds]
  constructor
  · rintro ⟨⟨l, v, hl, hv, hle⟩, v', u, hv', hu, hlt⟩
    obtain rfl : v = v' := Option.some.inj (hv.symm.trans hv')
    exact ⟨l, v, u, hl, hv, hu, hle, hlt⟩
  · rintro ⟨l, v, u, hl, hv, hu, hle, hlt⟩
    exact ⟨⟨l, v, hl, hv, hle⟩, v, u, hv, hu, hlt⟩

/-- The points of the domain as isl reads it. -/
theorem mem_domainBody_iff {body : Body} (hbody : domainBody F nest = some body) (point : Point) :
    point ∈ body.toUnionSet ↔
      ∃ elems vars, tupleItems wordElem [] nest.identifiers = some (elems, vars) ∧
        (⟨"Stmt", elems⟩ : Tuple).space point ∧
        (⟨"Stmt", elems⟩ : Tuple).admits 0 point.coords ∧
        ∀ loop ∈ nest.loops, ∃ l v u,
          readExpr F vars loop.bounds.lower point.coords = some l ∧
          wordEval vars (sanitizeISLName loop.inductionName) point.coords = some v ∧
          readExpr F vars loop.bounds.upper point.coords = some u ∧ l ≤ v ∧ v < u := by
  obtain ⟨⟨elems, vars⟩, htuple, hrest⟩ := Option.bind_eq_some_iff.mp hbody
  obtain ⟨cond, hcond, rfl⟩ := Option.map_eq_some_iff.mp hrest
  have hloops : cond.holds point.coords ↔ ∀ loop ∈ nest.loops, ∃ l v u,
      readExpr F vars loop.bounds.lower point.coords = some l ∧
      wordEval vars (sanitizeISLName loop.inductionName) point.coords = some v ∧
      readExpr F vars loop.bounds.upper point.coords = some u ∧ l ≤ v ∧ v < u := by
    have hsome : (conjoin (domainCond F vars) nest.loops).isSome := by
      rw [hcond]
      rfl
    rw [conjoin_isSome, List.all_eq_true] at hsome
    rw [conjoin_holds _ hcond]
    refine forall_congr' fun loop => forall_congr' fun hloop => ?_
    obtain ⟨c, hc⟩ := Option.isSome_iff_exists.mp (hsome loop hloop)
    rw [← domainCond_holds F hc, hc]
    simp
  simp only [Body.toUnionSet, Set.mem_ofPred_eq, hloops, htuple, Option.some.injEq,
    Prod.mk.injEq]
  constructor
  · rintro ⟨hspace, hadmits, hall⟩
    exact ⟨elems, vars, ⟨rfl, rfl⟩, hspace, hadmits, hall⟩
  · rintro ⟨_, _, ⟨rfl, rfl⟩, hspace, hadmits, hall⟩
    exact ⟨hspace, hadmits, hall⟩

end Domain

section DistinctNames

/-- The position of an identifier among distinct names. -/
theorem varsPos_map_some {words : List String} (hnodup : words.Nodup) {i : Nat}
    (hi : i < words.length) : varsPos (words.map some) words[i] = some i := by
  rw [varsPos, List.findIdx?_eq_some_iff_getElem]
  refine ⟨by simpa using hi, by simp, ?_⟩
  intro j hj
  simp only [List.getElem_map, beq_iff_eq, Option.some.injEq]
  intro h
  exact absurd ((List.Nodup.getElem_inj_iff hnodup).mp h) (by omega)

/-- Among distinct identifiers a word stands for its own position. -/
theorem wordEval_map_some {words : List String} (hnodup : words.Nodup)
    (hident : ∀ word ∈ words, checkKeywords word = none) {i : Nat} (hi : i < words.length)
    (env : List Int) : wordEval (words.map some) words[i] env = env[i]? := by
  unfold wordEval wordPos wordToken
  rw [hident _ (List.getElem_mem hi)]
  simp [varsPos_map_some hnodup hi, wordValue]

theorem Tuple.admits_of_replicate {name : String} {n first : Nat} {env : List Int} :
    (⟨name, List.replicate n none⟩ : Tuple).admits first env := by
  intro i expr h
  simp [List.getElem?_replicate] at h

variable {F : Function} {nest : LoopNestDescriptor}

theorem wordEval_identifier (hnodup : nest.identifiers.Nodup)
    (hident : ∀ word ∈ nest.identifiers, checkKeywords word = none) {i : Nat}
    (hi : i < nest.loops.length) (env : List Int) :
    wordEval (nest.identifiers.map some) (sanitizeISLName nest.loops[i].inductionName) env =
      env[i]? := by
  have hlength : i < nest.identifiers.length := by simpa [LoopNestDescriptor.identifiers] using hi
  have hword : nest.identifiers[i] = sanitizeISLName nest.loops[i].inductionName := by
    simp [LoopNestDescriptor.identifiers]
  rw [← hword]
  exact wordEval_map_some hnodup hident hlength env

/-- With distinct identifiers and constant bounds the domain is the box of the
nest. -/
theorem mem_domainBody_box (hnodup : nest.identifiers.Nodup)
    (hident : ∀ word ∈ nest.identifiers, checkKeywords word = none)
    (hlower : ∀ loop ∈ nest.loops, loop.bounds.lower.terms = [])
    (hupper : ∀ loop ∈ nest.loops, loop.bounds.upper.terms = []) :
    ∃ body, domainBody F nest = some body ∧ ∀ point, point ∈ body.toUnionSet ↔
      point.name = "Stmt" ∧ List.Forall₂ (fun loop v =>
        loop.bounds.lower.constant.toInt ≤ v ∧ v < loop.bounds.upper.constant.toInt)
        nest.loops point.coords := by
  have hscope := tupleItems_fresh [] hident hnodup (by simp)
  rw [List.nil_append] at hscope
  have hwords := (tupleItems_word_vars [] hscope).2
  have hconst : ∀ vars {expr : AffineExpr}, expr.terms = [] → ∀ env,
      (exprAff F vars expr).isSome ∧ readExpr F vars expr env = some expr.constant.toInt := by
    intro vars expr hexpr env
    rw [exprAff_isSome]
    simp [exprReadable, readExpr, hexpr]
  have hconds : ∀ loop ∈ nest.loops,
      (domainCond F (nest.identifiers.map some) loop).isSome := by
    intro loop hloop
    obtain ⟨lower, hl⟩ := Option.isSome_iff_exists.mp
      (hconst (nest.identifiers.map some) (hlower loop hloop) []).1
    obtain ⟨upper, hu⟩ := Option.isSome_iff_exists.mp
      (hconst (nest.identifiers.map some) (hupper loop hloop) []).1
    obtain ⟨iv, hiv⟩ := Option.isSome_iff_exists.mp (hwords _ (List.mem_map_of_mem hloop))
    simp [domainCond, hl, hu, hiv]
  have hsome : (domainBody F nest).isSome := by
    have hall : (nest.loops.all fun loop =>
        (domainCond F (nest.identifiers.map some) loop).isSome) = true := by
      simpa using hconds
    rw [← conjoin_isSome] at hall
    obtain ⟨cond, hcond⟩ := Option.isSome_iff_exists.mp hall
    simp [domainBody, hscope, hcond]
  obtain ⟨body, hbody⟩ := Option.isSome_iff_exists.mp hsome
  refine ⟨body, hbody, ?_⟩
  intro point
  rw [mem_domainBody_iff F nest hbody, List.forall₂_iff_get]
  have hloop : ∀ i (hi : i < nest.loops.length),
      (∃ l v u, readExpr F (nest.identifiers.map some) nest.loops[i].bounds.lower point.coords =
          some l ∧ wordEval (nest.identifiers.map some)
            (sanitizeISLName nest.loops[i].inductionName) point.coords = some v ∧
        readExpr F (nest.identifiers.map some) nest.loops[i].bounds.upper point.coords = some u ∧
          l ≤ v ∧ v < u) ↔
        ∃ v, point.coords[i]? = some v ∧ nest.loops[i].bounds.lower.constant.toInt ≤ v ∧
          v < nest.loops[i].bounds.upper.constant.toInt := by
    intro i hi
    rw [wordEval_identifier hnodup hident hi, (hconst _ (hlower _ (List.getElem_mem hi)) _).2,
      (hconst _ (hupper _ (List.getElem_mem hi)) _).2]
    simp
  constructor
  · rintro ⟨elems, vars, htuple, ⟨hname, hlength⟩, -, hloops⟩
    rw [hscope, Option.some.injEq, Prod.mk.injEq] at htuple
    obtain ⟨rfl, rfl⟩ := htuple
    refine ⟨hname, by simpa [LoopNestDescriptor.identifiers] using hlength.symm, ?_⟩
    intro i hi hi'
    obtain ⟨v, hv, hbounds⟩ := (hloop i hi).mp (hloops _ (List.getElem_mem hi))
    rw [List.getElem?_eq_getElem hi', Option.some.injEq] at hv
    subst hv
    exact hbounds
  · rintro ⟨hname, hlength, hbounds⟩
    refine ⟨_, _, hscope, ⟨hname, by simpa [LoopNestDescriptor.identifiers] using hlength.symm⟩,
      Tuple.admits_of_replicate, ?_⟩
    intro loop hmem
    obtain ⟨i, hi, rfl⟩ := List.getElem_of_mem hmem
    have hi' : i < point.coords.length := hlength ▸ hi
    exact (hloop i hi).mpr ⟨_, List.getElem?_eq_getElem hi', hbounds i hi hi'⟩

end DistinctNames

end PolyhedralPass
