/-
What isl reads in the strings of the accesses.  A subscript that is a single
word not in scope names its position, so the access may touch every element
there.
-/
import PolyhedralPass.Reading.Order

namespace PolyhedralPass

open Isl

section Subscripts

variable (F : Function)

/-- An expression that is printed as a single word. -/
def bareWord (expr : AffineExpr) : Option String :=
  match expr.terms with
  | [term] =>
      if expr.constant = 0 ∧ term.coefficient = 1 then some (termName F term) else none
  | _ => none

/-- What isl does with a subscript: a single word may name its position, any
other expression is what the position is equal to. -/
def subscriptElem (vars : Vars) (expr : AffineExpr) : Option (Option Aff × Vars) :=
  match bareWord F expr with
  | some word => wordElem vars word
  | none => (exprAff F (vars ++ [none]) expr).map fun aff => (some aff, vars ++ [none])

theorem absCoeff_eq_one {coefficient : Int64} (h : absCoeff coefficient = 1) :
    coefficient = 1 ∨ coefficient < 0 := by
  unfold absCoeff at h
  split_ifs at h with hneg
  · exact Or.inr hneg
  · exact Or.inl h

/-- A text that starts with a number or a sign. -/
def StartsNumber (text : Stream) : Prop :=
  ∃ tok s, text = tok :: s ∧ (tok = .char '-' ∨ ∃ m, tok = .value m)

theorem StartsNumber.append {text : Stream} (h : StartsNumber text) (s : Stream) :
    StartsNumber (text ++ s) := by
  obtain ⟨tok, s', rfl, htok⟩ := h
  exact ⟨tok, s' ++ s, rfl, htok⟩

theorem startsNumber_intTokens (n : Int) : StartsNumber (intTokens n) := by
  unfold intTokens
  split_ifs
  · exact ⟨_, _, rfl, Or.inl rfl⟩
  · exact ⟨_, _, rfl, Or.inr ⟨_, rfl⟩⟩

/-- A text that is a word with more behind it. -/
def StartsWord (text : Stream) : Prop :=
  ∃ word tok s, text = wordToken word :: tok :: s ∧
    (tok = .char '+' ∨ tok = .char '-' ∨ tok = .char '*')

theorem startsWord_tailTokens (word : String) (term : AffineTerm) (rest : List AffineTerm) :
    StartsWord (tailTokens F word (term :: rest)) := by
  rw [tailTokens]
  by_cases hzero : term.coefficient = 0
  · rw [if_pos hzero]
    exact ⟨_, _, _, rfl, Or.inr (Or.inr rfl)⟩
  · rw [if_neg hzero]
    rcases sepTokens_eq hzero with h | h
    · rw [h]
      exact ⟨_, _, _, rfl, Or.inr (Or.inl rfl)⟩
    · rw [h]
      exact ⟨_, _, _, rfl, Or.inl rfl⟩

/-- An expression that is not a single word starts with a number or a sign, or
with a word and more terms. -/
theorem exprTokens_head {expr : AffineExpr} (hbare : bareWord F expr = none) :
    StartsNumber (exprTokens F expr) ∨ StartsWord (exprTokens F expr) := by
  obtain ⟨constant, terms⟩ := expr
  cases terms with
  | nil => exact Or.inl (startsNumber_intTokens _)
  | cons term rest =>
      unfold exprTokens
      by_cases hconstant : constant = 0
      · simp only [hconstant, if_true]
        unfold sepTokens coeffTokens factorTokens
        by_cases hneg : term.coefficient < 0
        · simp only [hneg, if_true]
          exact Or.inl ⟨_, _, rfl, Or.inl rfl⟩
        · by_cases hone : (absCoeff term.coefficient).toInt = 1
          · have hcoeff : term.coefficient = 1 := by
              rcases absCoeff_eq_one (Int64.toInt_inj.mp hone) with h | h
              · exact h
              · exact absurd h hneg
            cases rest with
            | nil => simp [bareWord, hconstant, hcoeff] at hbare
            | cons next rest =>
                simpa [hneg, hone] using Or.inr (startsWord_tailTokens F _ next rest)
          · simp only [hneg, hone, if_false, Bool.false_and, Bool.false_eq_true, List.nil_append,
              List.append_assoc]
            exact Or.inl ((startsNumber_intTokens _).append _)
      · simp only [hconstant, if_false]
        by_cases hzero : term.coefficient = 0
        · simp only [hzero, if_true, List.append_assoc]
          exact Or.inl ((startsNumber_intTokens _).append _)
        · simp only [hzero, if_false, List.append_assoc]
          exact Or.inl ((startsNumber_intTokens _).append _)

theorem exprTokens_bareWord {expr : AffineExpr} {word : String}
    (hbare : bareWord F expr = some word) : exprTokens F expr = [wordToken word] := by
  obtain ⟨constant, terms⟩ := expr
  match terms with
  | [] => simp [bareWord] at hbare
  | [term] =>
      simp only [bareWord, Option.ite_none_right_eq_some, Option.some.injEq] at hbare
      obtain ⟨⟨rfl, hcoeff⟩, rfl⟩ := hbare
      have habs : (absCoeff 1).toInt = 1 := by decide
      have hneg : ¬ (1 : Int64) < 0 := by decide
      simp [exprTokens, hcoeff, sepTokens, coeffTokens, factorTokens, tailTokens, habs, hneg]
  | _ :: _ :: _ => simp [bareWord] at hbare

/-- A subscript that is equated with its position. -/
theorem readTupleVarDef_exprTokens (eqEq : Bool) (vars : Vars) (expr : AffineExpr) {s : Stream}
    (hs : EndsElem s) :
    readTupleVarDef eqEq vars (exprTokens F expr ++ s) =
      (exprAff F (vars ++ [none]) expr).map fun aff => (some aff, vars ++ [none], s) := by
  have haccept := acceptAffine_eq_exprAff F (vars ++ [none]) expr hs.endsSum
  cases haff : exprAff F (vars ++ [none]) expr with
  | none =>
      rw [haff] at haccept
      rw [readTupleVarDef, haccept]
      rfl
  | some aff =>
      rw [haff] at haccept
      exact readTupleVarDef_of_acceptAffine eqEq haccept hs

theorem readsItem_subscript (eqEq : Bool) (expr : AffineExpr) :
    ReadsItem (exprTokens F) (subscriptElem F) eqEq expr := by
  intro vars s hs
  cases hbare : bareWord F expr with
  | some word =>
      have hword := readsItem_word eqEq word vars s hs
      simp only [subscriptElem, hbare, exprTokens_bareWord F hbare]
      exact hword
  | none =>
      have hdef := readTupleVarDef_exprTokens F eqEq vars expr hs
      simp only [subscriptElem, hbare]
      -- unless the text starts with a new name, the element is an expression
      have hel : readTupleEl eqEq vars (exprTokens F expr ++ s) =
            readTupleVarDef eqEq vars (exprTokens F expr ++ s) ∨
          exprAff F (vars ++ [none]) expr = none ∧ ∃ first vars' rest,
            readTupleEl eqEq vars (exprTokens F expr ++ s) = some (first, vars', rest) ∧
              ¬ EndsElem rest := by
        rcases exprTokens_head F hbare with
          ⟨tok, rest, htext, htok⟩ | ⟨word, tok, rest, htext, htok⟩
        · left
          rw [htext]
          rcases htok with rfl | ⟨m, rfl⟩ <;> rfl
        · rcases wordToken_eq word with hword | ⟨kw, hword⟩
          · cases hpos : varsPos vars word with
            | some pos =>
                left
                rw [htext, hword]
                simp [readTupleEl, hpos]
            | none =>
                right
                have hpos' : varsPos (vars ++ [none]) word = none := by
                  rw [varsPos_append_none, hpos]
                refine ⟨?_, none, vars ++ [some word], tok :: (rest ++ s), ?_, ?_⟩
                · rw [exprAff, htext, hword]
                  simp [acceptAffine, affineLoop, acceptAffineFactor, hpos']
                · rw [htext, hword]
                  rcases htok with rfl | rfl | rfl <;> simp [readTupleEl, hpos]
                · rintro ⟨s', h | h⟩
                  · rcases htok with rfl | rfl | rfl <;> simp at h
                  · rcases htok with rfl | rfl | rfl <;> simp at h
          · left
            rw [htext, hword]
            rfl
      rcases hel with hel | ⟨hnone, first, vars', rest, hel, hrest⟩
      · rw [hel, hdef]
        cases exprAff F (vars ++ [none]) expr with
        | none => simp
        | some aff => rfl
      · rw [hnone]
        intro first' vars'' rest' hsome
        rw [hel, Option.some.injEq, Prod.mk.injEq, Prod.mk.injEq] at hsome
        obtain ⟨_, _, rfl⟩ := hsome
        exact hrest

theorem exprTokens_ne_bracket (expr : AffineExpr) (s : Stream) :
    ∃ tok s', exprTokens F expr ++ s = tok :: s' ∧ tok ≠ .char ']' := by
  have hword : ∀ word : String, wordToken word ≠ .char ']' := by
    intro word
    rcases wordToken_eq word with h | ⟨kw, h⟩ <;> simp [h]
  cases hbare : bareWord F expr with
  | some word =>
      rw [exprTokens_bareWord F hbare]
      exact ⟨_, s, rfl, hword word⟩
  | none =>
      rcases exprTokens_head F hbare with ⟨tok, rest, htext, htok⟩ | ⟨word, tok, rest, htext, htok⟩
      · rw [htext]
        exact ⟨tok, rest ++ s, rfl, by rcases htok with rfl | ⟨m, rfl⟩ <;> simp⟩
      · rw [htext]
        exact ⟨_, _, rfl, hword word⟩

end Subscripts

section Accesses

variable (F : Function) (nest : LoopNestDescriptor)

/-- The subscripts as they are printed: an access without any is at zero. -/
def MemoryAccess.printedSubscripts (access : MemoryAccess) : List AffineExpr :=
  if access.subscripts.isEmpty then [{}] else access.subscripts

/-- The tokens of one access. -/
def accessTokens (access : MemoryAccess) : Stream :=
  tupleTokens "Stmt" nest.identifiers (.to :: wordToken (sanitizeISLName access.baseName) ::
    .char '[' :: (joinTokens (.char ',') (access.printedSubscripts.map (exprTokens F)) ++
      [.char ']']))

theorem tupleTokens_append (name : String) (words : List String) (rest s : Stream) :
    tupleTokens name words rest ++ s = tupleTokens name words (rest ++ s) := by
  simp [tupleTokens]

theorem mapElem_eq (access : MemoryAccess) :
    mapElem F nest access = buildISLTuple nest "" ++ " -> " ++ sanitizeISLName access.baseName ++
      "[" ++ ", ".intercalate (access.printedSubscripts.map (toISLString F)) ++ "]" := by
  unfold mapElem MemoryAccess.printedSubscripts
  cases hempty : access.subscripts.isEmpty with
  | true =>
      have hzero : toISLString F {} = "0" := by
        simp [toISLString, termStrings]
        decide
      simp [hzero]
  | false => simp

theorem tokens_mapElem {access : MemoryAccess}
    (hsymbols : ∀ expr ∈ access.subscripts, expr.HasSymbols) (cs : List Char) :
    tokens ((mapElem F nest access).toList ++ cs) = accessTokens F nest access ++ tokens cs := by
  have hto : ∀ cs, (" -> " : String).toList ++ cs = ' ' :: '-' :: '>' :: ' ' :: cs := fun _ => rfl
  have hopen : ∀ cs, ("[" : String).toList ++ cs = '[' :: cs := fun _ => rfl
  have hclose : ∀ cs, ("]" : String).toList ++ cs = ']' :: cs := fun _ => rfl
  have hprinted : ∀ expr ∈ access.printedSubscripts, ∀ rest, Boundary rest →
      tokens ((toISLString F expr).toList ++ rest) = exprTokens F expr ++ tokens rest := by
    intro expr hexpr rest hrest
    apply tokens_toISLString F _ hrest
    unfold MemoryAccess.printedSubscripts at hexpr
    split_ifs at hexpr
    · obtain rfl := List.mem_singleton.mp hexpr
      simp
    · exact hsymbols expr hexpr
  rw [mapElem_eq]
  simp only [String.toList_append, List.append_assoc]
  rw [hto, hopen, hclose, tokens_buildISLTuple, tokens_space, tokens_to, tokens_space,
    tokens_word (isWord_sanitizeISLName _) boundary_openBracket, tokens_singleChar (by decide),
    tokens_intercalate separates_comma _ (exprTokens F) hprinted boundary_bracket,
    tokens_singleChar (by decide), accessTokens, tupleTokens_append]
  simp

/-- One access as isl reads it. -/
def accessBody (access : MemoryAccess) : Option Body :=
  (tupleItems wordElem [] nest.identifiers).bind fun (dom, vars) =>
    (tupleItems (subscriptElem F) vars access.printedSubscripts).map fun (ran, _) =>
      .map ⟨"Stmt", dom⟩ ⟨sanitizeISLName access.baseName, ran⟩ .tt

theorem printedSubscripts_ne_nil (access : MemoryAccess) : access.printedSubscripts ≠ [] := by
  unfold MemoryAccess.printedSubscripts
  cases hsubs : access.subscripts <;> simp

theorem readsBody_access (eqEq : Bool) (hne : nest.loops ≠ []) (access : MemoryAccess) :
    ReadsBody eqEq (accessTokens F nest) (accessBody F nest) access := by
  have hids : nest.identifiers ≠ [] := by simpa [LoopNestDescriptor.identifiers] using hne
  constructor
  · intro s hs
    rw [accessTokens, tupleTokens_append, objReadBody, tupleTokens,
      readTuple_words [] eqEq hids, accessBody]
    cases hdom : tupleItems wordElem [] nest.identifiers with
    | none => rfl
    | some result =>
        obtain ⟨dom, vars⟩ := result
        have hran := readTuple_items (printedSubscripts_ne_nil access)
          (fun expr _ => exprTokens_ne_bracket F expr)
          (fun expr _ => readsItem_subscript F eqEq expr) (sanitizeISLName access.baseName) vars s
        simp only [Option.map_some, Option.bind_some, List.cons_append, List.append_assoc,
          List.nil_append, hran]
        cases tupleItems (subscriptElem F) vars access.printedSubscripts with
        | none => rfl
        | some result =>
            obtain ⟨ran, vars'⟩ := result
            obtain ⟨s', rfl | rfl⟩ := hs <;> rfl
  · intro s s'
    rw [accessTokens, tupleTokens_append]
    exact tupleTokens_ne_brace _ _ _ _

theorem mapM_option_mem {α β : Type} {f : α → Option β} {items : List α} {results : List β}
    (h : items.mapM f = some results) (b : β) :
    b ∈ results ↔ ∃ a ∈ items, f a = some b := by
  induction items generalizing results with
  | nil =>
      obtain rfl : results = [] := by simpa using h.symm
      simp
  | cons item items ih =>
      rw [List.mapM_cons] at h
      obtain ⟨first, hfirst, hrest⟩ := Option.bind_eq_some_iff.mp h
      obtain ⟨rest, htail, heq⟩ := Option.bind_eq_some_iff.mp hrest
      obtain rfl := Option.some.inj heq
      simp only [List.mem_cons, ih htail, exists_eq_or_imp, hfirst, Option.some.injEq]
      constructor
      · rintro (rfl | h)
        · exact Or.inl rfl
        · exact Or.inr h
      · rintro (rfl | h)
        · exact Or.inl rfl
        · exact Or.inr h

theorem mapM_option_isSome {α β : Type} {f : α → Option β} (items : List α) :
    (items.mapM f).isSome ↔ ∀ a ∈ items, (f a).isSome := by
  induction items with
  | nil => simp
  | cons item items ih =>
      rw [List.mapM_cons, List.forall_mem_cons, ← ih]
      cases f item with
      | none => simp
      | some first => cases items.mapM f <;> simp

theorem accessBody_isMap {access : MemoryAccess} {body : Body}
    (h : accessBody F nest access = some body) : body.isMap := by
  obtain ⟨⟨dom, vars⟩, _, hrest⟩ := Option.bind_eq_some_iff.mp h
  obtain ⟨⟨ran, vars'⟩, _, rfl⟩ := Option.map_eq_some_iff.mp hrest
  rfl

theorem separates_semicolon : Separates "; " (.char ';') := by
  intro cs
  have hlist : ("; " : String).toList ++ cs = ';' :: ' ' :: cs := rfl
  rw [hlist, tokens_singleChar (by decide), tokens_space]
  exact ⟨boundary_cons (by decide) (by decide), rfl⟩

theorem tokens_accessStr (hsymbols : ∀ access ∈ nest.accesses, ∀ expr ∈ access.subscripts,
      expr.HasSymbols) (kind : AccessKind) :
    tokens (accessStr F nest kind).toList = .char '\x7b' ::
      (joinTokens (.char ';') ((nest.accesses.filter (·.accessKind == kind)).map
        (accessTokens F nest)) ++ [.char '\x7d']) := by
  have hopen : ∀ cs, ("\x7b " : String).toList ++ cs = '\x7b' :: ' ' :: cs := fun _ => rfl
  have hclose : (" \x7d" : String).toList = [' ', '\x7d'] := rfl
  have hitems : ∀ access ∈ nest.accesses.filter (·.accessKind == kind), ∀ rest,
      Boundary rest → tokens ((mapElem F nest access).toList ++ rest) =
        accessTokens F nest access ++ tokens rest := by
    intro access haccess rest _
    exact tokens_mapElem F nest (hsymbols access (List.mem_of_mem_filter haccess)) rest
  unfold accessStr
  revert hitems
  generalize nest.accesses.filter (·.accessKind == kind) = accesses
  intro hitems
  cases accesses with
  | nil =>
      have htokens : tokens "\x7b\x7d".toList = [.char '\x7b', .char '\x7d'] := by decide
      simpa [joinTokens] using htokens
  | cons access accesses =>
      simp only [List.isEmpty_cons, Bool.false_eq_true, if_false, String.toList_append,
        List.append_assoc]
      rw [hopen, hclose, tokens_singleChar (by decide), tokens_space,
        tokens_intercalate separates_semicolon _ (accessTokens F nest) hitems boundary_space,
        tokens_space, tokens_singleChar (by decide)]
      rfl

/-- The union map string of one kind of accesses. -/
theorem unionMapReadFromStr_accessStr (eqEq : Bool) (hne : nest.loops ≠ [])
    (hsymbols : ∀ access ∈ nest.accesses, ∀ expr ∈ access.subscripts, expr.HasSymbols)
    (kind : AccessKind) :
    unionMapReadFromStr eqEq (accessStr F nest kind) =
      ((nest.accesses.filter (·.accessKind == kind)).mapM (accessBody F nest)).map fun bodies =>
        { pair | ∃ body ∈ bodies, pair ∈ body.toUnionMap } := by
  have hread : objRead eqEq (tokens (accessStr F nest kind).toList) =
      (nest.accesses.filter (·.accessKind == kind)).mapM (accessBody F nest) := by
    rw [tokens_accessStr F nest hsymbols kind]
    by_cases hempty : nest.accesses.filter (·.accessKind == kind) = []
    · rw [hempty]
      rfl
    · exact objRead_items hempty (fun access _ => readsBody_access F nest eqEq hne access) []
  rw [unionMapReadFromStr, hread]
  cases hbodies : (nest.accesses.filter (·.accessKind == kind)).mapM (accessBody F nest) with
  | none => rfl
  | some bodies =>
      have hall : ∀ body ∈ bodies, body.isMap = true := by
        intro body hbody
        obtain ⟨access, _, haccess⟩ := (mapM_option_mem hbodies body).mp hbody
        exact accessBody_isMap F nest haccess
      simpa using hall

end Accesses

end PolyhedralPass
