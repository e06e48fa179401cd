/-
Reading conditions: comparisons of sums, conjunctions of comparisons, and the
alternatives between them.
-/
import PolyhedralPass.Isl.Tuple

namespace PolyhedralPass.Isl

/-- A token that ends a comparison. -/
def endsCond : Token → Bool
  | .keyword .and _ | .keyword .or _ | .char ')' | .char '}' => true
  | _ => false

def EndsCond (s : Stream) : Prop := ∃ tok s', s = tok :: s' ∧ endsCond tok

theorem endsSum_of_endsCond {tok : Token} (h : endsCond tok) : endsSum tok := by
  unfold endsCond at h
  split at h
  · rfl
  · rfl
  · decide
  · decide
  · exact absurd h (by decide)

theorem EndsCond.endsSum {s : Stream} (h : EndsCond s) : EndsSum s := by
  obtain ⟨tok, s', rfl, htok⟩ := h
  intro tok' htok'
  obtain rfl : tok = tok' := by simpa using htok'
  exact endsSum_of_endsCond htok

theorem comparator?_of_endsCond (eqEq : Bool) {tok : Token} (h : endsCond tok) :
    comparator? eqEq tok = none := by
  unfold endsCond at h
  split at h
  · rfl
  · rfl
  · rfl
  · rfl
  · exact absurd h (by decide)

theorem endsSum_of_comparator {eqEq : Bool} {tok : Token} {op : Comparator}
    (h : comparator? eqEq tok = some op) : endsSum tok := by
  unfold comparator? at h
  split at h
  all_goals first
    | rfl
    | decide
    | exact absurd h (by simp)

/-- A text that is read as the expression `expr`, whatever ends it. -/
def IsSum (vars : Vars) (text : Stream) (expr : Aff) : Prop :=
  ∀ s, EndsSum s → acceptAffine vars (text ++ s) = some (expr, s)

theorem isSum_wordToken {vars : Vars} {word : String} {expr : Aff}
    (h : wordAff vars word = some expr) : IsSum vars [wordToken word] expr := by
  intro s hs
  rw [List.singleton_append, acceptAffine_wordToken vars word hs, h]
  rfl

theorem isSum_aff (vars : Vars) (expr : Aff) : IsSum vars [.aff expr] (.add (.cst 0) expr) :=
  fun _ hs => acceptAffine_aff vars expr hs

theorem EndsSum.of_comparator {eqEq : Bool} {tok : Token} {op : Comparator}
    (h : comparator? eqEq tok = some op) (s : Stream) : EndsSum (tok :: s) := by
  intro tok' htok'
  obtain rfl : tok = tok' := by simpa using htok'
  exact endsSum_of_comparator h

section Readers

variable (eqEq : Bool) (readFormula : FormulaReader) (vars : Vars)

theorem addConstraint_one {lhs rhs : Stream} {a b : Aff} {tok : Token} {op : Comparator}
    (hlhs : IsSum vars lhs a) (hop : comparator? eqEq tok = some op) (hrhs : IsSum vars rhs b)
    {s : Stream} (hs : EndsCond s) :
    addConstraint eqEq vars (lhs ++ tok :: (rhs ++ s)) = some (.cmp op a b, s) := by
  obtain ⟨tok', s', rfl, htok'⟩ := hs
  have hend : EndsSum (tok' :: s') := EndsCond.endsSum ⟨tok', s', rfl, htok'⟩
  obtain ⟨fuel, hfuel⟩ : ∃ fuel, (rhs ++ tok' :: s').length = fuel + 1 :=
    ⟨rhs.length + s'.length, by simp; omega⟩
  rw [addConstraint, hlhs _ (.of_comparator hop _)]
  simp only [Option.bind_some, hop, hfuel, constraintChain, hrhs _ hend,
    comparator?_of_endsCond eqEq htok']

theorem addConstraint_two {first second third : Stream} {a b c : Aff} {tok₁ tok₂ : Token}
    {op₁ op₂ : Comparator} (hfirst : IsSum vars first a) (hop₁ : comparator? eqEq tok₁ = some op₁)
    (hsecond : IsSum vars second b) (hop₂ : comparator? eqEq tok₂ = some op₂)
    (hthird : IsSum vars third c) {s : Stream} (hs : EndsCond s) :
    addConstraint eqEq vars (first ++ tok₁ :: (second ++ tok₂ :: (third ++ s))) =
      some (.and (.cmp op₁ a b) (.cmp op₂ b c), s) := by
  obtain ⟨tok', s', rfl, htok'⟩ := hs
  have hend : EndsSum (tok' :: s') := EndsCond.endsSum ⟨tok', s', rfl, htok'⟩
  obtain ⟨fuel, hfuel⟩ : ∃ fuel,
      (second ++ tok₂ :: (third ++ tok' :: s')).length = fuel + 2 :=
    ⟨second.length + third.length + s'.length, by simp; omega⟩
  rw [addConstraint, hfirst _ (.of_comparator hop₁ _)]
  simp only [Option.bind_some, hop₁, hfuel, constraintChain, hsecond _ (.of_comparator hop₂ _),
    hop₂, hthird _ hend, comparator?_of_endsCond eqEq htok', Option.map_some]

theorem addConstraint_two_none {first second third : Stream} {a b : Aff} {tok₁ tok₂ : Token}
    {op₁ op₂ : Comparator} (hfirst : IsSum vars first a) (hop₁ : comparator? eqEq tok₁ = some op₁)
    (hsecond : IsSum vars second b) (hop₂ : comparator? eqEq tok₂ = some op₂) {s : Stream}
    (hthird : acceptAffine vars (third ++ s) = none) :
    addConstraint eqEq vars (first ++ tok₁ :: (second ++ tok₂ :: (third ++ s))) = none := by
  rw [addConstraint, hfirst _ (.of_comparator hop₁ _)]
  simp only [Option.bind_some, hop₁]
  cases hlength : (second ++ tok₂ :: (third ++ s)).length with
  | zero => rfl
  | succ fuel =>
      simp only [constraintChain, hsecond _ (.of_comparator hop₂ _), Option.bind_some, hop₂]
      cases fuel with
      | zero => rfl
      | succ fuel => simp [constraintChain, hthird]

/-- A sum that no comparison operator follows is no condition. -/
theorem addConstraint_none {lhs s : Stream} {a : Aff} {tok : Token} (hlhs : IsSum vars lhs a)
    (htok : endsSum tok) (hop : comparator? eqEq tok = none) :
    addConstraint eqEq vars (lhs ++ tok :: s) = none := by
  have hends : EndsSum (tok :: s) := by
    intro tok' htok'
    obtain rfl : tok = tok' := by simpa using htok'
    exact htok
  rw [addConstraint, hlhs _ hends]
  simp [hop]

/-- Where a sum starts, a comparison is read. -/
theorem readNegatedConjunct_of_isSome {s : Stream} (hs : (acceptAffine vars s).isSome) :
    readNegatedConjunct eqEq readFormula vars s = addConstraint eqEq vars s := by
  cases s with
  | nil => rfl
  | cons tok s =>
      cases tok with
      | keyword kw name =>
          cases kw with
          | nan => rfl
          | _ => exact absurd hs (by simp [acceptAffine, affineLoop, acceptAffineFactor])
      | char c =>
          by_cases hc : c = '('
          · subst hc
            exact absurd hs (by simp [acceptAffine, affineLoop, acceptAffineFactor])
          · rw [readNegatedConjunct, readConjunct, readSimpleConjunct] <;> simp [hc]
      | map cond => exact absurd hs (by simp [acceptAffine, affineLoop, acceptAffineFactor])
      | _ => rfl

/-- A text that is read as the condition `cond`, whatever ends it. -/
def IsCond (text : Stream) (cond : Formula) : Prop :=
  ∀ s, EndsCond s → readNegatedConjunct eqEq readFormula vars (text ++ s) = some (cond, s)

theorem isCond_one {lhs rhs : Stream} {a b : Aff} {tok : Token} {op : Comparator}
    (hlhs : IsSum vars lhs a) (hop : comparator? eqEq tok = some op) (hrhs : IsSum vars rhs b) :
    IsCond eqEq readFormula vars (lhs ++ tok :: rhs) (.cmp op a b) := by
  intro s hs
  rw [List.append_assoc, List.cons_append, readNegatedConjunct_of_isSome,
    addConstraint_one eqEq vars hlhs hop hrhs hs]
  rw [hlhs _ (.of_comparator hop _)]
  rfl

theorem isCond_two {first second third : Stream} {a b c : Aff} {tok₁ tok₂ : Token}
    {op₁ op₂ : Comparator} (hfirst : IsSum vars first a) (hop₁ : comparator? eqEq tok₁ = some op₁)
    (hsecond : IsSum vars second b) (hop₂ : comparator? eqEq tok₂ = some op₂)
    (hthird : IsSum vars third c) :
    IsCond eqEq readFormula vars (first ++ tok₁ :: (second ++ tok₂ :: third))
      (.and (.cmp op₁ a b) (.cmp op₂ b c)) := by
  intro s hs
  have hassoc : first ++ tok₁ :: (second ++ tok₂ :: third) ++ s =
      first ++ tok₁ :: (second ++ tok₂ :: (third ++ s)) := by simp
  rw [hassoc, readNegatedConjunct_of_isSome,
    addConstraint_two eqEq vars hfirst hop₁ hsecond hop₂ hthird hs]
  rw [hfirst _ (.of_comparator hop₁ _)]
  rfl

end Readers

section Conjunctions

variable {α : Type} (eqEq : Bool) (readFormula : FormulaReader) (vars : Vars)
  (toks : α → Stream) (cond : α → Option Formula)

/-- The conjunction of the conditions of a list, if all of them are read. -/
def conjoin : List α → Option Formula
  | [] => some .tt
  | [item] => cond item
  | item :: next :: rest => (cond item).bind fun first => (conjoin (next :: rest)).map (.and first)

theorem conjoin_isSome (items : List α) :
    (conjoin cond items).isSome = items.all fun item => (cond item).isSome := by
  fun_induction conjoin cond items with
  | case1 => rfl
  | case2 item => simp
  | case3 item next rest ih =>
      rw [List.all_cons, ← ih]
      cases cond item with
      | none => rfl
      | some first => simp

theorem conjoin_holds {items : List α} {conj : Formula} (hconj : conjoin cond items = some conj)
    (env : List Int) :
    conj.holds env ↔ ∀ item ∈ items, ∀ c, cond item = some c → c.holds env := by
  fun_induction conjoin cond items generalizing conj with
  | case1 =>
      obtain rfl := Option.some.inj hconj
      simp [Formula.holds]
  | case2 item => simp [hconj]
  | case3 item next rest ih =>
      obtain ⟨first, hfirst, hrest⟩ := Option.bind_eq_some_iff.mp hconj
      obtain ⟨tail, htail, rfl⟩ := Option.map_eq_some_iff.mp hrest
      rw [Formula.holds, ih htail]
      simp [hfirst]

theorem conjoin_spec (items : List α) (holds : α → List Int → Prop)
    (hitems : ∀ item ∈ items, ∃ c, cond item = some c ∧ ∀ env, c.holds env ↔ holds item env) :
    ∃ conj, conjoin cond items = some conj ∧
      ∀ env, conj.holds env ↔ ∀ item ∈ items, holds item env := by
  have hsome : (conjoin cond items).isSome := by
    rw [conjoin_isSome, List.all_eq_true]
    intro item hitem
    obtain ⟨c, hc, _⟩ := hitems item hitem
    rw [hc]
    rfl
  obtain ⟨conj, hconj⟩ := Option.isSome_iff_exists.mp hsome
  refine ⟨conj, hconj, ?_⟩
  intro env
  rw [conjoin_holds cond hconj]
  refine forall_congr' fun item => forall_congr' fun hitem => ?_
  obtain ⟨c, hc, hholds⟩ := hitems item hitem
  rw [← hholds, hc]
  simp

/-- The text of an item is read as its condition, or not at all. -/
def ReadsCond (item : α) : Prop :=
  ∀ s, EndsCond s →
    readNegatedConjunct eqEq readFormula vars (toks item ++ s) =
      (cond item).map fun cond => (cond, s)

variable {toks cond eqEq readFormula vars}

/-- A conjunction is read to its end. -/
theorem readConjuncts_items {items : List α} (hne : items ≠ [])
    (hitems : ∀ item ∈ items, ReadsCond eqEq readFormula vars toks cond item) {s : Stream}
    (hs : EndsCond s) (hand : ∀ name s', s ≠ .keyword .and name :: s') {fuel : Nat}
    (hfuel : items.length ≤ fuel) {name : String} :
    readConjuncts eqEq readFormula vars fuel
        (joinTokens (.keyword .and name) (items.map toks) ++ s) =
      (conjoin cond items).map fun conj => (conj, s) := by
  induction items generalizing fuel with
  | nil => exact absurd rfl hne
  | cons item items ih =>
      obtain ⟨fuel, rfl⟩ : ∃ k, fuel = k + 1 :=
        ⟨fuel - 1, by simp only [List.length_cons] at hfuel; omega⟩
      have hitem := hitems item (by simp)
      cases items with
      | nil =>
          simp only [List.map_cons, List.map_nil, joinTokens, readConjuncts, hitem s hs, conjoin]
          cases cond item with
          | none => rfl
          | some c =>
              simp only [Option.map_some, Option.bind_some]
      | cons next items =>
          obtain ⟨tail, htail⟩ : ∃ tail, joinTokens (.keyword .and name)
              ((next :: items).map toks) ++ s = tail := ⟨_, rfl⟩
          have hjoin : joinTokens (.keyword .and name) ((item :: next :: items).map toks) ++ s =
              toks item ++ .keyword .and name :: tail := by
            rw [← htail]
            simp [joinTokens]
          have hnext := ih (by simp) (fun i hi => hitems i (List.mem_cons_of_mem item hi))
            (by simpa using hfuel : (next :: items).length ≤ fuel)
          rw [htail] at hnext
          rw [hjoin, readConjuncts, hitem _ ⟨_, _, rfl, rfl⟩, conjoin]
          cases cond item with
          | none => rfl
          | some c =>
              simp only [Option.map_some, Option.bind_some, hnext, Option.map_map]
              rfl

end Conjunctions

section Parentheses

variable (eqEq : Bool) (readFormula : FormulaReader) (vars : Vars)

/-- Behind a parenthesis a word is read as an expression first; the condition
goes on with that expression in front. -/
theorem readNegatedConjunct_paren {word : String} {aff : Aff}
    (haff : wordAff vars word = some aff) {s : Stream} (hs : EndsSum s)
    (hparen : ∀ s', s ≠ .char ')' :: s') :
    readNegatedConjunct eqEq readFormula vars (.char '(' :: wordToken word :: s) =
      (readFormula (.aff aff :: s)).bind fun (cond, s) =>
        (eat ')' s).map fun s => (cond, s) := by
  have hstart : nextIsConditionStart (wordToken word :: s) = false := by
    unfold wordAff at haff
    rcases wordToken_eq word with hword | ⟨kw, hword⟩
    · rw [hword]
      rfl
    · rw [hword] at haff ⊢
      cases kw with
      | nan => rfl
      | _ => exact absurd haff (by simp)
  have haccept := isSum_wordToken haff s hs
  rw [List.singleton_append] at haccept
  have hresolve : resolveParenExpr readFormula vars (wordToken word :: s) =
      (readFormula (.aff aff :: s)).bind fun (cond, s) =>
        (eat ')' s).map fun s => .map cond :: s := by
    rw [resolveParenExpr, hstart, haccept]
    simp only [Bool.false_eq_true, if_false, Option.bind_some]
  rw [readNegatedConjunct, readConjunct, hresolve]
  · cases hformula : readFormula (.aff aff :: s) with
    | none => rfl
    | some result =>
        obtain ⟨cond, rest⟩ := result
        simp only [Option.bind_some]
        cases eat ')' rest <;> rfl
  · simp

end Parentheses

section Disjunctions

variable {eqEq : Bool} {vars : Vars}

/-- A condition without alternatives. -/
theorem readFormula_of_readConjuncts {s rest : Stream} {depth : Nat} {out : Option Formula}
    (hstart : ∀ s', s ≠ .char '}' :: s')
    (hconj : readConjuncts eqEq (readFormula eqEq vars depth) vars (s.length + 1) s =
      out.map fun cond => (cond, rest))
    (hrest : ∃ s', rest = .char '}' :: s' ∨ rest = .char ')' :: s') :
    readFormula eqEq vars (depth + 1) s = out.map fun cond => (cond, rest) := by
  have hdisj : readDisjuncts eqEq (readFormula eqEq vars depth) vars s =
      out.map fun cond => (cond, rest) := by
    rw [readDisjuncts, readDisjunctsLoop, hconj]
    · cases out with
      | none => rfl
      | some cond => obtain ⟨s', rfl | rfl⟩ := hrest <;> rfl
    · exact hstart
  rw [readFormula, hdisj]
  cases out with
  | none => rfl
  | some cond => obtain ⟨s', rfl | rfl⟩ := hrest <;> rfl

/-- A single comparison. -/
theorem readFormula_isCond {text : Stream} {cond : Formula} {depth : Nat}
    (hcond : IsCond eqEq (readFormula eqEq vars depth) vars text cond) {s : Stream}
    (hstart : ∀ s', text ++ .char '}' :: s ≠ .char '}' :: s') :
    readFormula eqEq vars (depth + 1) (text ++ .char '}' :: s) = some (cond, .char '}' :: s) := by
  have hread := hcond (.char '}' :: s) ⟨_, _, rfl, rfl⟩
  have hconj : readConjuncts eqEq (readFormula eqEq vars depth) vars
      ((text ++ .char '}' :: s).length + 1) (text ++ .char '}' :: s) =
      (some cond).map fun cond => (cond, .char '}' :: s) := by
    rw [readConjuncts, hread]
    rfl
  exact readFormula_of_readConjuncts hstart hconj ⟨s, Or.inl rfl⟩

/-- A sum that no comparison operator follows is no condition. -/
theorem readFormula_none {lhs s : Stream} {aff : Aff} {tok : Token} (hlhs : IsSum vars lhs aff)
    (htok : endsSum tok) (hop : comparator? eqEq tok = none) (depth : Nat)
    (hstart : ∀ s', lhs ++ tok :: s ≠ .char '}' :: s') :
    readFormula eqEq vars depth (lhs ++ tok :: s) = none := by
  cases depth with
  | zero => rfl
  | succ depth =>
      have hends : EndsSum (tok :: s) := by
        intro tok' htok'
        obtain rfl : tok = tok' := by simpa using htok'
        exact htok
      have hcond : readNegatedConjunct eqEq (readFormula eqEq vars depth) vars
          (lhs ++ tok :: s) = none := by
        rw [readNegatedConjunct_of_isSome, addConstraint_none eqEq vars hlhs htok hop]
        rw [hlhs _ hends]
        rfl
      rw [readFormula, readDisjuncts, readDisjunctsLoop, readConjuncts, hcond]
      · rfl
      · exact hstart

/-- A conjunction and one more alternative. -/
theorem readFormula_or {s next rest : Stream} {depth : Nat} (first second : Option Formula)
    {name : String} (hne : s ≠ []) (hstart : ∀ s', s ≠ .char '}' :: s')
    (hconj : readConjuncts eqEq (readFormula eqEq vars depth) vars (s.length + 1) s =
      first.map fun cond => (cond, .keyword .or name :: next))
    (hnext : readNegatedConjunct eqEq (readFormula eqEq vars depth) vars next =
      second.map fun cond => (cond, rest))
    (hrest : ∃ s', rest = .char '}' :: s' ∨ rest = .char ')' :: s') :
    readFormula eqEq vars (depth + 1) s =
      first.bind fun a => second.map fun b => (.or a b, rest) := by
  obtain ⟨fuel, hfuel⟩ : ∃ fuel, s.length = fuel + 1 :=
    ⟨s.length - 1, by have := List.length_pos_iff.mpr hne; omega⟩
  have hlast : readDisjunctsLoop eqEq (readFormula eqEq vars depth) vars (fuel + 1) next =
      second.map fun cond => (cond, rest) := by
    rw [readDisjunctsLoop, readConjuncts, hnext]
    cases second with
    | none => rfl
    | some cond => obtain ⟨s', rfl | rfl⟩ := hrest <;> rfl
  have hdisj : readDisjuncts eqEq (readFormula eqEq vars depth) vars s =
      first.bind fun a => second.map fun b => (.or a b, rest) := by
    rw [readDisjuncts, readDisjunctsLoop, hconj, hfuel]
    · cases first with
      | none => rfl
      | some cond =>
          simp only [Option.map_some, Option.bind_some, hlast, Option.map_map]
          rfl
    · exact hstart
  rw [readFormula, hdisj]
  cases first with
  | none => rfl
  | some a =>
      cases second with
      | none => rfl
      | some b => obtain ⟨s', rfl | rfl⟩ := hrest <;> rfl

/-- A condition of comparisons joined by `and`, behind the colon. -/
theorem readOptionalFormula_conjuncts (eqEq : Bool) (vars : Vars) {α : Type}
    {toks : α → Stream} {cond : α → Option Formula} {items : List α} (hne : items ≠ [])
    (hitems : ∀ item ∈ items, ∀ depth,
      ReadsCond eqEq (readFormula eqEq vars depth) vars toks cond item)
    (hhead : ∀ item ∈ items, ∀ s s', toks item ++ s ≠ .char '}' :: s') (name : String)
    (s : Stream) :
    readOptionalFormula eqEq vars (.char ':' ::
        (joinTokens (.keyword .and name) (items.map toks) ++ .char '}' :: s)) =
      (conjoin cond items).map fun cond => (cond, .char '}' :: s) := by
  have hstart : ∀ s', joinTokens (.keyword .and name) (items.map toks) ++ .char '}' :: s ≠
      .char '}' :: s' := by
    intro s'
    cases items with
    | nil => exact absurd rfl hne
    | cons item items =>
        cases items with
        | nil => exact hhead item (by simp) _ s'
        | cons next items =>
            simpa [joinTokens] using hhead item (by simp) (.keyword .and name ::
              (joinTokens (.keyword .and name) ((next :: items).map toks) ++ .char '}' :: s)) s'
  have hlength := length_le_joinTokens (.keyword .and name) (items.map toks)
  rw [List.length_map] at hlength
  rw [readOptionalFormula]
  apply readFormula_of_readConjuncts hstart
  · apply readConjuncts_items hne (fun item hitem => hitems item hitem _)
    · exact ⟨_, _, rfl, rfl⟩
    · simp
    · rw [List.length_append, List.length_cons]
      omega
  · exact ⟨s, Or.inl rfl⟩

end Disjunctions

end PolyhedralPass.Isl
