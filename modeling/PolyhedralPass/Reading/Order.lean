/-
What isl reads in the strings on pairs of iterations: the order of the
iterations and the violations of one dimension.

The order string nests its alternatives: behind every `or` a parenthesis opens
that stays open to the end.  The reader takes the word after a parenthesis as an
expression first and goes on with the comparison afterwards.
-/
import PolyhedralPass.Reading.Domain

namespace PolyhedralPass

open Isl

section Clauses

variable (eqEq : Bool) (vars : Vars)

/-- A comparison of a word, or of an expression in its place, with the primed
word: a strict one, or an equality. -/
structure Comparison where
  lhs : Token
  strict : Bool
  word : String

def Comparison.op (cmp : Comparison) : Comparator := if cmp.strict then .lt else .eq

def Comparison.opToken (cmp : Comparison) : Token := if cmp.strict then .lt else .eqEq

def Comparison.tokens (cmp : Comparison) : Stream :=
  [cmp.lhs, cmp.opToken, wordToken (cmp.word ++ "_p")]

/-- The condition a comparison is read as. -/
def Comparison.cond (cmp : Comparison) : Option Formula :=
  ((acceptAffine vars [cmp.lhs]).map Prod.fst).bind fun lhs =>
    (comparator? eqEq cmp.opToken).bind fun op =>
      (wordAff vars (cmp.word ++ "_p")).map fun rhs => .cmp op lhs rhs

/-- The values of a word and of its primed word compare. -/
def comparesPrimed (op : Comparator) (word : String) (env : List Int) : Prop :=
  ∃ a b, wordEval vars word env = some a ∧ wordEval vars (word ++ "_p") env = some b ∧
    op.holds a b

/-- The comparisons of one alternative, the first of them with the token `first`
in front. -/
def clause (first : Token) (outer : List String) (word : String) : List Comparison :=
  match outer with
  | [] => [⟨first, true, word⟩]
  | next :: rest => ⟨first, false, next⟩ ::
      (rest.map (fun w => ⟨wordToken w, false, w⟩) ++ [⟨wordToken word, true, word⟩])

def clauseTokens (first : Token) (outer : List String) (word : String) : Stream :=
  joinTokens (.keyword .and "and") ((clause first outer word).map Comparison.tokens)

/-- The alternatives behind the first one. -/
def alternativeTokens : List String → List String → Stream
  | _, [] => []
  | outer, word :: words =>
      .keyword .or "or" :: .char '(' ::
        (clauseTokens (wordToken ((outer ++ [word]).headD "")) outer word ++
          (alternativeTokens (outer ++ [word]) words ++ [.char ')']))

variable {eqEq vars}

theorem endsSum_opToken (cmp : Comparison) : endsSum cmp.opToken := by
  unfold Comparison.opToken
  split_ifs
  · rfl
  · rfl

theorem comparator?_opToken (cmp : Comparison) :
    comparator? true cmp.opToken = some cmp.op := by
  unfold Comparison.opToken Comparison.op
  split_ifs
  · rfl
  · rfl

theorem isSum_token {tok : Token} {aff : Aff} (h : IsSum vars [tok] aff) :
    (acceptAffine vars [tok]).map Prod.fst = some aff := by
  have hself := h [] endsSum_nil
  rw [List.append_nil] at hself
  rw [hself]
  rfl

/-- A comparison is read when its sides are in scope; `==` is not read where it
is no operator. -/
theorem readsCond_comparison {cmp : Comparison} {aff : Aff} (hlhs : IsSum vars [cmp.lhs] aff)
    (hrhs : (wordAff vars (cmp.word ++ "_p")).isSome) (readFormula : FormulaReader) :
    ReadsCond eqEq readFormula vars Comparison.tokens (Comparison.cond eqEq vars) cmp := by
  obtain ⟨rhs, hrhs⟩ := Option.isSome_iff_exists.mp hrhs
  intro s hs
  have htokens : cmp.tokens ++ s =
      [cmp.lhs] ++ cmp.opToken :: ([wordToken (cmp.word ++ "_p")] ++ s) := rfl
  have hends : EndsSum (cmp.opToken :: ([wordToken (cmp.word ++ "_p")] ++ s)) := by
    intro tok htok
    obtain rfl : cmp.opToken = tok := by simpa using htok
    exact endsSum_opToken cmp
  rw [Comparison.cond, isSum_token hlhs]
  cases hcomparator : comparator? eqEq cmp.opToken with
  | none =>
      rw [htokens, readNegatedConjunct_of_isSome,
        addConstraint_none eqEq vars hlhs (endsSum_opToken cmp) hcomparator]
      · rfl
      · rw [hlhs _ hends]
        rfl
  | some op =>
      have hcond := isCond_one eqEq readFormula vars hlhs hcomparator (isSum_wordToken hrhs) s hs
      simp only [Option.bind_some, hrhs, Option.map_some]
      exact hcond

/-- A comparison whose left side stands for its word. -/
theorem comparison_spec {cmp : Comparison} {aff : Aff} (hlhs : IsSum vars [cmp.lhs] aff)
    (hvalue : ∀ env, aff.eval env = wordEval vars cmp.word env)
    (hrhs : (wordAff vars (cmp.word ++ "_p")).isSome) :
    ∃ cond, cmp.cond true vars = some cond ∧
      ∀ env, cond.holds env ↔ comparesPrimed vars cmp.op cmp.word env := by
  obtain ⟨rhs, hrhs⟩ := Option.isSome_iff_exists.mp hrhs
  refine ⟨.cmp cmp.op aff rhs, ?_, ?_⟩
  · rw [Comparison.cond, isSum_token hlhs, comparator?_opToken, hrhs]
    rfl
  · intro env
    simp only [Formula.holds, comparesPrimed, hvalue, eval_wordAff hrhs]

/-- The words of an alternative and their primed words are in scope, and the
first token stands for the first word. -/
structure ClauseScope (vars : Vars) (first : Token) (outer : List String) (word : String) :
    Prop where
  words : ∀ w ∈ outer ++ [word], (wordAff vars w).isSome
  primed : ∀ w ∈ outer ++ [word], (wordAff vars (w ++ "_p")).isSome
  first : ∃ aff, IsSum vars [first] aff ∧
    ∀ env, aff.eval env = wordEval vars ((outer ++ [word]).headD "") env

/-- The left side of every comparison of an alternative stands for its word. -/
theorem ClauseScope.comparison {first : Token} {outer : List String} {word : String}
    (hscope : ClauseScope vars first outer word) :
    ∀ cmp ∈ clause first outer word, (∃ aff, IsSum vars [cmp.lhs] aff ∧
        ∀ env, aff.eval env = wordEval vars cmp.word env) ∧
      (wordAff vars (cmp.word ++ "_p")).isSome := by
  have hword : ∀ w ∈ outer ++ [word], ∃ aff, IsSum vars [wordToken w] aff ∧
      ∀ env, aff.eval env = wordEval vars w env := by
    intro w hw
    obtain ⟨aff, haff⟩ := Option.isSome_iff_exists.mp (hscope.words w hw)
    exact ⟨aff, isSum_wordToken haff, eval_wordAff haff⟩
  intro cmp hcmp
  cases outer with
  | nil =>
      obtain rfl : cmp = ⟨first, true, word⟩ := by simpa [clause] using hcmp
      exact ⟨hscope.first, hscope.primed word (by simp)⟩
  | cons next rest =>
      simp only [clause, List.mem_cons, List.mem_append, List.mem_map, List.not_mem_nil,
        or_false] at hcmp
      rcases hcmp with rfl | ⟨w, hw, rfl⟩ | rfl
      · exact ⟨hscope.first, hscope.primed next (by simp)⟩
      · exact ⟨hword w (by simp [hw]), hscope.primed w (by simp [hw])⟩
      · exact ⟨hword word (by simp), hscope.primed word (by simp)⟩

/-- The first alternative starts with its only word. -/
theorem clauseScope_head {word : String}
    (hword : (wordAff vars word).isSome ∧ (wordAff vars (word ++ "_p")).isSome) :
    ClauseScope vars (wordToken word) [] word := by
  obtain ⟨aff, haff⟩ := Option.isSome_iff_exists.mp hword.1
  exact ⟨by simpa using hword.1, by simpa using hword.2, aff, isSum_wordToken haff,
    eval_wordAff haff⟩

theorem readsCond_clause {first : Token} {outer : List String} {word : String}
    (hscope : ClauseScope vars first outer word) (readFormula : FormulaReader) :
    ∀ cmp ∈ clause first outer word,
      ReadsCond eqEq readFormula vars Comparison.tokens (Comparison.cond eqEq vars) cmp := by
  intro cmp hcmp
  obtain ⟨⟨aff, hlhs, _⟩, hrhs⟩ := hscope.comparison cmp hcmp
  exact readsCond_comparison hlhs hrhs readFormula

/-- An alternative holds where the outer words agree and the last one is
smaller. -/
theorem clause_spec {first : Token} {outer : List String} {word : String}
    (hscope : ClauseScope vars first outer word) :
    ∃ conj, conjoin (Comparison.cond true vars) (clause first outer word) = some conj ∧
      ∀ env, conj.holds env ↔ (∀ w ∈ outer, comparesPrimed vars .eq w env) ∧
        comparesPrimed vars .lt word env := by
  obtain ⟨conj, hconj, hholds⟩ := conjoin_spec (Comparison.cond true vars)
    (clause first outer word) (fun cmp env => comparesPrimed vars cmp.op cmp.word env) (by
      intro cmp hcmp
      obtain ⟨⟨aff, hlhs, hvalue⟩, hrhs⟩ := hscope.comparison cmp hcmp
      exact comparison_spec hlhs hvalue hrhs)
  refine ⟨conj, hconj, fun env => ?_⟩
  rw [hholds]
  cases outer with
  | nil => simp [clause, Comparison.op]
  | cons next rest =>
      simp only [clause, List.forall_mem_cons, List.forall_mem_append, List.forall_mem_map,
        Comparison.op, List.not_mem_nil]
      simp [and_assoc]

/-- Some further word is smaller than its primed word, and all before it agree. -/
def precedes (vars : Vars) (env : List Int) : List String → List String → Prop
  | _, [] => False
  | outer, word :: words =>
      ((∀ w ∈ outer, comparesPrimed vars .eq w env) ∧ comparesPrimed vars .lt word env) ∨
        precedes vars env (outer ++ [word]) words

theorem clause_ne_nil (first : Token) (outer : List String) (word : String) :
    clause first outer word ≠ [] := by
  cases outer <;> simp [clause]

/-- The first token of an alternative and the operator behind it. -/
theorem clauseTokens_eq_cons (outer : List String) (word : String) :
    ∃ tail, ∀ first, clauseTokens first outer word =
      first :: (if outer = [] then Token.lt else .eqEq) :: tail := by
  refine ⟨(clauseTokens .unknown outer word).drop 2, fun first => ?_⟩
  cases outer with
  | nil => rfl
  | cons next rest => cases rest <;> rfl

theorem ClauseScope.ne_brace {first : Token} {outer : List String} {word : String}
    (hscope : ClauseScope vars first outer word) (s s' : Stream) :
    clauseTokens first outer word ++ s ≠ .char '\x7d' :: s' := by
  obtain ⟨aff, hfirst, _⟩ := hscope.first
  obtain ⟨tail, htail⟩ := clauseTokens_eq_cons outer word
  rw [htail]
  intro heq
  simp only [List.cons_append, List.cons.injEq] at heq
  have hread := isSum_token hfirst
  rw [heq.1] at hread
  simp [acceptAffine, affineLoop, acceptAffineFactor] at hread

/-- One alternative, in front of another one or of the end. -/
theorem readConjuncts_clause (eqEq : Bool) {first : Token} {outer : List String} {word : String}
    (hscope : ClauseScope vars first outer word) (readFormula : FormulaReader) {s : Stream}
    (hs : EndsCond s) (hand : ∀ name s', s ≠ .keyword .and name :: s') {fuel : Nat}
    (hfuel : (clauseTokens first outer word ++ s).length < fuel) :
    readConjuncts eqEq readFormula vars fuel (clauseTokens first outer word ++ s) =
      (conjoin (Comparison.cond eqEq vars) (clause first outer word)).map
        fun conj => (conj, s) := by
  have hlength := length_le_joinTokens (.keyword .and "and")
    ((clause first outer word).map Comparison.tokens)
  rw [List.length_map] at hlength
  rw [clauseTokens, List.length_append] at hfuel
  exact readConjuncts_items (clause_ne_nil first outer word)
    (readsCond_clause hscope readFormula) hs hand (by omega)

/-- The alternatives are read to the end of the innermost parenthesis and back. -/
theorem readFormula_alternatives {first : Token} {outer words : List String} {word : String}
    (hscope : ClauseScope vars first outer word)
    (hwords : ∀ w ∈ words, (wordAff vars w).isSome ∧ (wordAff vars (w ++ "_p")).isSome)
    (depth : Nat) (hdepth : words.length < depth) (rest : Stream)
    (hrest : ∃ s', rest = .char '\x7d' :: s' ∨ rest = .char ')' :: s') :
    ∃ cond, readFormula true vars depth
        (clauseTokens first outer word ++ (alternativeTokens (outer ++ [word]) words ++ rest)) =
          some (cond, rest) ∧
      ∀ env, cond.holds env ↔ precedes vars env outer (word :: words) := by
  induction words generalizing first outer word depth rest with
  | nil =>
      obtain ⟨depth, rfl⟩ : ∃ k, depth = k + 1 := ⟨depth - 1, by simp at hdepth; omega⟩
      obtain ⟨conj, hconj, hholds⟩ := clause_spec hscope
      have hends : EndsCond rest ∧ ∀ name s', rest ≠ .keyword .and name :: s' := by
        obtain ⟨s', rfl | rfl⟩ := hrest
        · exact ⟨⟨_, _, rfl, rfl⟩, by simp⟩
        · exact ⟨⟨_, _, rfl, rfl⟩, by simp⟩
      refine ⟨conj, ?_, ?_⟩
      · have hread := readFormula_of_readConjuncts (hscope.ne_brace rest)
          (readConjuncts_clause true hscope (readFormula true vars depth) hends.1
            hends.2 (Nat.lt_succ_self _)) hrest
        rw [hconj] at hread
        simpa [alternativeTokens] using hread
      · intro env
        simp [hholds, precedes]
  | cons next words ih =>
      obtain ⟨depth, rfl⟩ : ∃ k, depth = k + 1 := ⟨depth - 1, by simp at hdepth; omega⟩
      obtain ⟨conj, hconj, hholds⟩ := clause_spec hscope
      have hhead : (outer ++ [word] ++ [next]).headD "" = (outer ++ [word]).headD "" := by
        cases outer <;> simp
      have hmem : (outer ++ [word]).headD "" ∈ outer ++ [word] := by
        cases outer <;> simp
      obtain ⟨aff, haff⟩ := Option.isSome_iff_exists.mp (hscope.words _ hmem)
      have hinner : ClauseScope vars (.aff aff) (outer ++ [word]) next := by
        refine ⟨?_, ?_, .add (.cst 0) aff, isSum_aff vars aff, ?_⟩
        · intro w hw
          rcases List.mem_append.mp hw with hw | hw
          · exact hscope.words w hw
          · exact (hwords w (by simpa using Or.inl (List.mem_singleton.mp hw))).1
        · intro w hw
          rcases List.mem_append.mp hw with hw | hw
          · exact hscope.primed w hw
          · exact (hwords w (by simpa using Or.inl (List.mem_singleton.mp hw))).2
        · intro env
          rw [hhead, ← eval_wordAff haff]
          simp [Aff.eval]
      obtain ⟨cond, hcond, hinnerHolds⟩ := ih hinner
        (fun w hw => hwords w (List.mem_cons_of_mem next hw))
        depth (by simpa using hdepth) (.char ')' :: rest) ⟨rest, Or.inr rfl⟩
      refine ⟨.or conj cond, ?_, ?_⟩
      · obtain ⟨tail, htail⟩ := clauseTokens_eq_cons (outer ++ [word]) next
        have hafter : EndsSum (.eqEq :: (tail ++ (alternativeTokens (outer ++ [word] ++ [next])
            words ++ .char ')' :: rest))) := by
          intro tok htok
          obtain rfl : Token.eqEq = tok := by simpa using htok
          rfl
        have hparen := readNegatedConjunct_paren true (readFormula true vars depth) vars haff
          hafter (by simp)
        rw [htail] at hcond
        simp only [List.append_eq_nil_iff, List.cons_ne_nil, and_false, if_false,
          List.cons_append] at hcond
        rw [hcond] at hparen
        have halternatives : alternativeTokens (outer ++ [word]) (next :: words) ++ rest =
            .keyword .or "or" :: .char '(' :: wordToken ((outer ++ [word]).headD "") :: .eqEq ::
              (tail ++ (alternativeTokens (outer ++ [word] ++ [next]) words ++
                .char ')' :: rest)) := by
          rw [alternativeTokens, htail, hhead]
          simp
        have hfirst := readConjuncts_clause true hscope (readFormula true vars depth)
          (s := alternativeTokens (outer ++ [word]) (next :: words) ++ rest)
          ⟨_, _, halternatives, rfl⟩ (by simp [halternatives]) (Nat.lt_succ_self _)
        rw [hconj] at hfirst
        rw [halternatives] at hfirst ⊢
        exact readFormula_or (some conj) (some cond) (by
          obtain ⟨tail, htail⟩ := clauseTokens_eq_cons outer word
          simp [htail]) (hscope.ne_brace _) hfirst (hparen.trans (by simp [eat])) hrest
      · intro env
        rw [Formula.holds, hholds, hinnerHolds]
        rfl

/-- Where `==` is no operator the second alternative is not read. -/
theorem readFormula_alternatives_none {word : String} (next : String) (words : List String)
    (hscope : ClauseScope vars (wordToken word) [] word) (depth : Nat) (rest : Stream)
    (hrest : ∃ s', rest = .char '\x7d' :: s' ∨ rest = .char ')' :: s') :
    readFormula false vars depth
      (clauseTokens (wordToken word) [] word ++
        (alternativeTokens [word] (next :: words) ++ rest)) = none := by
  cases depth with
  | zero => rfl
  | succ depth =>
      obtain ⟨aff, haff⟩ := Option.isSome_iff_exists.mp (hscope.words word (by simp))
      obtain ⟨tail, htail⟩ := clauseTokens_eq_cons [word] next
      obtain ⟨after, halternatives⟩ : ∃ after, alternativeTokens [word] (next :: words) ++ rest =
          .keyword .or "or" :: .char '(' :: wordToken word :: .eqEq :: after := by
        refine ⟨tail ++ (alternativeTokens [word, next] words ++ .char ')' :: rest), ?_⟩
        rw [alternativeTokens, htail]
        simp
      have hafter : EndsSum (.eqEq :: after) := by
        intro tok htok
        obtain rfl : Token.eqEq = tok := by simpa using htok
        rfl
      have hparen := readNegatedConjunct_paren false (readFormula false vars depth) vars haff
        hafter (by simp)
      have hinner : readFormula false vars depth ([.aff aff] ++ .eqEq :: after) = none :=
        readFormula_none (isSum_aff vars aff) rfl rfl depth (by simp)
      rw [List.singleton_append] at hinner
      rw [hinner] at hparen
      have hfirst := readConjuncts_clause false hscope (readFormula false vars depth)
        (s := alternativeTokens [word] (next :: words) ++ rest)
        ⟨_, _, halternatives, rfl⟩ (by simp [halternatives]) (Nat.lt_succ_self _)
      rw [halternatives] at hfirst ⊢
      have hor := readFormula_or _ none (by simp [clauseTokens, clause, joinTokens,
        Comparison.tokens]) (hscope.ne_brace _) hfirst hparen hrest
      rw [hor]
      cases conjoin (Comparison.cond false vars) (clause (wordToken word) [] word) <;> rfl

end Clauses

section Texts

/-- The text of one alternative. -/
def clauseText (outer : List String) (word : String) : String :=
  String.join (outer.map fun iv => iv ++ " == " ++ iv ++ "_p and ") ++
    (word ++ " < " ++ word ++ "_p")

theorem clauseTokens_cons (first : Token) (next : String) (outer : List String) (word : String) :
    clauseTokens first (next :: outer) word =
      first :: .eqEq :: wordToken (next ++ "_p") :: .keyword .and "and" ::
        clauseTokens (wordToken ((outer ++ [word]).headD "")) outer word := by
  cases outer with
  | nil => rfl
  | cons second outer => rfl

theorem tokens_clauseText (outer : List String) (word : String)
    (hwords : ∀ w ∈ outer ++ [word], IsWord w) {cs : List Char} (hcs : Boundary cs) :
    tokens ((clauseText outer word).toList ++ cs) =
      clauseTokens (wordToken ((outer ++ [word]).headD "")) outer word ++ tokens cs := by
  induction outer with
  | nil =>
      have hword := hwords word (by simp)
      have hlt : ∀ cs, (" < " : String).toList ++ cs = ' ' :: '<' :: ' ' :: cs := fun _ => rfl
      have htext : (clauseText [] word).toList ++ cs =
          word.toList ++ ((" < " : String).toList ++ ((word ++ "_p").toList ++ cs)) := by
        simp [clauseText]
      rw [htext, hlt, tokens_word hword boundary_space, tokens_space, tokens_lt_space,
        tokens_word (isWord_primed hword) hcs]
      rfl
  | cons next outer ih =>
      have hnext := hwords next (by simp)
      have htail := ih fun w hw => hwords w (List.mem_cons_of_mem next hw)
      have heq : ∀ cs, (" == " : String).toList ++ cs = ' ' :: '=' :: '=' :: ' ' :: cs :=
        fun _ => rfl
      have htext : (clauseText (next :: outer) word).toList ++ cs =
          next.toList ++ ((" == " : String).toList ++ ((next ++ "_p").toList ++
            ((" and " : String).toList ++ ((clauseText outer word).toList ++ cs)))) := by
        have hand : ("_p and " : String).toList = "_p".toList ++ " and ".toList := rfl
        simp [clauseText, hand]
      obtain ⟨hboundary, hand⟩ := separates_and ((clauseText outer word).toList ++ cs)
      rw [htext, heq, tokens_word hnext boundary_space, tokens_space, tokens_eqEq, tokens_space,
        tokens_word (isWord_primed hnext) hboundary, hand, htail, clauseTokens_cons]
      rfl

/-- The text of the alternatives for the loops `words` inside the loops `outer`. -/
def alternativesText (ids : List String) (outer words : Nat) : String :=
  String.join ((List.range' outer words).map fun i =>
    " or (" ++ clauseText (ids.take i) (ids.getD i "")) ++
    String.join (List.replicate words ")")

theorem boundary_alternativesText (ids : List String) (outer words : Nat) {cs : List Char}
    (hcs : Boundary cs) : Boundary ((alternativesText ids outer words).toList ++ cs) := by
  cases words with
  | zero => simpa [alternativesText] using hcs
  | succ words =>
      have hor : (" or (" : String).toList = ' ' :: "or (".toList := rfl
      rw [alternativesText, List.range'_succ, List.map_cons, String.join_cons]
      simp [hor]

@[simp] theorem boundary_paren {rest : List Char} : Boundary (')' :: rest) :=
  boundary_cons (by decide) (by decide)

theorem tokens_alternativesText (outer words : List String)
    (hwords : ∀ w ∈ outer ++ words, IsWord w) {cs : List Char} (hcs : Boundary cs) :
    tokens ((alternativesText (outer ++ words) outer.length words.length).toList ++ cs) =
      alternativeTokens outer words ++ tokens cs := by
  induction words generalizing outer cs with
  | nil => simp [alternativesText, alternativeTokens]
  | cons word words ih =>
      have hsnoc : outer ++ word :: words = outer ++ [word] ++ words := by simp
      have hinner := ih (outer ++ [word]) (by rwa [← hsnoc])
        (boundary_paren : Boundary (')' :: cs))
      rw [List.length_append, List.length_singleton, ← hsnoc] at hinner
      have htext : (alternativesText (outer ++ word :: words) outer.length
          (word :: words).length).toList ++ cs =
          ' ' :: ("or".toList ++ ' ' :: '(' :: ((clauseText outer word).toList ++
            ((alternativesText (outer ++ word :: words) (outer.length + 1)
              words.length).toList ++ ')' :: cs))) := by
        have hor : (" or (" : String).toList = ' ' :: ("or".toList ++ [' ', '(']) := rfl
        have hparen : (")" : String).toList = [')'] := rfl
        rw [List.length_cons, alternativesText, List.range'_succ, List.map_cons,
          String.join_cons, List.replicate_succ', String.join_append]
        simp [alternativesText, hor, hparen, List.getD]
      have hword : IsWord "or" :=
        ⟨'o', "r".toList, rfl, by decide, List.all_eq_true.mp (by decide)⟩
      have htoken : wordToken "or" = .keyword .or "or" := by decide
      have hclause := tokens_clauseText outer word
        (fun w hw => hwords w (by
          rw [hsnoc]
          exact List.mem_append_left words hw))
        (boundary_alternativesText (outer ++ word :: words) (outer.length + 1) words.length
          (boundary_paren : Boundary (')' :: cs)))
      rw [htext, tokens_space, tokens_word hword boundary_space, htoken, tokens_space,
        tokens_singleChar (by decide), hclause, hinner, tokens_singleChar (by decide),
        alternativeTokens]
      simp

end Texts

section Pairs

variable (nest : LoopNestDescriptor)

/-- The tuples of two iterations and the names in scope behind them. -/
def pairScope : Option (List (Option Aff) × List (Option Aff) × Vars) :=
  (tupleItems wordElem [] nest.identifiers).bind fun (dom, vars) =>
    (tupleItems wordElem vars nest.primed).map fun (ran, vars) => (dom, ran, vars)

/-- The tokens of a relation between two iterations. -/
def pairTokens (cond : Stream) : Stream :=
  .char '\x7b' :: tupleTokens "Stmt" nest.identifiers
    (.to :: tupleTokens "Stmt" nest.primed (.char ':' :: (cond ++ [.char '\x7d'])))

theorem tokens_pair {cond : String} {toks : Stream}
    (hcond : ∀ cs, Boundary cs → tokens (cond.toList ++ cs) = toks ++ tokens cs) :
    tokens ("\x7b " ++ buildISLTuple nest "" ++ " -> " ++ buildISLTuple nest "_p" ++ " : " ++
      cond ++ " \x7d").toList = pairTokens nest toks := by
  have hopen : ∀ cs, ("\x7b " : String).toList ++ cs = '\x7b' :: ' ' :: cs := fun _ => rfl
  have hclose : (" \x7d" : String).toList = [' ', '\x7d'] := rfl
  have hto : ∀ cs, (" -> " : String).toList ++ cs = ' ' :: '-' :: '>' :: ' ' :: cs := fun _ => rfl
  have hcolon : ∀ cs, (" : " : String).toList ++ cs = ' ' :: ':' :: ' ' :: cs := fun _ => rfl
  simp only [String.toList_append, List.append_assoc]
  rw [hopen, hto, hcolon, hclose, tokens_singleChar (by decide), tokens_space,
    tokens_buildISLTuple, tokens_space, tokens_to, tokens_space, tokens_buildISLTuple_primed,
    tokens_space, tokens_colon_space, hcond _ boundary_space, tokens_space,
    tokens_singleChar (by decide)]
  rfl

variable {nest} {eqEq : Bool}

/-- A relation between two iterations whose tuples are read. -/
theorem objRead_pairTokens (hne : nest.loops ≠ []) {dom ran : List (Option Aff)} {vars : Vars}
    (hscope : pairScope nest = some (dom, ran, vars)) {toks : Stream} (out : Option Formula)
    (hcond : readFormula eqEq vars ((toks ++ [Token.char '\x7d']).length + 1)
      (toks ++ [.char '\x7d']) = out.map fun cond => (cond, [Token.char '\x7d'])) :
    objRead eqEq (pairTokens nest toks) =
      out.map fun cond => [.map ⟨"Stmt", dom⟩ ⟨"Stmt", ran⟩ cond] := by
  have hids : nest.identifiers ≠ [] := by simpa [LoopNestDescriptor.identifiers] using hne
  have hprimed : nest.primed ≠ [] := by simpa [LoopNestDescriptor.primed] using hids
  obtain ⟨⟨dom', vars'⟩, hdom, hrest⟩ := Option.bind_eq_some_iff.mp hscope
  obtain ⟨⟨ran', vars''⟩, hran, heq⟩ := Option.map_eq_some_iff.mp hrest
  simp only [Prod.mk.injEq] at heq
  obtain ⟨rfl, rfl, rfl⟩ := heq
  have hbody : objReadBody eqEq (tupleTokens "Stmt" nest.identifiers
      (.to :: tupleTokens "Stmt" nest.primed (.char ':' :: (toks ++ [.char '\x7d'])))) =
      (out.map fun cond => Body.map ⟨"Stmt", dom'⟩ ⟨"Stmt", ran'⟩ cond).map
        fun body => (body, [Token.char '\x7d']) := by
    rw [objReadBody, tupleTokens, readTuple_words [] eqEq hids, hdom]
    simp only [Option.map_some, Option.bind_some]
    rw [tupleTokens, readTuple_words vars' eqEq hprimed, hran]
    simp only [Option.map_some, Option.bind_some, readOptionalFormula]
    rw [hcond]
    cases out <;> rfl
  rw [pairTokens, objRead_one hbody (tupleTokens_ne_brace _ _ _), Option.map_map]
  rfl

theorem objRead_pairTokens_none (hne : nest.loops ≠ []) (hscope : pairScope nest = none)
    (toks : Stream) : objRead eqEq (pairTokens nest toks) = none := by
  have hids : nest.identifiers ≠ [] := by simpa [LoopNestDescriptor.identifiers] using hne
  have hprimed : nest.primed ≠ [] := by simpa [LoopNestDescriptor.primed] using hids
  have hbody : objReadBody eqEq (tupleTokens "Stmt" nest.identifiers
      (.to :: tupleTokens "Stmt" nest.primed (.char ':' :: (toks ++ [.char '\x7d'])))) =
      (none : Option Body).map fun body => (body, [Token.char '\x7d']) := by
    rw [objReadBody, tupleTokens, readTuple_words [] eqEq hids]
    unfold pairScope at hscope
    cases hdom : tupleItems wordElem [] nest.identifiers with
    | none => rfl
    | some result =>
        obtain ⟨dom, vars⟩ := result
        rw [hdom] at hscope
        simp only [Option.bind_some, Option.map_eq_none_iff] at hscope
        simp only [Option.map_some, Option.bind_some]
        rw [tupleTokens, readTuple_words vars eqEq hprimed, hscope]
        rfl
  rw [pairTokens, objRead_one hbody (tupleTokens_ne_brace _ _ _)]
  rfl

/-- The union map of one relation. -/
theorem unionMapReadFromStr_of_objRead {str : String} (out : Option Body)
    (hread : objRead eqEq (tokens str.toList) = out.map fun body => [body])
    (hmap : ∀ body, out = some body → body.isMap) :
    unionMapReadFromStr eqEq str = out.map Body.toUnionMap := by
  rw [unionMapReadFromStr, hread]
  cases out with
  | none => rfl
  | some body => simp [hmap body rfl]

end Pairs

section Before

variable (nest : LoopNestDescriptor)

theorem beforeClause_eq (i : Nat) :
    beforeClause nest i = clauseText (nest.identifiers.take i) (nest.identifiers.getD i "") := rfl

theorem identifiers_length : nest.identifiers.length = nest.depth := by
  simp [LoopNestDescriptor.identifiers, LoopNestDescriptor.depth]

theorem tokens_beforeStr {word : String} {words : List String}
    (hids : nest.identifiers = word :: words) :
    tokens (beforeStr nest).toList =
      pairTokens nest (clauseTokens (wordToken word) [] word ++ alternativeTokens [word]
        words) := by
  have hwords : ∀ w ∈ [word] ++ words, IsWord w := by
    intro w hw
    exact isWord_identifiers nest w (by rw [hids]; exact hw)
  have hdepth : nest.depth = words.length + 1 := by
    rw [← identifiers_length, hids, List.length_cons]
  have hrange : (List.range nest.depth).map (fun i =>
      (if i > 0 then " or (" else "") ++ beforeClause nest i) =
      clauseText [] word :: (List.range' 1 words.length).map fun i =>
        " or (" ++ clauseText ((word :: words).take i) ((word :: words).getD i "") := by
    rw [hdepth, List.range_eq_range', List.range'_succ, List.map_cons]
    congr 1
    · simp [beforeClause_eq, hids]
    · refine List.map_congr_left fun i hi => ?_
      have hpos : i > 0 := by
        have := List.mem_range'.mp hi
        omega
      rw [if_pos hpos, beforeClause_eq, hids]
  have htext : beforeStr nest = "\x7b " ++ buildISLTuple nest "" ++ " -> " ++
      buildISLTuple nest "_p" ++ " : " ++
      (clauseText [] word ++ alternativesText (word :: words) 1 words.length) ++ " \x7d" := by
    rw [beforeStr, hrange, hdepth, String.join_cons, alternativesText, Nat.add_sub_cancel]
    simp [String.append_assoc]
  rw [htext]
  apply tokens_pair
  intro cs hcs
  have halternatives := tokens_alternativesText [word] words hwords hcs
  have hclause := tokens_clauseText [] word
    (fun w hw => hwords w (List.mem_append_left words hw))
    (boundary_alternativesText (word :: words) 1 words.length hcs)
  rw [List.singleton_append, List.length_singleton] at halternatives
  rw [String.toList_append, List.append_assoc, hclause, halternatives, List.append_assoc]
  rfl

/-- Behind two readable tuples all words are in scope. -/
theorem pairScope_words {dom ran : List (Option Aff)} {vars : Vars}
    (hscope : pairScope nest = some (dom, ran, vars)) :
    ∀ w ∈ nest.identifiers, (wordAff vars w).isSome ∧ (wordAff vars (w ++ "_p")).isSome := by
  obtain ⟨⟨dom', vars'⟩, hdom, hrest⟩ := Option.bind_eq_some_iff.mp hscope
  obtain ⟨⟨ran', vars''⟩, hran, heq⟩ := Option.map_eq_some_iff.mp hrest
  simp only [Prod.mk.injEq] at heq
  obtain ⟨rfl, rfl, rfl⟩ := heq
  obtain ⟨_, hids⟩ := tupleItems_word_vars [] hdom
  obtain ⟨⟨more, rfl, _⟩, hprimed⟩ := tupleItems_word_vars vars' hran
  intro w hw
  constructor
  · rw [wordAff_append vars' (hids w hw)]
    exact hids w hw
  · exact hprimed _ (List.mem_map_of_mem hw)

variable {nest}

theorem length_alternativeTokens (outer words : List String) :
    words.length ≤ (alternativeTokens outer words).length := by
  induction words generalizing outer with
  | nil => simp
  | cons word words ih =>
      have hrest := ih (outer ++ [word])
      simp only [alternativeTokens, List.length_cons, List.length_append]
      omega

/-- The order string, with `==` as an equality. -/
theorem unionMapReadFromStr_beforeStr {dom ran : List (Option Aff)} {vars : Vars}
    (hne : nest.loops ≠ []) (hscope : pairScope nest = some (dom, ran, vars)) :
    ∃ cond, unionMapReadFromStr true (beforeStr nest) =
        some (Body.map ⟨"Stmt", dom⟩ ⟨"Stmt", ran⟩ cond).toUnionMap ∧
      ∀ env, cond.holds env ↔ precedes vars env [] nest.identifiers := by
  have hids : nest.identifiers ≠ [] := by simpa [LoopNestDescriptor.identifiers] using hne
  obtain ⟨word, words, hcons⟩ := List.exists_cons_of_ne_nil hids
  have hwords := pairScope_words nest hscope
  rw [hcons] at hwords
  have hclause : ClauseScope vars (wordToken word) [] word :=
    clauseScope_head (hwords word (by simp))
  obtain ⟨cond, hcond, hholds⟩ := readFormula_alternatives hclause
    (fun w hw => hwords w (List.mem_cons_of_mem word hw))
    ((clauseTokens (wordToken word) [] word ++ alternativeTokens [word] words ++
      [Token.char '\x7d']).length + 1) (by
        have := length_alternativeTokens [word] words
        simp only [List.length_append]
        omega) [.char '\x7d'] ⟨[], Or.inl rfl⟩
  refine ⟨cond, ?_, ?_⟩
  · rw [← List.append_assoc] at hcond
    have hread := objRead_pairTokens hne hscope (some cond) hcond
    rw [← tokens_beforeStr nest hcons] at hread
    exact unionMapReadFromStr_of_objRead
      (some (.map ⟨"Stmt", dom⟩ ⟨"Stmt", ran⟩ cond)) hread (by
        rintro body ⟨⟩
        rfl)
  · intro env
    rw [hholds, hcons]

/-- The order string where `==` is no comparison operator. -/
theorem unionMapReadFromStr_beforeStr_none (hdepth : 2 ≤ nest.depth) :
    unionMapReadFromStr false (beforeStr nest) = none := by
  have hne : nest.loops ≠ [] := by
    intro hnil
    simp [LoopNestDescriptor.depth, hnil] at hdepth
  have hlength := identifiers_length nest
  obtain ⟨word, next, words, hcons⟩ : ∃ word next words,
      nest.identifiers = word :: next :: words := by
    match hids : nest.identifiers with
    | [] => simp [hids] at hlength; omega
    | [_] => simp [hids] at hlength; omega
    | word :: next :: words => exact ⟨word, next, words, rfl⟩
  have hread : objRead false (pairTokens nest
      (clauseTokens (wordToken word) [] word ++ alternativeTokens [word] (next :: words))) =
      none := by
    cases hscope : pairScope nest with
    | none => exact objRead_pairTokens_none hne hscope _
    | some scope =>
        obtain ⟨dom, ran, vars⟩ := scope
        have hwords := pairScope_words nest hscope
        have hclause : ClauseScope vars (wordToken word) [] word := by
          rw [hcons] at hwords
          exact clauseScope_head (hwords word (by simp))
        have hcond := readFormula_alternatives_none next words hclause
          ((clauseTokens (wordToken word) [] word ++ alternativeTokens [word] (next :: words) ++
            [Token.char '\x7d']).length + 1) [.char '\x7d'] ⟨[], Or.inl rfl⟩
        rw [← List.append_assoc] at hcond
        exact objRead_pairTokens hne hscope none hcond
  rw [unionMapReadFromStr, tokens_beforeStr nest hcons, hread]
  rfl

end Before

section NegativeDist

variable {nest : LoopNestDescriptor}

theorem tokens_negativeDistStr {k : Nat} (hk : k < nest.identifiers.length) :
    tokens (negativeDistStr nest k).toList =
      pairTokens nest ([wordToken (nest.identifiers[k] ++ "_p")] ++
        .lt :: [wordToken nest.identifiers[k]]) := by
  have hword := isWord_identifiers nest _ (List.getElem_mem hk)
  have htext : negativeDistStr nest k = "\x7b " ++ buildISLTuple nest "" ++ " -> " ++
      buildISLTuple nest "_p" ++ " : " ++
      (nest.identifiers[k] ++ "_p" ++ (" < " ++ nest.identifiers[k])) ++ " \x7d" := by
    have hlt : ("_p < " : String) = "_p" ++ " < " := rfl
    have hgetD : nest.identifiers.getD k "" = nest.identifiers[k] := by simp [List.getD, hk]
    simp only [negativeDistStr, hlt, hgetD, String.append_assoc]
  rw [htext]
  apply tokens_pair
  intro cs hcs
  have hlt : ∀ cs, (" < " : String).toList ++ cs = ' ' :: '<' :: ' ' :: cs := fun _ => rfl
  rw [String.toList_append, List.append_assoc, String.toList_append (s := " < "),
    List.append_assoc, hlt, tokens_word (isWord_primed hword) boundary_space, tokens_space,
    tokens_lt_space, tokens_word hword hcs]
  rfl

/-- The pairs that are in violation of loop `k`. -/
theorem unionMapReadFromStr_negativeDistStr (eqEq : Bool) {dom ran : List (Option Aff)}
    {vars : Vars} (hscope : pairScope nest = some (dom, ran, vars)) {k : Nat}
    (hk : k < nest.identifiers.length) :
    ∃ cond, unionMapReadFromStr eqEq (negativeDistStr nest k) =
        some (Body.map ⟨"Stmt", dom⟩ ⟨"Stmt", ran⟩ cond).toUnionMap ∧
      ∀ env, cond.holds env ↔ comparesPrimed vars .gt nest.identifiers[k] env := by
  have hne : nest.loops ≠ [] := by
    rintro hnil
    simp [LoopNestDescriptor.identifiers, hnil] at hk
  obtain ⟨hword, hprimed⟩ := pairScope_words nest hscope _ (List.getElem_mem hk)
  obtain ⟨aff, haff⟩ := Option.isSome_iff_exists.mp hword
  obtain ⟨affp, haffp⟩ := Option.isSome_iff_exists.mp hprimed
  have hlt : comparator? eqEq .lt = some .lt := rfl
  refine ⟨.cmp .lt affp aff, ?_, ?_⟩
  · have hcond := fun depth => isCond_one eqEq (readFormula eqEq vars depth) vars
      (isSum_wordToken haffp) hlt (isSum_wordToken haff)
    have hstart : ∀ s' : Stream, [wordToken (nest.identifiers[k] ++ "_p")] ++
        .lt :: [wordToken nest.identifiers[k]] ++ [Token.char '\x7d'] ≠ .char '\x7d' :: s' := by
      intro s'
      rcases wordToken_eq (nest.identifiers[k] ++ "_p") with h | ⟨kw, h⟩ <;> simp [h]
    have hread := fun depth => readFormula_isCond (hcond depth) hstart
    have hobj := objRead_pairTokens hne hscope (some (.cmp .lt affp aff)) (hread _)
    rw [← tokens_negativeDistStr hk] at hobj
    exact unionMapReadFromStr_of_objRead
      (some (.map ⟨"Stmt", dom⟩ ⟨"Stmt", ran⟩ (.cmp .lt affp aff))) hobj (by
        rintro body ⟨⟩
        rfl)
  · intro env
    simp only [Formula.holds, comparesPrimed, eval_wordAff haff, eval_wordAff haffp,
      Comparator.holds]
    constructor
    · rintro ⟨b, a, hb, ha, hlt⟩
      exact ⟨a, b, ha, hb, hlt⟩
    · rintro ⟨a, b, ha, hb, hlt⟩
      exact ⟨b, a, hb, ha, hlt⟩

end NegativeDist

end PolyhedralPass
