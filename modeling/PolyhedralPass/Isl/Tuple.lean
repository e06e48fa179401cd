/-
Reading tuples of words.  A word that is not in scope names its position, one
that is in scope makes the position equal to the earlier one, and a keyword that
stands for no expression stops the reader.
-/
import PolyhedralPass.Isl.Affine

namespace PolyhedralPass.Isl

/-- Token lists with a token between them. -/
def joinTokens (sep : Token) : List Stream → Stream
  | [] => []
  | [first] => first
  | first :: second :: rest => first ++ sep :: joinTokens sep (second :: rest)

theorem length_le_joinTokens (sep : Token) (lists : List Stream) :
    lists.length ≤ (joinTokens sep lists).length + 1 := by
  fun_induction joinTokens sep lists with
  | case1 => simp
  | case2 => simp
  | case3 first second rest ih =>
      simp only [List.length_cons, List.length_append] at ih ⊢
      omega

/-- A text that ends the token in front of it and is a token itself. -/
def Separates (sep : String) (tok : Token) : Prop :=
  ∀ cs, Boundary (sep.toList ++ cs) ∧ tokens (sep.toList ++ cs) = tok :: tokens cs

theorem tokens_intercalate {α : Type} {sep : String} {tok : Token} (hsep : Separates sep tok)
    (text : α → String) (toks : α → Stream) {items : List α}
    (hitems : ∀ item ∈ items, ∀ rest, Boundary rest →
      tokens ((text item).toList ++ rest) = toks item ++ tokens rest)
    {rest : List Char} (hrest : Boundary rest) :
    tokens ((sep.intercalate (items.map text)).toList ++ rest) =
      joinTokens tok (items.map toks) ++ tokens rest := by
  induction items with
  | nil => simp [joinTokens]
  | cons first items ih =>
      cases items with
      | nil => simpa [joinTokens] using hitems first (by simp) rest hrest
      | cons second items =>
          have htail := ih fun item hitem => hitems item (List.mem_cons_of_mem first hitem)
          simp only [List.map_cons] at htail ⊢
          rw [String.intercalate_cons_cons, String.toList_append, String.toList_append,
            List.append_assoc, List.append_assoc, hitems first (by simp) _ (hsep _).1,
            (hsep _).2, htail, joinTokens]
          simp

theorem separates_comma : Separates ", " (.char ',') := by
  intro cs
  have hlist : (", " : String).toList ++ cs = ',' :: ' ' :: cs := rfl
  rw [hlist, tokens_singleChar (by decide), tokens_space]
  exact ⟨boundary_comma, rfl⟩

/-- The expression a word is read as. -/
def wordAff (vars : Vars) (word : String) : Option Aff :=
  match wordToken word with
  | .ident name => (varsPos vars name).map fun pos => .add (.cst 0) (.var pos)
  | .keyword .nan _ => some (.add (.cst 0) .nan)
  | _ => none

theorem acceptAffine_wordToken (vars : Vars) (word : String) {s : Stream} (hs : EndsSum s) :
    acceptAffine vars (wordToken word :: s) = (wordAff vars word).map fun aff => (aff, s) := by
  unfold acceptAffine wordAff
  have hend : ∀ res, Continues vars res s (some (res, s)) := hs.continues vars
  by_cases hnan : isNan word
  · rw [wordToken_of_isNan hnan, affineLoop]
    exact (hend _).affineNext_eq (Nat.le_succ _)
  · rw [affineLoop_wordToken vars _ _ _ (by simpa using hnan)]
    rcases wordToken_eq word with hword | ⟨kw, hword⟩
    · rw [hword]
      cases hpos : varsPos vars word with
      | none => simp [acceptAffineFactor, hpos]
      | some pos =>
          rw [acceptAffineFactor_ident hpos hs.endsFactor]
          simp only [hpos, Option.map_some]
          exact (hend _).affineNext_eq (Nat.le_succ _)
    · have hkw : kw ≠ .nan := by
        rintro rfl
        simp [isNan, hword] at hnan
      rw [hword]
      cases kw <;> simp_all [acceptAffineFactor]

theorem acceptAffine_aff (vars : Vars) (expr : Aff) {s : Stream} (hs : EndsSum s) :
    acceptAffine vars (.aff expr :: s) = some (.add (.cst 0) expr, s) := by
  rw [acceptAffine, affineLoop, acceptAffineFactor, hs.endsFactor.factorTail_eq]
  · exact (hs.continues vars _).affineNext_eq (Nat.le_succ _)
  all_goals simp

theorem varsPos_append_none (vars : Vars) (name : String) :
    varsPos (vars ++ [none]) name = varsPos vars name := by
  simp [varsPos, List.findIdx?_append]

theorem wordAff_append_none (vars : Vars) (word : String) :
    wordAff (vars ++ [none]) word = wordAff vars word := by
  unfold wordAff
  simp only [varsPos_append_none]

section Readers

variable (eqEq : Bool)

/-- The end of a tuple element. -/
def EndsElem (s : Stream) : Prop :=
  ∃ s', s = .char ',' :: s' ∨ s = .char ']' :: s'

theorem EndsElem.endsSum {s : Stream} (h : EndsElem s) : EndsSum s := by
  obtain ⟨s', rfl | rfl⟩ := h
  · intro tok htok
    obtain rfl : Token.char ',' = tok := by simpa using htok
    decide
  · intro tok htok
    obtain rfl : Token.char ']' = tok := by simpa using htok
    decide

theorem readTupleVarDef_of_acceptAffine {vars : Vars} {s rest : Stream} {expr : Aff}
    (haccept : acceptAffine (vars ++ [none]) s = some (expr, rest)) (hrest : EndsElem rest) :
    readTupleVarDef eqEq vars s = some (some expr, vars ++ [none], rest) := by
  obtain ⟨s', rfl | rfl⟩ := hrest
  · rw [readTupleVarDef, haccept]
    simp [comparator?]
  · rw [readTupleVarDef, haccept]
    simp [comparator?]

theorem readTupleVarDef_wordToken (vars : Vars) (word : String) {s : Stream}
    (hs : EndsElem s) :
    readTupleVarDef eqEq vars (wordToken word :: s) =
      (wordAff vars word).map fun aff => (some aff, vars ++ [none], s) := by
  have haccept := acceptAffine_wordToken (vars ++ [none]) word hs.endsSum
  rw [wordAff_append_none] at haccept
  cases haff : wordAff vars word with
  | none =>
      rw [haff] at haccept
      simp [readTupleVarDef, haccept]
  | some aff =>
      rw [haff] at haccept
      exact readTupleVarDef_of_acceptAffine eqEq haccept hs

end Readers

section Items

-- The texts of the elements, and what each does to the names in scope.
variable {α : Type} (toks : α → Stream) (elem : Vars → α → Option (Option Aff × Vars))

/-- The elements of a tuple and the names in scope behind it. -/
def tupleItems : Vars → List α → Option (List (Option Aff) × Vars)
  | vars, [] => some ([], vars)
  | vars, item :: items => (elem vars item).bind fun (first, vars) =>
      (tupleItems vars items).map fun (rest, vars) => (first :: rest, vars)

/-- The reader takes the text of an item as one element, or stops in it. -/
def ReadsItem (eqEq : Bool) (item : α) : Prop :=
  ∀ vars s, EndsElem s →
    match elem vars item with
    | some (first, vars') => readTupleEl eqEq vars (toks item ++ s) = some (first, vars', s)
    | none => ∀ first vars' rest,
        readTupleEl eqEq vars (toks item ++ s) = some (first, vars', rest) → ¬ EndsElem rest

variable {toks elem} {eqEq : Bool}

theorem eat_bracket_of_not_endsElem {rest : Stream} (hrest : ¬ EndsElem rest) :
    eat ']' rest = none := by
  unfold eat
  split
  · split_ifs with hbracket
    · exact absurd ⟨_, Or.inr (by rw [← hbracket])⟩ hrest
    · rfl
  · rfl

/-- Behind an element that no comma follows the list of elements ends. -/
theorem readTupleList_succ_of_not_comma {fuel : Nat} {vars vars' : Vars} {s rest : Stream}
    {first : Option Aff} (hel : readTupleEl eqEq vars s = some (first, vars', rest))
    (hrest : ∀ s', rest ≠ .char ',' :: s') :
    readTupleList eqEq (fuel + 1) vars s = some ([first], vars', rest) := by
  simp only [readTupleList, hel, Option.bind_some]

theorem readTupleList_items {items : List α} (hne : items ≠ [])
    (hitems : ∀ item ∈ items, ReadsItem toks elem eqEq item) (vars : Vars) (s : Stream)
    {fuel : Nat} (hfuel : items.length ≤ fuel) :
    match tupleItems elem vars items with
    | some (elems, vars') => readTupleList eqEq fuel vars
        (joinTokens (.char ',') (items.map toks) ++ .char ']' :: s) =
          some (elems, vars', .char ']' :: s)
    | none => ∀ elems vars' rest, readTupleList eqEq fuel vars
        (joinTokens (.char ',') (items.map toks) ++ .char ']' :: s) =
          some (elems, vars', rest) → eat ']' rest = none := by
  induction items generalizing vars fuel with
  | nil => exact absurd rfl hne
  | cons item items ih =>
      obtain ⟨fuel, rfl⟩ : ∃ k, fuel = k + 1 :=
        ⟨fuel - 1, by simp only [List.length_cons] at hfuel; omega⟩
      obtain ⟨tail, htail, hjoin⟩ : ∃ tail, EndsElem tail ∧
          joinTokens (.char ',') ((item :: items).map toks) ++ .char ']' :: s =
            toks item ++ tail := by
        cases items with
        | nil => exact ⟨.char ']' :: s, ⟨s, Or.inr rfl⟩, rfl⟩
        | cons next items =>
            refine ⟨.char ',' :: (joinTokens (.char ',') ((next :: items).map toks) ++
              .char ']' :: s), ⟨_, Or.inl rfl⟩, ?_⟩
            simp [joinTokens]
      have hitem := hitems item (by simp) vars tail htail
      rw [hjoin, tupleItems]
      cases helem : elem vars item with
      | none =>
          simp only [helem] at hitem
          intro elems vars' rest hread
          cases hel : readTupleEl eqEq vars (toks item ++ tail) with
          | none => simp [readTupleList, hel] at hread
          | some result =>
              obtain ⟨first, vars₁, rest₁⟩ := result
              have hends := hitem first vars₁ rest₁ hel
              rw [readTupleList_succ_of_not_comma hel
                (fun s' h => hends ⟨s', Or.inl h⟩)] at hread
              simp only [Option.some.injEq, Prod.mk.injEq] at hread
              rw [← hread.2.2]
              exact eat_bracket_of_not_endsElem hends
      | some result =>
          obtain ⟨first, vars₁⟩ := result
          simp only [helem] at hitem
          cases items with
          | nil =>
              obtain rfl : .char ']' :: s = tail := List.append_cancel_left hjoin
              simp only [Option.bind_some, tupleItems, Option.map_some]
              exact readTupleList_succ_of_not_comma hitem (by simp)
          | cons next items =>
              obtain rfl : .char ',' :: (joinTokens (.char ',') ((next :: items).map toks) ++
                  .char ']' :: s) = tail := by
                simpa [joinTokens] using hjoin
              have hnext := ih (by simp) (fun i hi => hitems i (List.mem_cons_of_mem item hi))
                vars₁ (by simpa using hfuel : (next :: items).length ≤ fuel)
              simp only [Option.bind_some, readTupleList, hitem]
              cases hrest : tupleItems elem vars₁ (next :: items) with
              | some result =>
                  obtain ⟨rest, vars₂⟩ := result
                  simp only [hrest] at hnext
                  simp only [hnext, Option.map_some]
              | none =>
                  simp only [hrest] at hnext
                  intro elems vars' rest hread
                  simp only [Option.map_eq_some_iff, Prod.exists] at hread
                  obtain ⟨elems₁, vars₁', rest₁, hread₁, heq⟩ := hread
                  simp only [Prod.mk.injEq] at heq
                  rw [← heq.2.2]
                  exact hnext elems₁ vars₁' rest₁ hread₁

/-- A tuple of items, as a whole. -/
theorem readTupleBody_items {items : List α} (hne : items ≠ [])
    (hhead : ∀ item ∈ items, ∀ s, ∃ tok s', toks item ++ s = tok :: s' ∧ tok ≠ .char ']')
    (hitems : ∀ item ∈ items, ReadsItem toks elem eqEq item) (name : String) (vars : Vars)
    (s : Stream) :
    readTupleBody eqEq name vars (joinTokens (.char ',') (items.map toks) ++ .char ']' :: s) =
      (tupleItems elem vars items).map fun (elems, vars) => (⟨name, elems⟩, vars, s) := by
  obtain ⟨tok, rest, hcons, htok⟩ : ∃ tok rest,
      joinTokens (.char ',') (items.map toks) ++ .char ']' :: s = tok :: rest ∧
        tok ≠ .char ']' := by
    cases items with
    | nil => exact absurd rfl hne
    | cons item items =>
        cases items with
        | nil => exact hhead item (by simp) _
        | cons next items =>
            obtain ⟨tok, rest, hcons, htok⟩ := hhead item (by simp)
              (.char ',' :: (joinTokens (.char ',') ((next :: items).map toks) ++ .char ']' :: s))
            exact ⟨tok, rest, by rw [← hcons]; simp [joinTokens], htok⟩
  have hlength : items.length ≤ (tok :: rest).length + 1 := by
    have hjoin := length_le_joinTokens (.char ',') (items.map toks)
    rw [← hcons, List.length_append, List.length_cons]
    rw [List.length_map] at hjoin
    omega
  have hlist := readTupleList_items hne hitems vars s hlength
  rw [hcons] at hlist ⊢
  have hbody : readTupleBody eqEq name vars (tok :: rest) =
      (readTupleList eqEq ((tok :: rest).length + 1) vars (tok :: rest)).bind
        fun result => (eat ']' result.2.2).map fun s => (⟨name, result.1⟩, result.2.1, s) := by
    rw [readTupleBody]
    exact fun s heq => htok (List.cons.inj heq).1
  rw [hbody]
  cases hitem : tupleItems elem vars items with
  | some result =>
      obtain ⟨elems, vars'⟩ := result
      simp only [hitem] at hlist
      rw [hlist]
      simp [eat]
  | none =>
      simp only [hitem] at hlist
      cases hread : readTupleList eqEq ((tok :: rest).length + 1) vars (tok :: rest) with
      | none => rfl
      | some result =>
          obtain ⟨elems, vars', rest'⟩ := result
          simp [hlist elems vars' rest' hread]

/-- A named tuple; a keyword may be its name. -/
theorem readTuple_items {items : List α} (hne : items ≠ [])
    (hhead : ∀ item ∈ items, ∀ s, ∃ tok s', toks item ++ s = tok :: s' ∧ tok ≠ .char ']')
    (hitems : ∀ item ∈ items, ReadsItem toks elem eqEq item) (name : String) (vars : Vars)
    (s : Stream) :
    readTuple eqEq vars (wordToken name :: .char '[' ::
        (joinTokens (.char ',') (items.map toks) ++ .char ']' :: s)) =
      (tupleItems elem vars items).map fun (elems, vars) => (⟨name, elems⟩, vars, s) := by
  rw [← readTupleBody_items hne hhead hitems name vars s]
  rcases wordToken_eq name with hname | ⟨kw, hname⟩
  · rw [hname, readTuple]
  · rw [hname, readTuple]

end Items

section Words

variable (vars : Vars)

/-- What a word does as an element of a tuple. -/
def wordElem (word : String) : Option (Option Aff × Vars) :=
  match wordToken word, varsPos vars word with
  | .ident name, none => some (none, vars ++ [some name])
  | _, _ => (wordAff vars word).map fun aff => (some aff, vars ++ [none])

/-- A word that isl takes as an expression when it is in scope. -/
def wordReadable (word : String) : Bool :=
  checkKeywords word == none || isNan word

theorem readsItem_word (eqEq : Bool) (word : String) :
    ReadsItem (fun word => [wordToken word]) wordElem eqEq word := by
  intro vars s hs
  have hread : readTupleEl eqEq vars (wordToken word :: s) =
      (wordElem vars word).map fun (elem, vars) => (elem, vars, s) := by
    have hdef := readTupleVarDef_wordToken eqEq vars word hs
    unfold wordElem
    rcases wordToken_eq word with hword | ⟨kw, hword⟩
    · rw [hword] at hdef ⊢
      cases hpos : varsPos vars word with
      | none =>
          obtain ⟨s', rfl | rfl⟩ := hs
          · simp [readTupleEl, hpos]
          · simp [readTupleEl, hpos]
      | some pos =>
          simp only [readTupleEl, hpos, hdef, Option.map_map]
          rfl
    · rw [hword] at hdef ⊢
      rw [readTupleEl, hdef]
      · simp only [Option.map_map]
        rfl
      all_goals simp
  cases helem : wordElem vars word with
  | none => simp [hread, helem]
  | some result => simp [hread, helem]

theorem readTuple_words (eqEq : Bool) {words : List String} (hne : words ≠ []) (name : String)
    (s : Stream) :
    readTuple eqEq vars (wordToken name :: .char '[' ::
        (joinTokens (.char ',') (words.map fun word => [wordToken word]) ++ .char ']' :: s)) =
      (tupleItems wordElem vars words).map fun (elems, vars) => (⟨name, elems⟩, vars, s) := by
  apply readTuple_items hne
  · intro word _ s
    refine ⟨wordToken word, s, rfl, ?_⟩
    rcases wordToken_eq word with hword | ⟨kw, hword⟩
    · simp [hword]
    · simp [hword]
  · exact fun word _ => readsItem_word eqEq word

/-- A readable word always is an element of a tuple. -/
theorem wordElem_isSome (word : String) : (wordElem vars word).isSome = wordReadable word := by
  unfold wordElem wordAff wordReadable isNan wordToken
  cases hkw : checkKeywords word with
  | none => cases hpos : varsPos vars word <;> simp [hpos]
  | some kw => cases kw <;> simp

theorem tupleItems_word_isSome (words : List String) :
    (tupleItems wordElem vars words).isSome = words.all wordReadable := by
  induction words generalizing vars with
  | nil => rfl
  | cons word words ih =>
      have hword := wordElem_isSome vars word
      rw [tupleItems, List.all_cons, ← hword]
      cases wordElem vars word with
      | none => rfl
      | some result => simp [← ih result.2]

theorem wordElem_vars {word : String} {elem : Option Aff} {vars' : Vars}
    (h : wordElem vars word = some (elem, vars')) :
    ∃ name, vars' = vars ++ [name] ∧ (wordAff vars' word).isSome := by
  have hkeep := wordAff_append_none vars word
  unfold wordElem at h
  split at h
  · rename_i name htoken hpos
    simp only [Option.some.injEq, Prod.mk.injEq] at h
    obtain ⟨_, rfl⟩ := h
    refine ⟨some name, rfl, ?_⟩
    have hnew : (varsPos (vars ++ [some name]) name).isSome := by
      simp [varsPos]
    unfold wordAff
    rw [htoken]
    simpa using hnew
  · obtain ⟨aff, haff, heq⟩ := Option.map_eq_some_iff.mp h
    simp only [Prod.mk.injEq] at heq
    obtain ⟨_, rfl⟩ := heq
    exact ⟨none, rfl, by rw [hkeep, haff]; rfl⟩

/-- Names that come into scope later do not hide a word. -/
theorem wordAff_append {word : String} (h : (wordAff vars word).isSome) (more : Vars) :
    wordAff (vars ++ more) word = wordAff vars word := by
  have hpos : ∀ name, (varsPos vars name).isSome →
      varsPos (vars ++ more) name = varsPos vars name := by
    intro name hname
    obtain ⟨pos, hpos⟩ := Option.isSome_iff_exists.mp hname
    rw [varsPos] at hpos ⊢
    rw [List.findIdx?_append, hpos]
    simp [varsPos, hpos]
  unfold wordAff at h ⊢
  split
  · rename_i name htoken
    rw [htoken] at h
    rw [hpos name (by simpa using h)]
  · rfl
  · rfl

/-- A tuple of words brings one position for each word, and all its words into
scope. -/
theorem tupleItems_word_vars {words : List String} {elems : List (Option Aff)} {vars' : Vars}
    (h : tupleItems wordElem vars words = some (elems, vars')) :
    (∃ more, vars' = vars ++ more ∧ more.length = words.length) ∧
      ∀ word ∈ words, (wordAff vars' word).isSome := by
  induction words generalizing vars elems with
  | nil =>
      simp only [tupleItems, Option.some.injEq, Prod.mk.injEq] at h
      exact ⟨⟨[], by simp [h.2], rfl⟩, by simp⟩
  | cons word words ih =>
      obtain ⟨⟨first, vars₁⟩, hfirst, hrest⟩ := Option.bind_eq_some_iff.mp h
      obtain ⟨⟨rest, vars₂⟩, htail, heq⟩ := Option.map_eq_some_iff.mp hrest
      simp only [Prod.mk.injEq] at heq
      obtain ⟨_, rfl⟩ := heq
      obtain ⟨name, rfl, hword⟩ := wordElem_vars vars hfirst
      obtain ⟨⟨more, rfl, hlength⟩, hwords⟩ := ih (vars ++ [name]) htail
      refine ⟨⟨name :: more, by simp, by simp [hlength]⟩, ?_⟩
      intro w hw
      rcases List.mem_cons.mp hw with rfl | hw
      · rw [wordAff_append _ hword]
        exact hword
      · exact hwords w hw

/-- Different new identifiers name the positions in their order. -/
theorem tupleItems_fresh {words : List String} (hident : ∀ word ∈ words, checkKeywords word = none)
    (hnodup : words.Nodup) (hfresh : ∀ word ∈ words, some word ∉ vars) :
    tupleItems wordElem vars words =
      some (List.replicate words.length none, vars ++ words.map some) := by
  induction words generalizing vars with
  | nil => simp [tupleItems]
  | cons word words ih =>
      have hword : wordElem vars word = some (none, vars ++ [some word]) := by
        have hpos : varsPos vars word = none := by
          rw [varsPos, List.findIdx?_eq_none_iff]
          intro name hname
          rw [beq_eq_false_iff_ne]
          rintro rfl
          exact hfresh word (by simp) hname
        rw [wordElem, wordToken, hident word (by simp), hpos]
      obtain ⟨hnot, hnodup⟩ := List.nodup_cons.mp hnodup
      have hrest := ih (vars ++ [some word]) (fun w hw => hident w (List.mem_cons_of_mem word hw))
        hnodup (by
          intro w hw hmem
          rcases List.mem_append.mp hmem with hmem | hmem
          · exact hfresh w (List.mem_cons_of_mem word hw) hmem
          · obtain rfl : w = word := by simpa using hmem
            exact hnot hw)
      simp [tupleItems, hword, hrest, List.replicate_succ]

end Words

end PolyhedralPass.Isl
