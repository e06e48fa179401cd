/-
Which nests get a relation at all: the strings isl can read, in terms of the
names and expressions they are made of, and what becomes of nests whose names
do not stay apart.
-/
import PolyhedralPass.Exactness

namespace PolyhedralPass

open Isl

theorem getDependencies_of_beforeStr_none {eqEq : Bool} {F : Function}
    {nest : LoopNestDescriptor} (hbefore : unionMapReadFromStr eqEq (beforeStr nest) = none) :
    getDependencies eqEq F nest = none := by
  unfold getDependencies
  cases unionSetReadFromStr eqEq (domainStr F nest) with
  | none => rfl
  | some domain =>
      cases unionMapReadFromStr eqEq (readStr F nest) with
      | none => rfl
      | some reads =>
          cases unionMapReadFromStr eqEq (writeStr F nest) with
          | none => rfl
          | some writes => simp [hbefore]

/-- No nest gets a relation from a reader that does not take `==`: the order
string of every nest has one.  The legality test is never reached. -/
theorem getDependencies_eq_none (F : Function) (nest : LoopNestDescriptor)
    (hdepth : 2 ≤ nest.depth) :
    unionMapReadFromStr false (beforeStr nest) = none ∧ getDependencies false F nest = none ∧
      isTilingLegal false nest (getDependencies false F nest) = false := by
  have hbefore := unionMapReadFromStr_beforeStr_none hdepth
  have hnone : getDependencies false F nest = none := getDependencies_of_beforeStr_none hbefore
  refine ⟨hbefore, hnone, ?_⟩
  simp [hnone, isTilingLegal]

theorem exampleNest_eq_none :
    unionMapReadFromStr false (beforeStr exampleNest) = none ∧
      getDependencies false exampleFunction exampleNest = none ∧
      isTilingLegal false exampleNest (getDependencies false exampleFunction exampleNest) = false :=
  getDependencies_eq_none exampleFunction exampleNest (by decide)

/-- Nests with distinct names, constant bounds and affine subscripts are among
those without a relation. -/
theorem not_box_isSome :
    ¬ ∀ (F : Function) (nest : LoopNestDescriptor), nest.Box F →
      (getDependencies false F nest).isSome := by
  intro hall
  have hsome := hall exampleFunction exampleNest exampleNest_box
  have hbefore := unionMapReadFromStr_beforeStr_none (show 2 ≤ exampleNest.depth by decide)
  rw [getDependencies_of_beforeStr_none hbefore] at hsome
  exact absurd hsome (by decide)

section Scopes

/-- The words a scope gives a position to. -/
def HasWords (vars : Vars) (words : List String) : Prop :=
  ∀ word, (wordPos vars word).isSome = (words.contains word && checkKeywords word == none)

variable (F : Function)

/-- Whether isl can read an expression where the given words are in scope: every
term names one of them, or is a NaN without a factor, and no term behind the first has the
coefficient zero. -/
def readableIn (words : List String) (expr : AffineExpr) : Bool :=
  (expr.terms.all fun term =>
    (words.contains (termName F term) && checkKeywords (termName F term) == none) ||
      ((absCoeff term.coefficient).toInt == 1 && isNan (termName F term))) &&
    expr.terms.tail.all fun term => term.coefficient != 0

/-- Whether isl can read the subscripts of an access.  A subscript that is a
single word comes into scope for those behind it. -/
def subscriptsReadable : List String → List AffineExpr → Bool
  | _, [] => true
  | words, expr :: rest =>
      match bareWord F expr with
      | some word => wordReadable word && subscriptsReadable (word :: words) rest
      | none => readableIn F words expr && subscriptsReadable words rest

variable {F}

theorem varsPos_isSome (vars : Vars) (word : String) :
    (varsPos vars word).isSome ↔ some word ∈ vars := by
  rw [varsPos, List.findIdx?_isSome, List.any_eq_true]
  constructor
  · rintro ⟨name, hname, heq⟩
    rwa [beq_iff_eq.mp heq] at hname
  · exact fun hmem => ⟨_, hmem, by simp⟩

theorem wordPos_isSome (vars : Vars) (word : String) :
    (wordPos vars word).isSome ↔ some word ∈ vars ∧ checkKeywords word = none := by
  rw [← varsPos_isSome, wordPos, wordToken]
  cases checkKeywords word with
  | none => simp
  | some kw => simp

theorem hasWords_iff {vars : Vars} {words : List String} :
    HasWords vars words ↔ ∀ word, checkKeywords word = none →
      (some word ∈ vars ↔ word ∈ words) := by
  refine forall_congr' fun word => ?_
  rw [Bool.eq_iff_iff, wordPos_isSome]
  simp only [Bool.and_eq_true, List.contains_iff_mem, beq_iff_eq]
  tauto

/-- What an element that is a word adds to the scope. -/
theorem HasWords.wordElem {vars vars' : Vars} {words : List String} {word : String}
    {elem : Option Aff} (hwords : HasWords vars words)
    (helem : PolyhedralPass.Isl.wordElem vars word = some (elem, vars')) :
    HasWords vars' (word :: words) := by
  rw [hasWords_iff] at hwords ⊢
  intro name hname
  cases hkw : checkKeywords word with
  | none =>
      cases hpos : varsPos vars word with
      | none =>
          simp only [PolyhedralPass.Isl.wordElem, wordToken, hkw, hpos, Option.some.injEq,
            Prod.mk.injEq] at helem
          rw [← helem.2]
          simp [hwords name hname, or_comm]
      | some pos =>
          have hmem : word ∈ words := by
            rw [← hwords word hkw, ← varsPos_isSome, hpos]
            rfl
          simp only [PolyhedralPass.Isl.wordElem, wordToken, hkw, hpos, Option.map_eq_some_iff,
            Prod.mk.injEq] at helem
          obtain ⟨_, _, _, rfl⟩ := helem
          have hname' : name ∈ word :: words ↔ name ∈ words := by
            rw [List.mem_cons, or_iff_right_of_imp]
            rintro rfl
            exact hmem
          simp [hwords name hname, hname']
  | some kw =>
      have hne : name ≠ word := by
        rintro rfl
        rw [hname] at hkw
        exact absurd hkw (by simp)
      simp only [PolyhedralPass.Isl.wordElem, wordToken, hkw, Option.map_eq_some_iff,
        Prod.mk.injEq] at helem
      obtain ⟨_, _, _, rfl⟩ := helem
      simp [hwords name hname, hne]

theorem HasWords.append_none {vars : Vars} {words : List String} (hwords : HasWords vars words) :
    HasWords (vars ++ [none]) words := by
  rw [hasWords_iff] at hwords ⊢
  intro name hname
  simp [hwords name hname]

/-- The words of a tuple are in scope behind it. -/
theorem HasWords.tupleItems {vars vars' : Vars} {words items : List String}
    {elems : List (Option Aff)} (hwords : HasWords vars words)
    (hitems : PolyhedralPass.Isl.tupleItems PolyhedralPass.Isl.wordElem vars items =
      some (elems, vars')) :
    HasWords vars' (items.reverse ++ words) := by
  induction items generalizing vars words elems with
  | nil =>
      simp only [PolyhedralPass.Isl.tupleItems, Option.some.injEq, Prod.mk.injEq] at hitems
      rw [← hitems.2]
      exact hwords
  | cons item items ih =>
      obtain ⟨⟨first, vars₁⟩, hfirst, hrest⟩ := Option.bind_eq_some_iff.mp hitems
      obtain ⟨⟨rest, vars₂⟩, htail, heq⟩ := Option.map_eq_some_iff.mp hrest
      simp only [Prod.mk.injEq] at heq
      obtain ⟨_, rfl⟩ := heq
      have hall := ih (hwords.wordElem hfirst) htail
      simpa using hall

theorem HasWords.congr {vars : Vars} {words words' : List String} (hwords : HasWords vars words)
    (h : ∀ word, word ∈ words ↔ word ∈ words') : HasWords vars words' := by
  rw [hasWords_iff] at hwords ⊢
  intro word hword
  rw [hwords word hword, h word]

theorem HasWords.exprReadable {vars : Vars} {words : List String} (hwords : HasWords vars words)
    (expr : AffineExpr) :
    PolyhedralPass.exprReadable F vars expr = readableIn F words expr := by
  have hterm : termReadable F vars = fun term =>
      (words.contains (termName F term) && checkKeywords (termName F term) == none) ||
        ((absCoeff term.coefficient).toInt == 1 && isNan (termName F term)) := by
    funext term
    rw [termReadable, multipleReadable, hwords (termName F term)]
  rw [PolyhedralPass.exprReadable, readableIn, hterm]

theorem HasWords.subscripts {vars : Vars} {words : List String} (hwords : HasWords vars words)
    (subscripts : List AffineExpr) :
    (PolyhedralPass.Isl.tupleItems (subscriptElem F) vars subscripts).isSome =
      subscriptsReadable F words subscripts := by
  induction subscripts generalizing vars words with
  | nil => rfl
  | cons expr rest ih =>
      rw [PolyhedralPass.Isl.tupleItems, subscriptsReadable, subscriptElem]
      cases hbare : bareWord F expr with
      | some word =>
          have hsome := wordElem_isSome vars word
          cases helem : PolyhedralPass.Isl.wordElem vars word with
          | none => simp [← hsome, helem]
          | some result =>
              obtain ⟨elem, vars'⟩ := result
              have hrest := ih (hwords.wordElem helem)
              simp [← hsome, helem, ← hrest]
      | none =>
          have hreadable := hwords.append_none.exprReadable (F := F) expr
          rw [← exprAff_isSome] at hreadable
          have hrest := ih hwords.append_none
          cases haff : exprAff F (vars ++ [none]) expr with
          | none => simp [← hreadable, haff]
          | some aff => simp [← hreadable, haff, ← hrest]

end Scopes

section Names

variable (F : Function) (nest : LoopNestDescriptor)

/-- Whether isl can read all the strings of a nest, but for the operator `==`. -/
def stringsReadable : Bool :=
  nest.identifiers.all wordReadable &&
    (nest.loops.all fun loop => readableIn F nest.identifiers loop.bounds.upper) &&
    nest.accesses.all fun access => subscriptsReadable F nest.identifiers access.subscripts

/-- The bounds and subscripts of a nest. -/
def LoopNestDescriptor.exprs : List AffineExpr :=
  (nest.loops.flatMap fun loop => [loop.bounds.lower, loop.bounds.upper]) ++
    nest.accesses.flatMap MemoryAccess.subscripts

/-- A symbol that is no induction variable of the nest. -/
def LoopNestDescriptor.Foreign (symbol : Option Value) : Prop :=
  ∀ loop ∈ nest.loops, symbol ≠ some loop.induction

/-- No symbol of a bound or subscript takes the identifier of an induction
variable it is not. -/
def ForeignApart : Prop :=
  ∀ expr ∈ nest.exprs, ∀ term ∈ expr.terms, nest.Foreign term.symbol →
    termName F term ∉ nest.identifiers

/-- The identifiers of both iterations, and those of the other symbols, do not
merge. -/
structure NamesApart : Prop where
  nodup : (nest.identifiers ++ nest.primed).Nodup
  foreign : ForeignApart F nest

variable {F nest}

theorem subscriptsReadable_printed (words : List String) (access : MemoryAccess) :
    subscriptsReadable F words access.printedSubscripts =
      subscriptsReadable F words access.subscripts := by
  unfold MemoryAccess.printedSubscripts
  cases hsubscripts : access.subscripts with
  | nil => rfl
  | cons expr rest => rfl

theorem primed_injective : Function.Injective fun word : String => word ++ "_p" := by
  intro word word' h
  exact String.append_left_inj "_p" |>.mp h

/-- The identifiers of both iterations are distinct when those of one are, and
none of them is another one with the suffix. -/
theorem identifiers_primed_nodup_iff :
    (nest.identifiers ++ nest.primed).Nodup ↔ nest.identifiers.Nodup ∧
      ∀ word ∈ nest.identifiers, ∀ word' ∈ nest.identifiers, word ≠ word' ++ "_p" := by
  rw [List.nodup_append, LoopNestDescriptor.primed,
    List.nodup_map_iff primed_injective]
  simp only [List.forall_mem_map]
  tauto

/-- The strings isl reads are those with readable words and expressions. -/
theorem getDependencies_isSome_iff (hwf : nest.WellFormed F) :
    (getDependencies true F nest).isSome ↔ stringsReadable F nest := by
  rw [getDependencies_isSome hwf]
  have hwords := tupleItems_word_isSome [] nest.identifiers
  cases htuple : tupleItems wordElem [] nest.identifiers with
  | none =>
      rw [htuple] at hwords
      simp [domainBody, htuple, stringsReadable, ← hwords]
  | some scope =>
      obtain ⟨elems, vars⟩ := scope
      rw [htuple, Option.isSome_some] at hwords
      have hempty : HasWords [] [] := by
        intro word
        rw [Bool.eq_iff_iff, wordPos_isSome]
        simp
      have hscope : HasWords vars nest.identifiers :=
        (hempty.tupleItems htuple).congr (by simp)
      have hdomain : (domainBody F nest).isSome =
          nest.loops.all fun loop => readableIn F nest.identifiers loop.bounds.upper := by
        have hbody : (domainBody F nest).isSome =
            (conjoin (domainCond F vars) nest.loops).isSome := by
          simp [domainBody, htuple]
        rw [hbody, conjoin_isSome, Bool.eq_iff_iff, List.all_eq_true, List.all_eq_true]
        refine forall₂_congr fun loop hloop => ?_
        rw [← hscope.exprReadable, ← exprAff_isSome]
        have hlower : (exprAff F vars loop.bounds.lower).isSome := by
          rw [exprAff_isSome]
          simp [exprReadable, hwf.lower_constant loop hloop]
        have hiv := (tupleItems_word_vars [] htuple).2 _ (List.mem_map_of_mem hloop)
        obtain ⟨lower, hlower⟩ := Option.isSome_iff_exists.mp hlower
        obtain ⟨iv, hiv⟩ := Option.isSome_iff_exists.mp hiv
        simp [domainCond, hlower, hiv]
      have haccess : ∀ access, (accessBody F nest access).isSome =
          subscriptsReadable F nest.identifiers access.subscripts := by
        intro access
        rw [← subscriptsReadable_printed, ← hscope.subscripts]
        simp [accessBody, htuple]
      simp [stringsReadable, ← hwords, hdomain, haccess]

theorem namesApart_iff : NamesApart F nest ↔ (nest.identifiers.Nodup ∧
    ∀ word ∈ nest.identifiers, ∀ word' ∈ nest.identifiers, word ≠ word' ++ "_p") ∧
      ForeignApart F nest := by
  rw [← identifiers_primed_nodup_iff]
  exact ⟨fun h => ⟨h.nodup, h.foreign⟩, fun h => ⟨h.1, h.2⟩⟩

end Names

/-- Names stay apart, or the nest is skipped, exactly when sanitizing keeps the
induction variables apart from each other, from the suffixed ones and from the
other symbols, or when some word or expression is not readable anyway. -/
theorem namesApart_or_skipped_iff (F : Function) (nest : LoopNestDescriptor)
    (hwf : nest.WellFormed F) :
    NamesApart F nest ∨ getDependencies true F nest = none ↔
      ((nest.identifiers.Nodup ∧
        ∀ word ∈ nest.identifiers, ∀ word' ∈ nest.identifiers, word ≠ word' ++ "_p") ∧
          ForeignApart F nest) ∨ stringsReadable F nest = false := by
  have hskipped : getDependencies true F nest = none ↔ stringsReadable F nest = false := by
    rw [← Option.not_isSome_iff_eq_none, getDependencies_isSome_iff hwf, Bool.not_eq_true]
  rw [namesApart_iff, hskipped]

theorem exampleNest_namesApart : 
    NamesApart exampleFunction exampleNest ∨
      getDependencies true exampleFunction exampleNest = none ↔
      ((exampleNest.identifiers.Nodup ∧ ∀ word ∈ exampleNest.identifiers,
        ∀ word' ∈ exampleNest.identifiers, word ≠ word' ++ "_p") ∧
          ForeignApart exampleFunction exampleNest) ∨
        stringsReadable exampleFunction exampleNest = false :=
  namesApart_or_skipped_iff exampleFunction exampleNest exampleNest_box.toWellFormed

/-- Two induction variables whose names differ in a character that is no letter
or digit. -/
def mergedFunction : Function :=
  { exampleFunction with name := fun value => [(1, "i.0"), (2, "i_0"), (3, "A")].lookup value }

def mergedNest : LoopNestDescriptor :=
  { exampleNest with loops := [exampleLoop 1 "i.0" 8, exampleLoop 2 "i_0" 8] }

/-- The names of two induction variables merge in a nest that isl reads. -/
theorem not_namesApart_or_skipped :
    ¬ ∀ (F : Function) (nest : LoopNestDescriptor), nest.WellFormed F →
      (nest.loops.map LoopDescriptor.induction).Nodup →
      NamesApart F nest ∨ getDependencies true F nest = none := by
  intro hall
  have hwf : mergedNest.WellFormed mergedFunction :=
    { depth_ge := by decide
      inductionName := by decide
      lower_constant := by decide
      upper_hasSymbols := by decide
      subscript_hasSymbols := by decide }
  have hreadable : (getDependencies true mergedFunction mergedNest).isSome := by
    rw [getDependencies_isSome_iff hwf]
    decide
  rcases hall mergedFunction mergedNest hwf (by decide) with hapart | hskipped
  · exact absurd hapart.nodup (by decide)
  · rw [hskipped] at hreadable
    exact absurd hreadable (by decide)

end PolyhedralPass
