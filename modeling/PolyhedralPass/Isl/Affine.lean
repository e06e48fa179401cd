/-
Reading sums of terms.  The loop of `accept_affine` takes one token at a time;
the lemmas below follow it over a signed number, a signed multiple of a word and
the operator behind them, whatever amount of fuel is left.
-/
import Mathlib.Tactic.Ring
import PolyhedralPass.Isl.Input

namespace PolyhedralPass.Isl

/-- The loop of `accept_affine` gives `out`, with any fuel the stream needs. -/
def Reads (vars : Vars) (res : Aff) (negOp negSign : Bool) (s : Stream)
    (out : Option (Aff × Stream)) : Prop :=
  ∀ fuel, s.length < fuel → affineLoop vars fuel res negOp negSign s = out

/-- The loop of `accept_affine` gives `out` once a term has been added. -/
def Continues (vars : Vars) (res : Aff) : Stream → Option (Aff × Stream) → Prop
  | .char '-' :: s, out => Reads vars res true false s out
  | .char '+' :: s, out => Reads vars res false false s out
  | s, out => out = some (res, s)

/-- A token that does not go on with the factor in front of it. -/
def endsFactor : Token → Bool
  | .char '*' | .char '%' | .char '/' | .ident _ | .keyword .mod _ => false
  | _ => true

/-- A token that does not go on with the expression in front of it. -/
def endsSum : Token → Bool
  | .char '-' | .char '+' => false
  | tok => endsFactor tok

def EndsFactor (s : Stream) : Prop := ∀ tok ∈ s.head?, endsFactor tok

def EndsSum (s : Stream) : Prop := ∀ tok ∈ s.head?, endsSum tok

theorem endsSum_nil : EndsSum [] := by
  intro tok htok
  simp at htok

theorem EndsSum.endsFactor {s : Stream} (h : EndsSum s) : EndsFactor s := by
  intro tok htok
  have hsum := h tok htok
  unfold endsSum at hsum
  split at hsum
  · exact absurd hsum (by decide)
  · exact absurd hsum (by decide)
  · exact hsum

theorem EndsSum.continues {s : Stream} (h : EndsSum s) (vars : Vars) (res : Aff) :
    Continues vars res s (some (res, s)) := by
  unfold Continues
  split
  · exact absurd (h _ rfl) (by decide)
  · exact absurd (h _ rfl) (by decide)
  · rfl

theorem EndsFactor.factorTail_eq {s : Stream} (h : EndsFactor s) (res : Aff) :
    factorTail res s = some (res, s) := by
  unfold factorTail
  split
  · exact absurd (h _ rfl) (by simp [Isl.endsFactor])
  · exact absurd (h _ rfl) (by simp [Isl.endsFactor])
  · exact absurd (h _ rfl) (by simp [Isl.endsFactor])
  · exact absurd (h _ rfl) (by simp [Isl.endsFactor])
  · rfl

theorem Continues.affineNext_eq {vars : Vars} {res : Aff} {s : Stream}
    {out : Option (Aff × Stream)} (h : Continues vars res s out) {fuel : Nat}
    (hfuel : s.length ≤ fuel) :
    affineNext (fun res negOp s => affineLoop vars fuel res negOp false s) res s = out := by
  unfold Continues at h
  unfold affineNext
  split at h
  · exact h fuel (by simp only [List.length_cons] at hfuel; omega)
  · exact h fuel (by simp only [List.length_cons] at hfuel; omega)
  · split
    · simp_all
    · simp_all
    · exact h.symm

theorem reads_minus {vars : Vars} {res : Aff} {negOp negSign : Bool} {s : Stream}
    {out : Option (Aff × Stream)} (h : Reads vars res negOp (!negSign) s out) :
    Reads vars res negOp negSign (.char '-' :: s) out := by
  intro fuel hfuel
  cases fuel with
  | zero => simp at hfuel
  | succ fuel =>
      rw [affineLoop]
      exact h fuel (by simpa using hfuel)

/-- The sign a flag stands for. -/
def signOf (neg : Bool) : Int := if neg then -1 else 1

@[simp] theorem signOf_not (neg : Bool) : signOf (!neg) = -signOf neg := by
  cases neg <;> rfl

theorem signOf_bne (a b : Bool) : signOf (a != b) = signOf a * signOf b := by
  cases a <;> cases b <;> rfl

/-- What the loop adds to its result has `factor` times the value of `term`. -/
def Adds (res : Aff) (factor : Int) (value : List Int → Option Int) (res' : Aff) : Prop :=
  ∀ env, res'.eval env = (res.eval env).bind fun a => (value env).map fun b => a + factor * b

theorem adds_add_or_sub (res term : Aff) (neg : Bool) {factor : Int}
    {value : List Int → Option Int}
    (hterm : ∀ env, term.eval env = (value env).map (factor * ·)) :
    Adds res (signOf neg * factor) value (if neg then .sub res term else .add res term) := by
  intro env
  cases neg with
  | false => simp [Aff.eval, hterm, signOf, Function.comp_def]
  | true =>
      simp only [if_true, Aff.eval, hterm, signOf, Option.map_map]
      congr 1
      funext a
      cases value env with
      | none => rfl
      | some b => exact congrArg some (by simp only [Function.comp]; ring)

/-- The value of a word in scope. -/
def wordValue (pos : Nat) (env : List Int) : Option Int := env[pos]?

theorem acceptAffineFactor_ident {vars : Vars} {name : String} {pos : Nat} {s : Stream}
    (hpos : varsPos vars name = some pos) (hs : EndsFactor s) :
    acceptAffineFactor vars (.ident name :: s) = some (.var pos, s) := by
  rw [acceptAffineFactor, hpos, Option.bind_some, hs.factorTail_eq]

theorem acceptAffineFactor_scaled {vars : Vars} {n : Int} {name : String} {pos : Nat}
    {s : Stream} (hpos : varsPos vars name = some pos) (hs : EndsFactor s) :
    acceptAffineFactor vars (.value n :: .char '*' :: .ident name :: s) =
      some (.scale n (.var pos), s) := by
  rw [acceptAffineFactor, acceptAffineFactor_ident hpos hs]
  · exact hs.factorTail_eq _
  · simp

theorem acceptAffineFactor_value {vars : Vars} {n : Int} {s : Stream} (hs : EndsFactor s) :
    acceptAffineFactor vars (.value n :: s) = some (.cst n, s) := by
  rw [acceptAffineFactor]
  · exact hs.factorTail_eq _
  · rintro s' rfl
    exact absurd (hs _ rfl) (by simp [endsFactor])
  · rintro s' rfl
    exact absurd (hs _ rfl) (by simp [endsFactor])
  · rintro name s' rfl
    exact absurd (hs _ rfl) (by simp [endsFactor])

/-- A number is added with the sign in front of it. -/
theorem reads_value (vars : Vars) (res : Aff) (negOp negSign : Bool) (n : Int) :
    ∃ res', Adds res (signOf negOp * signOf negSign * n) (fun _ => some 1) res' ∧
      ∀ s, EndsFactor s → ∀ out, Continues vars res' s out →
        Reads vars res negOp negSign (.value n :: s) out := by
  refine ⟨if negOp then .sub res (.cst (if negSign then -n else n))
    else .add res (.cst (if negSign then -n else n)), ?_, ?_⟩
  · rw [mul_assoc]
    apply adds_add_or_sub
    intro env
    cases negSign <;> simp [Aff.eval, signOf]
  · intro s hs out hout fuel hfuel
    cases fuel with
    | zero => simp at hfuel
    | succ fuel =>
        rw [affineLoop, acceptAffineFactor_value hs]
        · exact hout.affineNext_eq (by simp only [List.length_cons] at hfuel; omega)

/-- A multiple of a word in scope. -/
theorem reads_scaled {vars : Vars} (res : Aff) (negOp negSign : Bool) (n : Int)
    {name : String} {pos : Nat} (hpos : varsPos vars name = some pos) :
    ∃ res', Adds res (signOf negOp * signOf negSign * n) (wordValue pos) res' ∧
      ∀ s, EndsFactor s → ∀ out, Continues vars res' s out →
        Reads vars res negOp negSign (.value n :: .char '*' :: .ident name :: s) out := by
  refine ⟨if negOp then .sub res (.scale (if negSign then -n else n) (.var pos))
    else .add res (.scale (if negSign then -n else n) (.var pos)), ?_, ?_⟩
  · rw [mul_assoc]
    apply adds_add_or_sub
    intro env
    cases negSign <;> simp [Aff.eval, signOf, wordValue]
  · intro s hs out hout fuel hfuel
    cases fuel with
    | zero => simp at hfuel
    | succ fuel =>
        rw [affineLoop, acceptAffineFactor_scaled hpos hs]
        exact hout.affineNext_eq (by simp only [List.length_cons] at hfuel; omega)

/-- A word in scope. -/
theorem reads_ident {vars : Vars} (res : Aff) (negOp negSign : Bool) {name : String}
    {pos : Nat} (hpos : varsPos vars name = some pos) :
    ∃ res', Adds res (signOf negOp * signOf negSign * 1) (wordValue pos) res' ∧
      ∀ s, EndsFactor s → ∀ out, Continues vars res' s out →
        Reads vars res negOp negSign (.ident name :: s) out := by
  refine ⟨if negOp != negSign then .sub res (.var pos) else .add res (.var pos), ?_, ?_⟩
  · rw [← signOf_bne]
    apply adds_add_or_sub
    intro env
    simp [Aff.eval, wordValue]
  · intro s hs out hout fuel hfuel
    cases fuel with
    | zero => simp at hfuel
    | succ fuel =>
        rw [affineLoop, acceptAffineFactor_ident hpos hs]
        · exact hout.affineNext_eq (by simp only [List.length_cons] at hfuel; omega)
        · simp
        · simp
        · simp

section Words

/-- The position of a word that is an identifier in scope. -/
def wordPos (vars : Vars) (word : String) : Option Nat :=
  match wordToken word with
  | .ident name => varsPos vars name
  | _ => none

def isNan (word : String) : Bool :=
  match wordToken word with
  | .keyword .nan _ => true
  | _ => false

/-- The value a word has in an expression. -/
def wordEval (vars : Vars) (word : String) (env : List Int) : Option Int :=
  (wordPos vars word).bind fun pos => wordValue pos env

/-- The factor in front of a word: a factor of one is not written. -/
def factorTokens (n : Int) : Stream := if n = 1 then [] else intTokens n ++ [.char '*']

/-- Whether isl takes the multiple of a word as a term: a word in scope, or a
NaN without a factor. -/
def multipleReadable (vars : Vars) (n : Int) (word : String) : Bool :=
  (wordPos vars word).isSome || (n == 1 && isNan word)

theorem wordToken_eq (word : String) :
    wordToken word = .ident word ∨ ∃ kw, wordToken word = .keyword kw word := by
  unfold wordToken
  cases checkKeywords word with
  | none => exact Or.inl rfl
  | some kw => exact Or.inr ⟨kw, rfl⟩

theorem wordToken_of_wordPos {vars : Vars} {word : String} {pos : Nat}
    (hpos : wordPos vars word = some pos) :
    wordToken word = .ident word ∧ varsPos vars word = some pos := by
  unfold wordPos at hpos
  rcases wordToken_eq word with hword | ⟨kw, hword⟩
  · rw [hword] at hpos
    exact ⟨hword, hpos⟩
  · rw [hword] at hpos
    exact absurd hpos (by simp)

theorem wordToken_of_isNan {word : String} (hnan : isNan word) :
    wordToken word = .keyword .nan word := by
  unfold isNan at hnan
  rcases wordToken_eq word with hword | ⟨kw, hword⟩
  · rw [hword] at hnan
    exact absurd hnan (by simp)
  · rw [hword] at hnan ⊢
    cases kw <;> simp_all

variable (vars : Vars) (res : Aff) (negOp negSign : Bool) (n : Int) {word : String} {s : Stream}

theorem signOf_natAbs (hneg : n < 0) :
    signOf negOp * signOf (!negSign) * (n.natAbs : Int) = signOf negOp * signOf negSign * n := by
  rw [signOf_not, Int.ofNat_natAbs_of_nonpos hneg.le]
  ring

/-- A printed number is added with the sign in front of it. -/
theorem reads_int :
    ∃ res', Adds res (signOf negOp * signOf negSign * n) (fun _ => some 1) res' ∧
      ∀ s, EndsFactor s → ∀ out, Continues vars res' s out →
        Reads vars res negOp negSign (intTokens n ++ s) out := by
  unfold intTokens
  by_cases hneg : n < 0
  · obtain ⟨res', hadds, hreads⟩ := reads_value vars res negOp (!negSign) n.natAbs
    rw [signOf_natAbs negOp negSign n hneg] at hadds
    rw [if_pos hneg]
    exact ⟨res', hadds, fun s hs out hout => reads_minus (hreads s hs out hout)⟩
  · rw [if_neg hneg]
    exact reads_value vars res negOp negSign n

theorem reads_nan (hnan : isNan word) :
    ∃ res', Adds res (signOf negOp * signOf negSign * 1) (fun _ => none) res' ∧
      ∀ s out, Continues vars res' s out →
        Reads vars res negOp negSign (wordToken word :: s) out := by
  refine ⟨.add res .nan, ?_, ?_⟩
  · intro env
    simp [Aff.eval]
  · intro s out hout fuel hfuel
    cases fuel with
    | zero => simp at hfuel
    | succ fuel =>
        rw [wordToken_of_isNan hnan, affineLoop]
        exact hout.affineNext_eq (by simp only [List.length_cons] at hfuel; omega)

/-- A term isl can read is added with the signs in front of it. -/
theorem reads_multiple (hreadable : multipleReadable vars n word) :
    ∃ res', Adds res (signOf negOp * signOf negSign * n) (wordEval vars word) res' ∧
      ∀ s, EndsFactor s → ∀ out, Continues vars res' s out →
        Reads vars res negOp negSign (factorTokens n ++ wordToken word :: s) out := by
  unfold multipleReadable at hreadable
  cases hpos : wordPos vars word with
  | some pos =>
      obtain ⟨htoken, hvars⟩ := wordToken_of_wordPos hpos
      have hvalue : wordEval vars word = wordValue pos := by
        funext env
        simp [wordEval, hpos]
      rw [hvalue, factorTokens, htoken]
      by_cases hone : n = 1
      · subst hone
        exact reads_ident res negOp negSign hvars
      · rw [if_neg hone]
        unfold intTokens
        by_cases hneg : n < 0
        · obtain ⟨res', hadds, hreads⟩ := reads_scaled res negOp (!negSign) n.natAbs hvars
          rw [signOf_natAbs negOp negSign n hneg] at hadds
          rw [if_pos hneg]
          exact ⟨res', hadds, fun s hs out hout => reads_minus (hreads s hs out hout)⟩
        · rw [if_neg hneg]
          exact reads_scaled res negOp negSign n hvars
  | none =>
      simp only [hpos, Option.isSome_none, Bool.false_or, Bool.and_eq_true, beq_iff_eq]
        at hreadable
      obtain ⟨rfl, hnan⟩ := hreadable
      have hvalue : wordEval vars word = fun _ => none := by
        funext env
        simp [wordEval, hpos]
      obtain ⟨res', hadds, hreads⟩ := reads_nan vars res negOp negSign hnan
      rw [hvalue]
      exact ⟨res', hadds, fun s _ out hout => hreads s out hout⟩

theorem acceptAffineFactor_wordToken_none (hpos : wordPos vars word = none) (s : Stream) :
    acceptAffineFactor vars (wordToken word :: s) = none := by
  unfold wordPos at hpos
  rcases wordToken_eq word with hword | ⟨kw, hword⟩
  · rw [hword] at hpos ⊢
    simp [acceptAffineFactor, hpos]
  · rw [hword]
    simp [acceptAffineFactor]

/-- A product of two words is not a factor. -/
theorem acceptAffineFactor_product_none {word' : String} (hword : wordToken word = .ident word)
    (s : Stream) :
    acceptAffineFactor vars (wordToken word :: .char '*' :: wordToken word' :: s) = none := by
  have hfactor : ∀ res, factorTail res (.char '*' :: wordToken word' :: s) = none := by
    intro res
    rcases wordToken_eq word' with hword' | ⟨kw, hword'⟩
    · simp [factorTail, hword', acceptCstFactor]
    · simp [factorTail, hword', acceptCstFactor]
  rw [hword, acceptAffineFactor]
  cases varsPos vars word with
  | none => rfl
  | some pos => exact hfactor (.var pos)

theorem affineLoop_wordToken (hnan : isNan word = false) (fuel : Nat) (s : Stream) :
    affineLoop vars (fuel + 1) res negOp negSign (wordToken word :: s) =
      (acceptAffineFactor vars (wordToken word :: s)).bind fun (term, s) =>
        affineNext (fun res negOp s => affineLoop vars fuel res negOp false s)
          (if negOp != negSign then .sub res term else .add res term) s := by
  unfold isNan at hnan
  rcases wordToken_eq word with hword | ⟨kw, hword⟩
  · rw [hword, affineLoop] <;> simp
  · have hkw : kw ≠ .nan := by
      rintro rfl
      simp [hword] at hnan
    rw [hword, affineLoop] <;> simp [hkw]

/-- A term whose last word is no factor is not read. -/
theorem reads_factor_none (hnan : n = 1 → isNan word = false)
    (hfactor : acceptAffineFactor vars (wordToken word :: s) = none) :
    Reads vars res negOp negSign (factorTokens n ++ wordToken word :: s) none := by
  have hvalue : ∀ (m : Int) (negSign : Bool), Reads vars res negOp negSign
      (.value m :: .char '*' :: wordToken word :: s) none := by
    intro m negSign fuel hfuel
    cases fuel with
    | zero => simp at hfuel
    | succ fuel =>
        rw [affineLoop, acceptAffineFactor, hfactor]
        · rfl
        · intro s' h
          rcases wordToken_eq word with hword | ⟨kw, hword⟩ <;> simp [hword] at h
  unfold factorTokens
  by_cases hone : n = 1
  · intro fuel hfuel
    rw [if_pos hone] at hfuel ⊢
    cases fuel with
    | zero => simp at hfuel
    | succ fuel =>
        rw [List.nil_append,
          affineLoop_wordToken vars res negOp negSign (hnan hone), hfactor]
        rfl
  · rw [if_neg hone]
    unfold intTokens
    by_cases hneg : n < 0
    · rw [if_pos hneg]
      exact reads_minus (hvalue n.natAbs (!negSign))
    · rw [if_neg hneg]
      exact hvalue n negSign

end Words

end PolyhedralPass.Isl
