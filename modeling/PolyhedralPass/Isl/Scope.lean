/-
What the reader of isl accepts is well scoped: an expression refers to earlier positions of
the tuples only.  Each function takes tokens from the front of the stream, and leaves the
rest of it as it was.
-/
import PolyhedralPass.Isl.Input
import PolyhedralPass.Parsing

namespace PolyhedralPass.Isl

open Parsing

section Scopes

/-- The expression refers to such positions only. -/
def Aff.Over (P : Nat → Prop) : Aff → Prop
  | cst _ => True
  | var pos => P pos
  | add lhs rhs => lhs.Over P ∧ rhs.Over P
  | sub lhs rhs => lhs.Over P ∧ rhs.Over P
  | scale _ expr => expr.Over P
  | nan => True

def Formula.Over (P : Nat → Prop) : Formula → Prop
  | tt => True
  | ff => True
  | cmp _ lhs rhs => lhs.Over P ∧ rhs.Over P
  | and lhs rhs => lhs.Over P ∧ rhs.Over P
  | or lhs rhs => lhs.Over P ∧ rhs.Over P
  | not arg => arg.Over P

/-- What has been pushed back refers to such positions only. -/
def Token.Over (P : Nat → Prop) : Token → Prop
  | aff expr => Aff.Over P expr
  | map cond => Formula.Over P cond
  | _ => True

/-- Each position of a tuple is equated with an expression over the positions before it. -/
def Tuple.Scoped (tuple : Tuple) (first : Nat) : Prop :=
  ∀ i (expr : Aff), tuple.elems[i]? = some (some expr) → expr.Over (· < first + i)

def Body.Scoped : Body → Prop
  | set tuple cond => tuple.Scoped 0 ∧ cond.Over (· < tuple.elems.length)
  | map dom ran cond => dom.Scoped 0 ∧ ran.Scoped dom.elems.length ∧
      cond.Over (· < dom.elems.length + ran.elems.length)

/-- A position that holds a name. -/
def Named (vars : Vars) (pos : Nat) : Prop := ∃ name, vars[pos]? = some (some name)

variable {P Q : Nat → Prop}

theorem Aff.Over.mono {expr : Aff} (h : expr.Over P) (hPQ : ∀ pos, P pos → Q pos) :
    expr.Over Q := by
  induction expr with
  | cst n => trivial
  | var pos => exact hPQ pos h
  | add lhs rhs ihl ihr => exact ⟨ihl h.1, ihr h.2⟩
  | sub lhs rhs ihl ihr => exact ⟨ihl h.1, ihr h.2⟩
  | scale factor expr ih => exact ih h
  | nan => trivial

theorem Formula.Over.mono {cond : Formula} (h : cond.Over P) (hPQ : ∀ pos, P pos → Q pos) :
    cond.Over Q := by
  induction cond with
  | tt => trivial
  | ff => trivial
  | cmp op lhs rhs => exact ⟨h.1.mono hPQ, h.2.mono hPQ⟩
  | and lhs rhs ihl ihr => exact ⟨ihl h.1, ihr h.2⟩
  | or lhs rhs ihl ihr => exact ⟨ihl h.1, ihr h.2⟩
  | not arg ih => exact ih h

theorem Named.lt {vars : Vars} {pos : Nat} (h : Named vars pos) : pos < vars.length := by
  obtain ⟨_, hname⟩ := h
  exact (List.getElem?_eq_some_iff.mp hname).1

/-- The position a tuple is reading has no name yet. -/
theorem Named.of_append_none {vars : Vars} {pos : Nat} (h : Named (vars ++ [none]) pos) :
    pos < vars.length := by
  obtain ⟨name, hname⟩ := h
  have hlt : pos < vars.length + 1 := by simpa using Named.lt ⟨name, hname⟩
  rcases Nat.lt_succ_iff_lt_or_eq.mp hlt with hlt | rfl
  · exact hlt
  · simp at hname

theorem named_of_varsPos {vars : Vars} {name : String} {pos : Nat}
    (h : varsPos vars name = some pos) : Named vars pos := by
  obtain ⟨hlt, hname, _⟩ := List.findIdx?_eq_some_iff_getElem.mp h
  exact ⟨name, by rw [List.getElem?_eq_getElem hlt, beq_iff_eq.mp hname]⟩

end Scopes

section Affine

variable {P : Nat → Prop} {vars : Vars} {s : Stream}

/-- The names in scope, and all that has been pushed back, refer to such positions only. -/
structure Known (vars : Vars) (P : Nat → Prop) (s : Stream) : Prop where
  names : ∀ pos, Named vars pos → P pos
  pushed : ∀ tok ∈ s, tok.Over P

theorem Known.of_suffix {s' : Stream} (h : Known vars P s) (hs : s' <:+ s) : Known vars P s' :=
  ⟨h.names, fun tok htok => h.pushed tok (hs.subset htok)⟩

theorem Known.tail {tok : Token} (h : Known vars P (tok :: s)) : Known vars P s :=
  h.of_suffix (List.suffix_cons tok s)

theorem Known.cons {tok : Token} (h : Known vars P s) (htok : tok.Over P) :
    Known vars P (tok :: s) := by
  refine ⟨h.names, fun tok' htok' => ?_⟩
  rcases List.mem_cons.mp htok' with rfl | hmem
  · exact htok
  · exact h.pushed tok' hmem

/-- What is read from a stream refers to such positions only, and at least one token is
taken for it. -/
def Takes {α : Type} (scope : (Nat → Prop) → α → Prop) (P : Nat → Prop) (s : Stream)
    (result : Option (α × Stream)) : Prop :=
  Ensures (fun out => scope P out.1 ∧ Behind s out.2) result

theorem acceptCstFactor_behind (f : Int) (s : Stream) :
    Ensures (fun out => Behind s out.2) (acceptCstFactor f s) := by
  fun_induction acceptCstFactor f s with
  | case1 f n s ih => exact ih.mono fun out h => behind_cons (h.suffix.trans ⟨[_, _], rfl⟩)
  | case2 f n s _ => exact ensures_some.mpr (behind_cons (List.suffix_cons _ _))
  | case3 f n s ih => exact ih.mono fun out h => behind_cons (h.suffix.trans ⟨[_], rfl⟩)
  | case4 f n s _ => exact ensures_some.mpr (behind_cons List.suffix_rfl)
  | case5 => exact ensures_none

theorem factorTail_over {res : Aff} (hres : res.Over P) (s : Stream) :
    Ensures (fun out => out.1.Over P ∧ out.2 <:+ s) (factorTail res s) := by
  fun_cases factorTail res s with
  | case1 s =>
      refine (acceptCstFactor_behind 1 s).map fun out h => ⟨hres, ?_⟩
      exact h.suffix.trans (List.suffix_cons _ _)
  | case2 => exact ensures_none
  | case3 => exact ensures_none
  | case4 => exact ensures_none
  | case5 => exact ensures_some.mpr ⟨hres, List.suffix_rfl⟩

theorem acceptAffineFactor_takes (vars : Vars) (s : Stream) (hs : Known vars P s) :
    Takes Aff.Over P s (acceptAffineFactor vars s) := by
  have htail : ∀ {res : Aff} {tok : Token} {rest : Stream}, res.Over P →
      Takes Aff.Over P (tok :: rest) (factorTail res rest) := by
    intro res tok rest hres
    exact (factorTail_over hres rest).mono fun out h => ⟨h.1, behind_cons h.2⟩
  have hscaled : ∀ {n : Int} {tok : Token} {rest rest' : Stream}, rest <:+ rest' →
      Takes Aff.Over P rest (acceptAffineFactor vars rest) →
        Takes Aff.Over P (tok :: rest')
          ((acceptAffineFactor vars rest).bind fun out =>
            factorTail (.scale n out.1) out.2) := by
    intro n tok rest rest' hsuffix htakes
    refine htakes.bind fun out hout => ?_
    refine (@factorTail_over P (.scale n out.1) hout.1 out.2).mono fun out' h => ?_
    exact ⟨h.1, behind_cons (h.2.trans (hout.2.suffix.trans hsuffix))⟩
  fun_induction acceptAffineFactor vars s with
  | case1 expr s => exact htail (hs.pushed _ List.mem_cons_self)
  | case2 name s =>
      intro out h
      obtain ⟨pos, hpos, h⟩ := Option.bind_eq_some_iff.mp h
      exact @htail (.var pos) _ _ (hs.names pos (named_of_varsPos hpos)) out h
  | case3 n s ih => exact hscaled ⟨[_, _], rfl⟩ (ih hs.tail.tail.tail)
  | case4 n s _ ih => exact hscaled ⟨[_], rfl⟩ (ih hs.tail.tail)
  | case5 n name s ih => exact hscaled List.suffix_rfl (ih hs.tail)
  | case6 n s => exact htail trivial
  | case7 => exact ensures_none

theorem affineNext_over {loop : Aff → Bool → Stream → Option (Aff × Stream)} {res : Aff}
    (hres : res.Over P) (s : Stream)
    (hloop : ∀ negOp s', Behind s s' → Takes Aff.Over P s' (loop res negOp s')) :
    Ensures (fun out => out.1.Over P ∧ out.2 <:+ s) (affineNext loop res s) := by
  fun_cases affineNext loop res s with
  | case1 s =>
      refine (hloop true s (behind_cons List.suffix_rfl)).mono fun out h => ⟨h.1, ?_⟩
      exact h.2.suffix.trans (List.suffix_cons _ _)
  | case2 s =>
      refine (hloop false s (behind_cons List.suffix_rfl)).mono fun out h => ⟨h.1, ?_⟩
      exact h.2.suffix.trans (List.suffix_cons _ _)
  | case3 => exact ensures_some.mpr ⟨hres, List.suffix_rfl⟩

theorem affineLoop_takes (fuel : Nat) {res : Aff} (hres : res.Over P)
    (negOp negSign : Bool) (hs : Known vars P s) :
    Takes Aff.Over P s (affineLoop vars fuel res negOp negSign s) := by
  induction fuel generalizing res negOp negSign s with
  | zero => exact ensures_none
  | succ fuel ih =>
      cases s with
      | nil => exact ensures_none
      | cons tok rest =>
          -- a term, and what the loop goes on with behind it
          have hnext : ∀ {res' : Aff} {s' : Stream}, res'.Over P →
              Behind (tok :: rest) s' → Takes Aff.Over P (tok :: rest)
                (affineNext (fun res negOp s => affineLoop vars fuel res negOp false s) res'
                  s') := by
            intro res' s' hres' hbehind
            refine (affineNext_over hres' s' fun negOp s'' hs'' => ?_).mono fun out h =>
              ⟨h.1, hbehind.trans_suffix h.2⟩
            exact ih hres' negOp false (hs.of_suffix (hs''.suffix.trans hbehind.suffix))
          -- a term that is read from a token in the place of the first one
          have hterm : ∀ {tok' : Token} {join : Aff → Aff}, tok'.Over P →
              (∀ term : Aff, term.Over P → (join term).Over P) →
              Takes Aff.Over P (tok :: rest)
                ((acceptAffineFactor vars (tok' :: rest)).bind fun out =>
                  affineNext (fun res negOp s => affineLoop vars fuel res negOp false s)
                    (join out.1) out.2) := by
            intro tok' join htok' hjoin
            refine (acceptAffineFactor_takes vars _ (hs.tail.cons htok')).bind fun out h => ?_
            exact hnext (hjoin out.1 h.1) (behind_cons h.2.suffix_of_cons)
          unfold affineLoop
          split
          · exact (ih hres negOp (!negSign) hs.tail).mono fun out h =>
              ⟨h.1, behind_cons h.2.suffix⟩
          · exact hnext ⟨hres, trivial⟩ (behind_cons List.suffix_rfl)
          · refine @hterm (.value _) (fun term => if negOp then .sub res term else .add res term)
              trivial fun term hterm => ?_
            split <;> exact ⟨hres, hterm⟩
          · refine @hterm tok
              (fun term => if negOp != negSign then .sub res term else .add res term)
              (hs.pushed tok List.mem_cons_self) fun term hterm => ?_
            split <;> exact ⟨hres, hterm⟩

theorem acceptAffine_takes (hs : Known vars P s) :
    Takes Aff.Over P s (acceptAffine vars s) :=
  @affineLoop_takes P vars s _ (.cst 0) trivial false false hs

end Affine

section Formulas

variable {P : Nat → Prop} {eqEq : Bool} {vars : Vars} {s : Stream} {readFormula : FormulaReader}

theorem constraintChain_takes (fuel : Nat) {lhs : Aff} (hlhs : lhs.Over P)
    (op : Comparator) (hs : Known vars P s) :
    Takes Formula.Over P s (constraintChain eqEq vars fuel lhs op s) := by
  induction fuel generalizing lhs op s with
  | zero => exact ensures_none
  | succ fuel ih =>
      rw [constraintChain]
      refine (acceptAffine_takes hs).bind ?_
      rintro ⟨rhs, rest⟩ ⟨hrhs, hrest⟩
      cases rest with
      | nil => exact ensures_none
      | cons tok rest =>
          simp only
          cases comparator? eqEq tok with
          | none => exact ensures_some.mpr ⟨⟨hlhs, hrhs⟩, hrest⟩
          | some op' =>
              have hsuffix := (List.suffix_cons tok rest).trans hrest.suffix
              refine (ih hrhs op' (hs.of_suffix hsuffix)).map fun out h => ?_
              exact ⟨⟨⟨hlhs, hrhs⟩, h.1⟩, Behind.of_suffix hsuffix h.2⟩

theorem addConstraint_takes (hs : Known vars P s) :
    Takes Formula.Over P s (addConstraint eqEq vars s) := by
  refine (acceptAffine_takes hs).bind ?_
  rintro ⟨lhs, rest⟩ ⟨hlhs, hrest⟩
  cases rest with
  | nil => exact ensures_none
  | cons tok rest =>
      have hsuffix := (List.suffix_cons tok rest).trans hrest.suffix
      intro out h
      obtain ⟨op, _, h⟩ := Option.bind_eq_some_iff.mp h
      obtain ⟨hover, hbehind⟩ := constraintChain_takes _ hlhs op (hs.of_suffix hsuffix) out h
      exact ⟨hover, Behind.of_suffix hsuffix hbehind⟩

theorem eat_eq_some {c : Char} {rest : Stream} (h : eat c s = some rest) : s = .char c :: rest := by
  fun_cases eat c s with
  | case1 =>
      rw [eat, if_pos rfl] at h
      rw [Option.some.inj h]
  | case2 c' s hne =>
      rw [eat, if_neg hne] at h
      cases h
  | case3 s hchar =>
      rw [eat] at h
      · cases h
      · exact hchar

/-- A reader of conditions over the names, which may take no token. -/
def Parses (vars : Vars) (P : Nat → Prop) (read : FormulaReader) : Prop :=
  ∀ s, Known vars P s → Ensures (fun out => out.1.Over P ∧ out.2 <:+ s) (read s)

/-- A pushed back token stands in front of what is left. -/
theorem resolveParenExpr_ensures (hread : Parses vars P readFormula) (hs : Known vars P s) :
    Ensures (fun s' => ∃ tok rest, s' = tok :: rest ∧ tok.Over P ∧ rest <:+ s)
      (resolveParenExpr readFormula vars s) := by
  have hclose : ∀ {s₁ s₂ : Stream}, s₁ <:+ s → eat ')' s₁ = some s₂ → s₂ <:+ s := by
    intro s₁ s₂ hsuffix heat
    rw [eat_eq_some heat] at hsuffix
    exact (List.suffix_cons _ _).trans hsuffix
  unfold resolveParenExpr
  split
  · refine (hread s hs).bind ?_
    rintro ⟨cond, s₁⟩ ⟨hcond, hs₁⟩ s' h
    obtain ⟨s₂, heat, rfl⟩ := Option.map_eq_some_iff.mp h
    exact ⟨.map cond, s₂, rfl, hcond, hclose hs₁ heat⟩
  · refine (acceptAffine_takes hs).bind ?_
    rintro ⟨expr, s₁⟩ ⟨hexpr, hs₁⟩
    simp only
    split
    · exact ensures_some.mpr ⟨.aff expr, _, rfl, hexpr, (List.suffix_cons _ _).trans hs₁.suffix⟩
    · have hknown : Known vars P (.aff expr :: s₁) := (hs.of_suffix hs₁.suffix).cons hexpr
      refine (hread _ hknown).bind ?_
      rintro ⟨cond, s₂⟩ ⟨hcond, hs₂⟩ s' h
      obtain ⟨s₃, heat, rfl⟩ := Option.map_eq_some_iff.mp h
      refine ⟨.map cond, s₃, rfl, hcond, ?_⟩
      -- the parenthesis that is closed is not the expression that was pushed back
      rcases List.suffix_cons_iff.mp hs₂ with heq | hs₂
      · rw [eat_eq_some heat] at heq
        cases heq
      · exact hclose (hs₂.trans hs₁.suffix) heat

theorem readSimpleConjunct_takes (hs : Known vars P s) :
    Takes Formula.Over P s (readSimpleConjunct eqEq vars s) := by
  fun_cases readSimpleConjunct eqEq vars s with
  | case1 cond s =>
      exact ensures_some.mpr ⟨hs.pushed _ List.mem_cons_self, behind_cons List.suffix_rfl⟩
  | case2 => exact ensures_none
  | case3 => exact ensures_some.mpr ⟨trivial, behind_cons List.suffix_rfl⟩
  | case4 => exact ensures_some.mpr ⟨trivial, behind_cons List.suffix_rfl⟩
  | case5 => exact addConstraint_takes hs

theorem readConjunct_takes (hread : Parses vars P readFormula) (hs : Known vars P s) :
    Takes Formula.Over P s (readConjunct eqEq readFormula vars s) := by
  fun_cases readConjunct eqEq readFormula vars s with
  | case1 s =>
      refine (resolveParenExpr_ensures hread hs.tail).bind ?_
      rintro _ ⟨tok, rest, rfl, htok, hrest⟩
      refine (readSimpleConjunct_takes ((hs.tail.of_suffix hrest).cons htok)).mono ?_
      exact fun out h => ⟨h.1, behind_cons (h.2.suffix_of_cons.trans hrest)⟩
  | case2 => exact readSimpleConjunct_takes hs

theorem readNegatedConjunct_takes (hread : Parses vars P readFormula) (hs : Known vars P s) :
    Takes Formula.Over P s (readNegatedConjunct eqEq readFormula vars s) := by
  fun_cases readNegatedConjunct eqEq readFormula vars s with
  | case1 s =>
      refine (readConjunct_takes hread hs.tail).map fun out h => ⟨h.1, behind_cons h.2.suffix⟩
  | case2 => exact readConjunct_takes hread hs

theorem readConjuncts_takes (hread : Parses vars P readFormula) (fuel : Nat) (hs : Known vars P s) :
    Takes Formula.Over P s (readConjuncts eqEq readFormula vars fuel s) := by
  induction fuel generalizing s with
  | zero => exact ensures_none
  | succ fuel ih =>
      rw [readConjuncts]
      refine (readNegatedConjunct_takes hread hs).bind ?_
      rintro ⟨cond, rest⟩ ⟨hcond, hrest⟩
      simp only
      split
      · have hsuffix := (List.suffix_cons _ _).trans hrest.suffix
        refine (ih (hs.of_suffix hsuffix)).map fun out h => ?_
        exact ⟨⟨hcond, h.1⟩, Behind.of_suffix hsuffix h.2⟩
      · exact ensures_some.mpr ⟨hcond, hrest⟩

theorem readDisjunctsLoop_takes (hread : Parses vars P readFormula) (fuel : Nat)
    (hs : Known vars P s) :
    Takes Formula.Over P s (readDisjunctsLoop eqEq readFormula vars fuel s) := by
  induction fuel generalizing s with
  | zero => exact ensures_none
  | succ fuel ih =>
      rw [readDisjunctsLoop]
      refine (readConjuncts_takes hread _ hs).bind ?_
      rintro ⟨cond, rest⟩ ⟨hcond, hrest⟩
      simp only
      split
      · have hsuffix := (List.suffix_cons _ _).trans hrest.suffix
        refine (ih (hs.of_suffix hsuffix)).map fun out h => ?_
        exact ⟨⟨hcond, h.1⟩, Behind.of_suffix hsuffix h.2⟩
      · exact ensures_some.mpr ⟨hcond, hrest⟩

theorem readDisjuncts_parses (hread : Parses vars P readFormula) :
    Parses vars P (readDisjuncts eqEq readFormula vars) := by
  intro s hs
  fun_cases readDisjuncts eqEq readFormula vars s with
  | case1 => exact ensures_some.mpr ⟨trivial, List.suffix_rfl⟩
  | case2 => exact (readDisjunctsLoop_takes hread _ hs).mono fun out h => ⟨h.1, h.2.suffix⟩

theorem readFormula_parses (depth : Nat) : Parses vars P (Isl.readFormula eqEq vars depth) := by
  induction depth with
  | zero => exact fun _ _ => ensures_none
  | succ depth ih =>
      intro s hs
      rw [Isl.readFormula]
      refine (readDisjuncts_parses ih s hs).bind ?_
      rintro ⟨cond, rest⟩ ⟨hcond, hrest⟩
      simp only
      split
      · have hsuffix := (List.suffix_cons _ _).trans hrest
        refine (readDisjuncts_parses ih _ (hs.of_suffix hsuffix)).map fun out h => ?_
        exact ⟨⟨hcond, h.1⟩, h.2.trans hsuffix⟩
      · exact ensures_some.mpr ⟨hcond, hrest⟩

theorem readOptionalFormula_parses : Parses vars P (readOptionalFormula eqEq vars) := by
  intro s hs
  fun_cases readOptionalFormula eqEq vars s with
  | case1 => exact ensures_none
  | case2 s =>
      refine (readFormula_parses _ s hs.tail).mono fun out h => ⟨h.1, ?_⟩
      exact h.2.trans (List.suffix_cons _ _)
  | case3 => exact ensures_some.mpr ⟨trivial, List.suffix_rfl⟩

end Formulas

section Tuples

variable {eqEq : Bool} {vars : Vars} {s : Stream}

/-- Nothing has been pushed back that refers to a position. -/
def Raw (s : Stream) : Prop := ∀ tok ∈ s, ∀ P : Nat → Prop, tok.Over P

theorem Raw.of_suffix {s' : Stream} (h : Raw s) (hs : s' <:+ s) : Raw s' :=
  fun tok htok => h tok (hs.subset htok)

theorem Raw.tail {tok : Token} (h : Raw (tok :: s)) : Raw s := h.of_suffix (List.suffix_cons tok s)

theorem Raw.known (h : Raw s) (vars : Vars) : Known vars (Named vars) s :=
  ⟨fun _ hpos => hpos, fun tok htok => h tok htok _⟩

/-- A position of a tuple: it is new, and equated with an expression over those before it. -/
structure ReadsElem (vars : Vars) (s : Stream) (out : Option Aff × Vars × Stream) : Prop where
  position : ∃ entry, out.2.1 = vars ++ [entry]
  refers : ∀ expr : Aff, out.1 = some expr → expr.Over (· < vars.length)
  behind : Behind s out.2.2

theorem readTupleVarDef_reads (hs : Raw s) :
    Ensures (ReadsElem vars s) (readTupleVarDef eqEq vars s) := by
  refine (acceptAffine_takes (hs.known (vars ++ [none]))).bind ?_
  rintro ⟨expr, rest⟩ ⟨hover, hrest⟩
  have hread : ReadsElem vars s (some expr, vars ++ [none], rest) := by
    refine ⟨⟨none, rfl⟩, ?_, hrest⟩
    rintro _ ⟨⟩
    exact hover.mono fun pos hpos => hpos.of_append_none
  simp only
  split
  · exact ensures_none
  · split
    · exact ensures_none
    · exact ensures_some.mpr hread
  · exact ensures_some.mpr hread

theorem readTupleEl_reads (hs : Raw s) :
    Ensures (ReadsElem vars s) (readTupleEl eqEq vars s) := by
  have hnew : ∀ {entry : Option String} {tok : Token} {rest : Stream},
      ReadsElem vars (tok :: rest) (none, vars ++ [entry], rest) :=
    ⟨⟨_, rfl⟩, fun _ h => (nomatch h), behind_cons List.suffix_rfl⟩
  fun_cases readTupleEl eqEq vars s with
  | case1 => exact ensures_none
  | case2 => exact readTupleVarDef_reads hs
  | case3 => exact ensures_none
  | case4 => exact ensures_some.mpr hnew
  | case5 => exact ensures_some.mpr hnew
  | case6 => exact readTupleVarDef_reads hs

/-- The positions of a tuple, one behind the other. -/
structure ReadsElems (vars : Vars) (elems : List (Option Aff)) (vars' : Vars) : Prop where
  length : vars'.length = vars.length + elems.length
  refers : ∀ i (expr : Aff), elems[i]? = some (some expr) → expr.Over (· < vars.length + i)

theorem ReadsElems.nil : ReadsElems vars [] vars := ⟨rfl, fun _ _ h => nomatch h⟩

theorem ReadsElem.cons {elem : Option Aff} {elems : List (Option Aff)} {vars₁ vars₂ : Vars}
    {rest : Stream} (hfirst : ReadsElem vars s (elem, vars₁, rest))
    (hrest : ReadsElems vars₁ elems vars₂) : ReadsElems vars (elem :: elems) vars₂ := by
  obtain ⟨⟨entry, rfl⟩, hscoped, _⟩ := hfirst
  have hlength := hrest.length
  have hafter := hrest.refers
  rw [List.length_append, List.length_singleton] at hlength hafter
  refine ⟨by rw [hlength, List.length_cons]; omega, ?_⟩
  intro i expr h
  cases i with
  | zero => exact hscoped expr (Option.some.inj h)
  | succ i => exact (hafter i expr h).mono fun pos hpos => by omega

theorem readTupleList_reads (fuel : Nat) (hs : Raw s) :
    Ensures (fun out => ReadsElems vars out.1 out.2.1 ∧ Behind s out.2.2)
      (readTupleList eqEq fuel vars s) := by
  induction fuel generalizing vars s with
  | zero => exact ensures_none
  | succ fuel ih =>
      rw [readTupleList]
      refine (readTupleEl_reads hs).bind ?_
      rintro ⟨elem, vars₁, rest⟩ hfirst
      have hbehind : Behind s rest := hfirst.behind
      simp only
      split
      · have hsuffix := (List.suffix_cons _ _).trans hbehind.suffix
        refine (ih (hs.of_suffix hsuffix)).map fun out h => ?_
        exact ⟨hfirst.cons h.1, Behind.of_suffix hsuffix h.2⟩
      · refine ensures_some.mpr ⟨hfirst.cons .nil, hbehind⟩

/-- A tuple behind the variables read so far. -/
def ReadsTuple (vars : Vars) (s : Stream) (out : Tuple × Vars × Stream) : Prop :=
  ReadsElems vars out.1.elems out.2.1 ∧ Behind s out.2.2

theorem readTupleBody_reads (name : String) (hs : Raw s) :
    Ensures (ReadsTuple vars s) (readTupleBody eqEq name vars s) := by
  fun_cases readTupleBody eqEq name vars s with
  | case1 => exact ensures_some.mpr ⟨.nil, behind_cons List.suffix_rfl⟩
  | case2 =>
      refine (readTupleList_reads _ hs).bind ?_
      rintro ⟨elems, vars', rest⟩ ⟨helems, hrest⟩ out h
      obtain ⟨rest', heat, rfl⟩ := Option.map_eq_some_iff.mp h
      rw [eat_eq_some heat] at hrest
      exact ⟨helems, hrest.trans_suffix (List.suffix_cons _ _)⟩

theorem readTuple_reads (hs : Raw s) :
    Ensures (ReadsTuple vars s) (readTuple eqEq vars s) := by
  have hbody : ∀ {name : String} {tok tok' : Token} {rest : Stream}, Raw (tok :: tok' :: rest) →
      Ensures (ReadsTuple vars (tok :: tok' :: rest)) (readTupleBody eqEq name vars rest) := by
    intro name tok tok' rest hs
    refine (readTupleBody_reads name hs.tail.tail).mono fun out h => ⟨h.1, ?_⟩
    exact behind_cons (h.2.suffix.trans (List.suffix_cons _ _))
  fun_cases readTuple eqEq vars s with
  | case1 => exact hbody hs
  | case2 => exact hbody hs
  | case3 => exact ensures_none

end Tuples

section Objects

variable {eqEq : Bool} {s : Stream}

theorem objReadBody_takes (hs : Raw s) :
    Ensures (fun out => out.1.Scoped ∧ Behind s out.2) (objReadBody eqEq s) := by
  -- a condition over the names is one over the positions
  have hcond : ∀ {vars : Vars} {cond : Formula} {n : Nat}, cond.Over (Named vars) →
      vars.length = n → cond.Over (· < n) := by
    rintro vars cond n hover rfl
    exact hover.mono fun pos hpos => hpos.lt
  refine (readTuple_reads hs).bind ?_
  rintro ⟨dom, vars, rest⟩ ⟨hdom, hrest⟩
  have hlength : vars.length = dom.elems.length := by simpa using hdom.length
  have hscoped : dom.Scoped 0 := hdom.refers
  simp only
  split
  · have hsuffix := (List.suffix_cons _ _).trans hrest.suffix
    refine (readTuple_reads (hs.of_suffix hsuffix)).bind ?_
    rintro ⟨ran, vars', rest'⟩ ⟨hran, hrest'⟩
    have hsuffix' := hrest'.suffix.trans hsuffix
    have hknown := (hs.of_suffix hsuffix').known vars'
    refine (readOptionalFormula_parses rest' hknown).map fun out h => ?_
    refine ⟨⟨hscoped, ?_, hcond h.1 ?_⟩, ?_⟩
    · rw [← hlength]
      exact hran.refers
    · rw [hran.length, hlength]
    · exact (Behind.of_suffix hsuffix hrest').trans_suffix h.2
  · have hknown := (hs.of_suffix hrest.suffix).known vars
    refine (readOptionalFormula_parses rest hknown).map fun out h => ?_
    exact ⟨⟨hscoped, hcond h.1 hlength⟩, hrest.trans_suffix h.2⟩

theorem objReadDisjunctsLoop_takes (fuel : Nat) (hs : Raw s) :
    Ensures (fun out => (∀ body ∈ out.1, body.Scoped) ∧ out.2 <:+ s)
      (objReadDisjunctsLoop eqEq fuel s) := by
  induction fuel generalizing s with
  | zero => exact ensures_none
  | succ fuel ih =>
      rw [objReadDisjunctsLoop]
      refine (objReadBody_takes hs).bind ?_
      rintro ⟨body, rest⟩ ⟨hbody, hrest⟩
      have hone : ∀ other ∈ [body], other.Scoped := by
        intro other hother
        rwa [List.mem_singleton.mp hother]
      simp only
      split
      · exact ensures_some.mpr ⟨hone, (List.suffix_cons _ _).trans hrest.suffix⟩
      · have hsuffix := (List.suffix_cons _ _).trans hrest.suffix
        refine (ih (hs.of_suffix hsuffix)).map fun out h => ⟨?_, h.2.trans hsuffix⟩
        intro other hother
        rcases List.mem_cons.mp hother with rfl | hother
        · exact hbody
        · exact h.1 other hother
      · exact ensures_some.mpr ⟨hone, hrest.suffix⟩

theorem objRead_ensures (hs : Raw s) :
    Ensures (fun bodies => ∀ body ∈ bodies, body.Scoped) (objRead eqEq s) := by
  fun_cases objRead eqEq s with
  | case1 s =>
      have hdisjuncts : Ensures (fun out => (∀ body ∈ out.1, body.Scoped) ∧ out.2 <:+ s)
          (objReadDisjuncts eqEq s) := by
        fun_cases objReadDisjuncts eqEq s with
        | case1 => exact ensures_some.mpr ⟨fun _ h => (nomatch h), List.suffix_rfl⟩
        | case2 => exact objReadDisjunctsLoop_takes _ hs.tail
      refine hdisjuncts.bind ?_
      rintro ⟨bodies, rest⟩ ⟨hbodies, _⟩ out h
      obtain ⟨_, _, rfl⟩ := Option.map_eq_some_iff.mp h
      exact hbodies
  | case2 => exact ensures_none

end Objects

section Texts

/-- The scanner pushes nothing back. -/
theorem nextToken_over {P : Nat → Prop} (input : List Char) :
    Ensures (fun out => out.1.Over P) (nextToken input) := by
  have hword : ∀ word, (wordToken word).Over P := by
    intro word
    unfold wordToken
    split <;> trivial
  fun_induction nextToken input with
  | case1 => exact ensures_none
  | case2 c cs _ ih => exact ih
  | case4 =>
      refine ensures_some.mpr ?_
      fun_cases minusToken <;> trivial
  | case6 => exact ensures_some.mpr (hword _)
  | case7 =>
      refine ensures_some.mpr ?_
      fun_cases equalToken <;> trivial
  | case8 =>
      refine ensures_some.mpr ?_
      fun_cases colonToken <;> trivial
  | case9 =>
      refine ensures_some.mpr ?_
      fun_cases greaterToken <;> trivial
  | case10 =>
      refine ensures_some.mpr ?_
      fun_cases lessToken <;> trivial
  | _ => exact ensures_some.mpr trivial

theorem raw_tokens (input : List Char) : Raw (tokens input) := by
  have hscan : ∀ fuel input, Raw (scan fuel input) := by
    intro fuel
    induction fuel with
    | zero => exact fun _ tok htok => absurd htok List.not_mem_nil
    | succ fuel ih =>
        intro input
        rw [scan]
        cases hnext : nextToken input with
        | none => exact fun tok htok => absurd htok List.not_mem_nil
        | some out =>
            intro tok htok P
            rcases List.mem_cons.mp htok with rfl | hmem
            · exact nextToken_over input out hnext
            · exact ih out.2 tok hmem P
  exact hscan _ input

/-- In a text that the productions of this reader accept, each expression refers to positions
in front of it: the condition to those of the tuples, and a position of a tuple to earlier
ones. -/
theorem objRead_scoped (eqEq : Bool) (str : String) (bodies : List Body)
    (h : objRead eqEq (tokens str.toList) = some bodies) : ∀ body ∈ bodies, body.Scoped :=
  objRead_ensures (raw_tokens str.toList) bodies h

/-- The second position of the range is equated with an expression over the first one and
the domain. -/
theorem objRead_scoped_range : (Body.map ⟨"S", [none]⟩
    ⟨"A", [none, some (.add (.add (.cst 0) (.var 1)) (.scale 2 (.var 0)))]⟩
    (.cmp .lt (.add (.cst 0) (.var 0)) (.add (.cst 0) (.var 1)))).Scoped :=
  objRead_scoped false "\x7b S[i] -> A[j, j + 2*i] : i < j \x7d" _ (by decide) _
    (List.mem_singleton_self _)

end Texts

end PolyhedralPass.Isl
