/-
Which iterations the domain of a loop covers.  The domain has the values from
zero to the printed bound; which values the induction variable takes depends on
the predicate, on the side of the branch that stays in the loop and on where in
the loop the test is made.
-/
import PolyhedralPass.Analysis
import PolyhedralPass.Ssa
import PolyhedralPass.Flow.TestedLoop
import Mathlib.Data.List.Dedup

namespace PolyhedralPass

section Predicates

/-- The predicate that holds where the given one does not. -/
def Predicate.inverse : Predicate → Predicate
  | eq => ne
  | ne => eq
  | ugt => ule
  | uge => ult
  | ult => uge
  | ule => ugt
  | sgt => sle
  | sge => slt
  | slt => sge
  | sle => sgt

theorem Predicate.eval_inverse {w : Nat} (predicate : Predicate) (a b : BitVec w) :
    predicate.inverse.eval a b = !predicate.eval a b := by
  cases predicate <;>
    simp [Predicate.inverse, Predicate.eval, BitVec.ule_eq_not_ult, BitVec.sle_eq_not_slt, bne]

/-- The values a counter that is tested before every iteration can take stay
below the printed bound. -/
def headerCovers {w : Nat} (predicate : Predicate) (bound : BitVec w) : Prop :=
  let upper := (getSExtValue bound).toInt
  match predicate with
  | .slt => bound.toInt ≤ 0 ∨ bound.toInt ≤ upper
  | .ult | .ne => bound.toNat ≤ upper
  | .sle => bound.toInt < 0
  | .sgt => 0 ≤ bound.toInt
  | .sge => 0 < bound.toInt
  | .ule => False
  | .ugt => True
  | .uge | .eq => bound ≠ 0

/-- A counter that is tested behind its first iteration must stop there. -/
def laterCovers {w : Nat} (predicate : Predicate) (bound : BitVec w) : Prop :=
  0 < (getSExtValue bound).toInt ∧ predicate.eval 0 bound = false

end Predicates

section Counters

variable {w : Nat}

/-- The printed bound is no larger than a bound that is not negative. -/
theorem upper_le_toInt {bound : BitVec w} (h : 0 ≤ bound.toInt) :
    (getSExtValue bound).toInt ≤ bound.toInt := by
  rw [toInt_getSExtValue, Int.bmod_def]
  split_ifs <;> omega

theorem upper_lt (hw : 0 < w) (bound : BitVec w) :
    (getSExtValue bound).toInt < 2 ^ (w - 1) := by
  rw [toInt_getSExtValue]
  have hlt : bound.toInt < 2 ^ (w - 1) := bound.toInt_lt
  have hle : -2 ^ (w - 1) ≤ bound.toInt := bound.le_toInt
  by_cases h : w ≤ 64
  · have hpow : (2 : Int) ^ (w - 1) ≤ 2 ^ 63 := by
      apply pow_le_pow_right₀ (by decide)
      omega
    rw [Int.bmod_eq_of_le (by omega) (by omega)]
    exact hlt
  · have hpow : (2 : Int) ^ 63 ≤ 2 ^ (w - 1) := by
      apply pow_le_pow_right₀ (by decide)
      omega
    have hbmod : bound.toInt.bmod (2 ^ 64) < ((2 ^ 64 : Nat) + 1) / 2 := Int.bmod_lt (by decide)
    omega

theorem toInt_ofNat_of_lt (hw : 0 < w) {j : Nat} (hj : j < 2 ^ (w - 1)) :
    (BitVec.ofNat w j).toInt = j ∧ (BitVec.ofNat w j).toNat = j := by
  have hpow : 2 ^ w = 2 * 2 ^ (w - 1) := by
    rw [← pow_succ', Nat.sub_add_cancel hw]
  have hnat : (BitVec.ofNat w j).toNat = j := by
    rw [BitVec.toNat_ofNat, Nat.mod_eq_of_lt (by omega)]
  refine ⟨?_, hnat⟩
  rw [BitVec.toInt_eq_toNat_of_lt (by omega), hnat]

/-- How a small value of the counter compares with the bound. -/
def Predicate.compares (predicate : Predicate) (bound : BitVec w) (j : Nat) : Prop :=
  match predicate with
  | .eq => j = bound.toNat
  | .ne => j ≠ bound.toNat
  | .ugt => bound.toNat < j
  | .uge => bound.toNat ≤ j
  | .ult => j < bound.toNat
  | .ule => j ≤ bound.toNat
  | .sgt => bound.toInt < j
  | .sge => bound.toInt ≤ j
  | .slt => j < bound.toInt
  | .sle => j ≤ bound.toInt

theorem Predicate.eval_ofNat (hw : 0 < w) (predicate : Predicate) (bound : BitVec w) {j : Nat}
    (hj : j < 2 ^ (w - 1)) :
    predicate.eval (BitVec.ofNat w j) bound = true ↔ predicate.compares bound j := by
  obtain ⟨hint, hnat⟩ := toInt_ofNat_of_lt hw hj
  have heq : BitVec.ofNat w j = bound ↔ j = bound.toNat := by
    rw [← BitVec.toNat_inj, hnat]
  cases predicate <;>
    simp only [Predicate.eval, Predicate.compares, beq_iff_eq, bne_iff_ne, ne_eq, heq,
      BitVec.ult_iff_toNat_lt, BitVec.ule_iff_toNat_le, BitVec.slt_iff_toInt_lt,
      BitVec.sle_iff_toInt_le, hint, hnat]

/-- The first value above the domain, or zero where it is empty. -/
def firstOutside (bound : BitVec w) : Nat := (getSExtValue bound).toInt.toNat

theorem firstOutside_lt (hw : 0 < w) (bound : BitVec w) : firstOutside bound < 2 ^ (w - 1) := by
  have hupper := upper_lt hw bound
  have hpos : (0 : Int) < 2 ^ (w - 1) := by positivity
  simp only [firstOutside]
  zify
  omega

theorem toNat_of_toInt (hw : 0 < w) (bound : BitVec w) :
    (0 ≤ bound.toInt ∧ (bound.toNat : Int) = bound.toInt) ∨
      (bound.toInt < 0 ∧ 2 ^ (w - 1) ≤ bound.toNat) := by
  have hpow : 2 ^ w = 2 * 2 ^ (w - 1) := by
    rw [← pow_succ', Nat.sub_add_cancel hw]
  have htoInt := BitVec.toInt_eq_toNat_cond bound
  have hlt := bound.isLt
  split_ifs at htoInt <;> omega

theorem bound_eq_zero_iff (bound : BitVec w) : bound = 0 ↔ bound.toNat = 0 := by
  rw [← BitVec.toNat_inj]
  rfl

theorem getSExtValue_eq_zero {bound : BitVec w} (h : bound.toNat = 0) :
    (getSExtValue bound).toInt = 0 := by
  rw [(bound_eq_zero_iff bound).mpr h, getSExtValue_zero]
  rfl

/-- A counter tested before every iteration stays in the domain where a test
fails no later than at the first value above it. -/
theorem headerCovers_iff (hw : 0 < w) (predicate : Predicate) (bound : BitVec w) :
    headerCovers predicate bound ↔
      ∃ m ≤ firstOutside bound, ¬ predicate.compares bound m := by
  have hlt := firstOutside_lt hw bound
  have hupper : 0 ≤ bound.toInt → (getSExtValue bound).toInt ≤ bound.toInt := upper_le_toInt
  have hnat := toNat_of_toInt hw bound
  have hzero := bound_eq_zero_iff bound
  have hnull : bound.toNat = 0 → (getSExtValue bound).toInt = 0 := getSExtValue_eq_zero
  have hout : firstOutside bound = (getSExtValue bound).toInt.toNat := rfl
  constructor
  · intro hcovers
    cases predicate <;> simp only [headerCovers, Predicate.compares, ne_eq, hzero] at hcovers ⊢
    case eq => exact ⟨0, by omega, by omega⟩
    case ne => exact ⟨bound.toNat, by omega, by omega⟩
    case ugt => exact ⟨0, by omega, by omega⟩
    case uge => exact ⟨0, by omega, by omega⟩
    case ult => exact ⟨bound.toNat, by omega, by omega⟩
    case sgt => exact ⟨0, by omega, by omega⟩
    case sge => exact ⟨0, by omega, by omega⟩
    case slt => exact ⟨bound.toInt.toNat, by omega, by omega⟩
    case sle => exact ⟨0, by omega, by omega⟩
  · rintro ⟨m, hm, hfails⟩
    cases predicate <;> simp only [headerCovers, Predicate.compares, ne_eq, hzero] at hfails ⊢ <;>
      omega

theorem laterCovers_iff (hw : 0 < w) (predicate : Predicate) (bound : BitVec w) :
    laterCovers predicate bound ↔ 0 < (getSExtValue bound).toInt ∧
      ∃ m < firstOutside bound, ¬ predicate.compares bound m := by
  have hlt := firstOutside_lt hw bound
  have hupper : 0 ≤ bound.toInt → (getSExtValue bound).toInt ≤ bound.toInt := upper_le_toInt
  have hnat := toNat_of_toInt hw bound
  have hout : firstOutside bound = (getSExtValue bound).toInt.toNat := rfl
  have hfirst : predicate.eval 0 bound = false ↔ ¬ predicate.compares bound 0 := by
    rw [← Predicate.eval_ofNat hw predicate bound (by positivity), Bool.not_eq_true]
    rfl
  simp only [laterCovers, hfirst, and_congr_right_iff]
  intro hpos
  constructor
  · intro hfails
    exact ⟨0, by omega, hfails⟩
  · rintro ⟨m, hm, hfails⟩
    cases predicate <;> simp only [Predicate.compares] at hfails ⊢ <;> omega

end Counters

section Runs

open Relation Flow

variable (F : Function) (L : Loop) (loop : LoopDescriptor) {w : Nat}

/-- An edge that stays in the loop and does not go back to its header. -/
def Loop.InnerEdge (b c : BlockId) : Prop :=
  c ∈ F.successors b ∧ c ∈ L.blocks ∧ c ≠ L.header

/-- What LoopInfo guarantees of a natural loop. -/
structure Loop.Natural : Prop where
  header_mem : L.header ∈ L.blocks
  from_header : ∀ b ∈ L.blocks, ReflTransGen (L.InnerEdge F) L.header b
  to_latch : ∀ latch, L.loopLatch F = some latch →
    ∀ b ∈ L.blocks, ReflTransGen (L.InnerEdge F) b latch

/-- A constant at a known width. -/
def ConstInt.ofWidth (w : Nat) (c : ConstInt) : Option (BitVec w) :=
  if h : c.width = w then some (c.bits.cast h) else none

/-- The value the induction variable enters the loop with. -/
def LoopDescriptor.startIV (w : Nat) : Option (BitVec w) :=
  (F.constant loop.startValue).bind (ConstInt.ofWidth w)

/-- The value the induction variable takes over the back edge. -/
def LoopDescriptor.nextIV (iv : BitVec w) : Option (BitVec w) :=
  match F.inst? loop.nextValue with
  | some ⟨_, _, .add lhs rhs⟩ =>
      if lhs = loop.induction then
        ((F.constant rhs).bind (ConstInt.ofWidth w)).map (iv + ·)
      else none
  | _ => none

/-- The block the exiting branch goes to. -/
def LoopDescriptor.exitTarget (bound iv : BitVec w) (exiting : BlockId) : Option BlockId :=
  match F.terminator? exiting with
  | some ⟨_, _, .condBr _ ifTrue ifFalse⟩ =>
      some (if loop.predicate.eval iv bound then ifTrue else ifFalse)
  | _ => none

/-- One step of a run inside the loop.  The exiting block compares the induction
variable with the bound; the branches of other blocks may go either way. -/
inductive LoopStep (bound : BitVec w) : BlockId × BitVec w → BlockId × BitVec w → Prop
  | inner {b c : BlockId} {iv : BitVec w} (hedge : L.InnerEdge F b c)
      (htest : L.exitingBlock F = some b → loop.exitTarget F bound iv b = some c) :
      LoopStep bound (b, iv) (c, iv)
  | back {b : BlockId} {iv next : BitVec w} (hedge : L.header ∈ F.successors b)
      (htest : L.exitingBlock F = some b → loop.exitTarget F bound iv b = some L.header)
      (hnext : loop.nextIV F iv = some next) :
      LoopStep bound (b, iv) (L.header, next)

/-- The blocks and values of the induction variable that a run gets to. -/
def LoopRuns (bound : BitVec w) (b : BlockId) (iv : BitVec w) : Prop :=
  ∃ start, loop.startIV F w = some start ∧
    ReflTransGen (LoopStep F L loop bound) (L.header, start) (b, iv)

/-- The header is part of the body only where it is the whole loop. -/
def Loop.IsBody (b : BlockId) : Prop := b ≠ L.header ∨ ∀ c ∈ L.blocks, c = L.header

/-- Every value the induction variable takes in an iteration in which the body
runs lies in the part of the domain that belongs to the loop. -/
def DomainCovers (bound : BitVec w) : Prop :=
  ∀ val b iv, LoopRuns F L loop bound b iv → L.IsBody b →
    loop.bounds.lower.eval val ≤ iv.toInt ∧ iv.toInt < loop.bounds.upper.eval val

/-- The constants of the counter have its width. -/
structure LoopDescriptor.Typed (w : Nat) : Prop where
  width_pos : 0 < w
  start : ∀ c, F.constant loop.startValue = some c → c.width = w
  step : ∀ value type lhs rhs, F.inst? loop.nextValue = some ⟨value, type, .add lhs rhs⟩ →
    ∀ c, F.constant rhs = some c → c.width = w

/-- The predicate under which the exiting branch stays in the loop. -/
def LoopDescriptor.staysWhile (exiting : BlockId) : Predicate :=
  match F.terminator? exiting with
  | some ⟨_, _, .condBr _ ifTrue _⟩ =>
      if L.contains ifTrue then loop.predicate else loop.predicate.inverse
  | _ => loop.predicate

/-- The control flow of the loop with its test. -/
def Loop.tested (exiting latch : BlockId) : TestedLoop BlockId where
  edge := L.InnerEdge F
  header := L.header
  latch := latch
  exiting := exiting

variable {F L loop}

theorem eq_of_onlyElement {α : Type} {items : List α} {a : α}
    (h : Loop.onlyElement items = some a) : items = [a] := by
  unfold Loop.onlyElement at h
  split at h
  · rw [Option.some.inj h]
  · exact absurd h (by simp)

theorem incomingAndBackEdge_eq {incoming backedge : BlockId}
    (h : L.incomingAndBackEdge F = some (incoming, backedge)) :
    L.loopPredecessor F = some incoming ∧ L.loopLatch F = some backedge := by
  unfold Loop.incomingAndBackEdge at h
  split at h
  · rename_i a b hpreds
    simp only [Loop.loopPredecessor, Loop.loopLatch, hpreds]
    split_ifs at h with hab hba
    · simp only [Option.some.injEq, Prod.mk.injEq] at h
      obtain ⟨rfl, rfl⟩ := h
      simp only [Bool.and_eq_true, Bool.not_eq_true'] at hab
      simp [hab.1, hab.2, List.Nodup.dedup (List.nodup_singleton _), Loop.onlyElement]
    · simp only [Option.some.injEq, Prod.mk.injEq] at h
      obtain ⟨rfl, rfl⟩ := h
      simp only [Bool.and_eq_true, Bool.not_eq_true'] at hba
      simp [hba.1, hba.2, List.Nodup.dedup (List.nodup_singleton _), Loop.onlyElement]
  · exact absurd h (by simp)

theorem isCanonicalPhi_of_canonicalInductionVariable {induction : Value}
    (h : L.canonicalInductionVariable F = some induction) :
    ∃ incoming backedge, L.incomingAndBackEdge F = some (incoming, backedge) ∧
      F.isCanonicalPhi incoming backedge induction = true := by
  obtain ⟨⟨incoming, backedge⟩, hedges, hfind⟩ := Option.bind_eq_some_iff.mp h
  exact ⟨incoming, backedge, hedges, List.find?_some hfind⟩

/-- The value is a constant of the given bits. -/
def IsConst (F : Function) (value : Value) (n : Nat) : Prop :=
  ∃ c, F.constant value = some c ∧ (c.bits == BitVec.ofNat c.width n) = true

/-- The value is the other one incremented by one. -/
def AddsOne (F : Function) (phi value : Value) : Prop :=
  ∃ inst type rhs, F.inst? value = some ⟨inst, type, .add phi rhs⟩ ∧ IsConst F rhs 1

theorem isCanonicalPhi_iff {incoming backedge : BlockId} {phi : Value} :
    F.isCanonicalPhi incoming backedge phi = true ↔
      (∃ start, F.incomingValueForBlock phi incoming = some start ∧ IsConst F start 0) ∧
        ∃ next, F.incomingValueForBlock phi backedge = some next ∧ AddsOne F phi next := by
  simp only [Function.isCanonicalPhi, Bool.and_eq_true, Option.any_eq_true, IsConst, AddsOne]
  refine and_congr ?_ ?_
  · constructor
    · rintro ⟨c, hc, hbits⟩
      obtain ⟨start, hstart, hconstant⟩ := Option.bind_eq_some_iff.mp hc
      exact ⟨start, hstart, c, hconstant, hbits⟩
    · rintro ⟨start, hstart, c, hconstant, hbits⟩
      exact ⟨c, by rw [hstart, Option.bind_some, hconstant], hbits⟩
  · constructor
    · intro h
      split at h
      · rename_i inst type lhs rhs hinst
        obtain ⟨next, hnext, hadd⟩ := Option.bind_eq_some_iff.mp hinst
        obtain ⟨hlhs, hone⟩ := Bool.and_eq_true_iff.mp h
        obtain rfl := beq_iff_eq.mp hlhs
        obtain ⟨c, hc, hbits⟩ := (Option.any_eq_true ..).mp hone
        exact ⟨next, hnext, inst, type, rhs, hadd, c, hc, hbits⟩
      · exact absurd h (by simp)
    · rintro ⟨next, hnext, inst, type, rhs, hadd, c, hc, hbits⟩
      rw [hnext, Option.bind_some, hadd]
      simp [hc, hbits]

/-- A canonical induction variable is zero on the way into its loop and goes up by one on
the way back. -/
theorem canonical_edges {induction startValue nextValue : Value} {preheader latch : BlockId}
    (h : L.canonicalInductionVariable F = some induction)
    (hpreheader : L.loopPreheader F = some preheader)
    (hstart : F.incomingValueForBlock induction preheader = some startValue)
    (hlatch : L.loopLatch F = some latch)
    (hnext : F.incomingValueForBlock induction latch = some nextValue) :
    L.incomingAndBackEdge F = some (preheader, latch) ∧ IsConst F startValue 0 ∧
      AddsOne F induction nextValue := by
  obtain ⟨incoming, backedge, hedges, hphi⟩ := isCanonicalPhi_of_canonicalInductionVariable h
  obtain ⟨hpredecessor, hbackedge⟩ := incomingAndBackEdge_eq hedges
  obtain rfl : backedge = latch := Option.some.inj (hbackedge.symm.trans hlatch)
  rw [Loop.loopPreheader, hpredecessor, Option.filter_eq_some_iff] at hpreheader
  obtain rfl : incoming = preheader := Option.some.inj hpreheader.1
  obtain ⟨⟨start, hstart', hzero⟩, next, hnext', hone⟩ := isCanonicalPhi_iff.mp hphi
  obtain rfl : start = startValue := Option.some.inj (hstart'.symm.trans hstart)
  obtain rfl : next = nextValue := Option.some.inj (hnext'.symm.trans hnext)
  exact ⟨hedges, hzero, hone⟩

theorem ofWidth_of_beq {c : ConstInt} (hwidth : c.width = w) {n : Nat}
    (h : (c.bits == BitVec.ofNat c.width n) = true) : c.ofWidth w = some (BitVec.ofNat w n) := by
  obtain ⟨width, bits⟩ := c
  subst hwidth
  simp only [beq_iff_eq] at h
  simp [ConstInt.ofWidth, h]

variable {SE : ScalarEvolution}

/-- The counter of a described loop starts at zero and goes up by one. -/
theorem Describes.counter (h : Describes F SE L loop) (htyped : loop.Typed F w) :
    loop.startIV F w = some 0 ∧ ∀ iv : BitVec w, loop.nextIV F iv = some (iv + 1) := by
  obtain ⟨preheader, hpreheader, hstart⟩ := h.preheader
  obtain ⟨latch, hlatch, hnext⟩ := h.latch
  obtain ⟨_, ⟨c, hc, hbits⟩, inst, type, rhs, hinst, c', hc', hbits'⟩ :=
    canonical_edges h.induction hpreheader hstart hlatch hnext
  constructor
  · rw [LoopDescriptor.startIV, hc]
    exact ofWidth_of_beq (htyped.start c hc) hbits
  · intro iv
    have hwidth : c'.width = w := htyped.step inst type loop.induction rhs hinst c' hc'
    simp only [LoopDescriptor.nextIV, hinst, if_true, hc', Option.bind_some]
    rw [ofWidth_of_beq hwidth hbits']
    rfl

/-- The latch has the only back edge. -/
theorem loopLatch_spec {latch : BlockId} (h : L.loopLatch F = some latch) (b : BlockId) :
    b ∈ L.blocks ∧ L.header ∈ F.successors b ↔ b = latch := by
  have hmem := congrArg (b ∈ ·) (eq_of_onlyElement h)
  simp only [List.mem_filter, Function.mem_predecessors, Loop.contains, List.contains_iff_mem,
    List.mem_singleton, eq_iff_iff] at hmem
  rw [and_comm, hmem]

theorem isExiting_of_exitingBlock {exiting : BlockId} (h : L.exitingBlock F = some exiting) :
    exiting ∈ L.blocks ∧ ∃ succ ∈ F.successors exiting, succ ∉ L.blocks := by
  have hmem : exiting ∈ L.blocks.filter fun block => L.isExiting F block := by
    rw [eq_of_onlyElement h]
    exact List.mem_singleton_self exiting
  simpa [Loop.isExiting, Loop.contains] using hmem

/-- The exiting branch goes on in the loop exactly where its test succeeds. -/
theorem Describes.exitTarget_iff (h : Describes F SE L loop) {exiting c : BlockId}
    (hexiting : L.exitingBlock F = some exiting) (hsucc : c ∈ F.successors exiting)
    (hc : c ∈ L.blocks) (bound iv : BitVec w) :
    loop.exitTarget F bound iv exiting = some c ↔
      (loop.staysWhile F L exiting).eval iv bound = true := by
  obtain ⟨exiting', hexiting', value, type, cond, ifTrue, ifFalse, hterminator, _⟩ := h.exit
  obtain rfl : exiting = exiting' := Option.some.inj (hexiting.symm.trans hexiting')
  obtain ⟨_, out, hout, hleaves⟩ := isExiting_of_exitingBlock hexiting
  simp only [Function.successors, hterminator, Option.map_some, Option.getD_some,
    InstKind.successors, List.mem_cons, List.not_mem_nil, or_false] at hsucc hout
  simp only [LoopDescriptor.exitTarget, LoopDescriptor.staysWhile, hterminator, Option.some.injEq,
    Loop.contains, List.contains_iff_mem]
  by_cases htrue : ifTrue ∈ L.blocks
  · have hfalse : ifFalse ∉ L.blocks := by
      rcases hout with rfl | rfl
      · exact absurd htrue hleaves
      · exact hleaves
    obtain rfl : c = ifTrue := hsucc.resolve_right fun heq => hfalse (heq ▸ hc)
    have hne : ifFalse ≠ c := fun heq => hfalse (heq ▸ hc)
    simp [hc, hne]
  · obtain rfl : c = ifFalse := hsucc.resolve_left fun heq => htrue (heq ▸ hc)
    have hne : ifTrue ≠ c := fun heq => htrue (heq ▸ hc)
    simp [htrue, hne, Predicate.eval_inverse]

/-- The counter of a described loop is the number of the iteration. -/
theorem Describes.loopRuns_iff (h : Describes F SE L loop) (htyped : loop.Typed F w)
    (hnatural : L.Natural F) {exiting latch : BlockId} (hexiting : L.exitingBlock F = some exiting)
    (hlatch : L.loopLatch F = some latch) (bound : BitVec w) (b : BlockId) (iv : BitVec w) :
    LoopRuns F L loop bound b iv ↔ ∃ k, iv = BitVec.ofNat w k ∧
      (L.tested F exiting latch).Reaches
        (fun j => (loop.staysWhile F L exiting).eval (BitVec.ofNat w j) bound = true) b k := by
  obtain ⟨hstart, hnext⟩ := h.counter htyped
  have hsucc : ∀ k, BitVec.ofNat w (k + 1) = BitVec.ofNat w k + 1 := fun k => by
    rw [BitVec.ofNat_add]
    rfl
  obtain ⟨hlatchMem, hlatchEdge⟩ := (loopLatch_spec hlatch latch).mpr rfl
  constructor
  · rintro ⟨start, hstart', hpath⟩
    obtain rfl : start = 0 := Option.some.inj (hstart'.symm.trans hstart)
    have hinvariant : ∀ state, ReflTransGen (LoopStep F L loop bound) (L.header, 0) state →
        state.1 ∈ L.blocks ∧ ∃ k, state.2 = BitVec.ofNat w k ∧
          (L.tested F exiting latch).Reaches
            (fun j => (loop.staysWhile F L exiting).eval (BitVec.ofNat w j) bound = true)
            state.1 k := by
      intro state hstate
      induction hstate with
      | refl => exact ⟨hnatural.header_mem, 0, rfl, TestedLoop.reaches_header⟩
      | tail _ hstep ih =>
          obtain ⟨hmem, k, hiv, hreach⟩ := ih
          cases hstep with
          | @inner b c iv hedge htest =>
              obtain rfl : iv = BitVec.ofNat w k := hiv
              refine ⟨hedge.2.1, k, rfl, hreach.edge hedge fun heq => ?_⟩
              obtain rfl : b = exiting := heq
              exact (h.exitTarget_iff hexiting hedge.1 hedge.2.1 bound _).mp (htest hexiting)
          | @back b iv next hedge htest hnext' =>
              obtain rfl : iv = BitVec.ofNat w k := hiv
              obtain rfl : b = latch := (loopLatch_spec hlatch b).mp ⟨hmem, hedge⟩
              obtain rfl : BitVec.ofNat w k + 1 = next :=
                Option.some.inj ((hnext _).symm.trans hnext')
              refine ⟨hnatural.header_mem, k + 1, (hsucc k).symm, hreach.back fun heq => ?_⟩
              obtain rfl : b = exiting := heq
              exact (h.exitTarget_iff hexiting hedge hnatural.header_mem bound _).mp
                (htest hexiting)
    exact (hinvariant (b, iv) hpath).2
  · rintro ⟨k, rfl, hpath⟩
    refine ⟨0, hstart, ?_⟩
    have hsimulates : ∀ state, ReflTransGen ((L.tested F exiting latch).Step
        (fun j => (loop.staysWhile F L exiting).eval (BitVec.ofNat w j) bound = true))
        (L.header, 0) state →
        ReflTransGen (LoopStep F L loop bound) (L.header, 0) (state.1, BitVec.ofNat w state.2) := by
      intro state hstate
      induction hstate with
      | refl => exact ReflTransGen.refl
      | tail _ hstep ih =>
          cases hstep with
          | @inner b c k hedge htest =>
              refine ReflTransGen.tail ih (.inner hedge fun heq => ?_)
              obtain rfl : exiting = b := Option.some.inj (hexiting.symm.trans heq)
              exact (h.exitTarget_iff hexiting hedge.1 hedge.2.1 bound _).mpr (htest rfl)
          | @back k htest =>
              refine ReflTransGen.tail ih (.back hlatchEdge (fun heq => ?_)
                ((hnext _).trans (congrArg some (hsucc k).symm)))
              obtain rfl : exiting = latch := Option.some.inj (hexiting.symm.trans heq)
              exact (h.exitTarget_iff hexiting hlatchEdge hnatural.header_mem bound _).mpr
                (htest rfl)
    exact hsimulates (b, k) hpath

end Runs

section Covers

open Relation Flow

variable {F : Function} {SE : ScalarEvolution} {L : Loop} {loop : LoopDescriptor} {w : Nat}

/-- A counter that gets to its first value above the domain leaves the domain. -/
theorem not_mem_of_firstOutside (hw : 0 < w) (bound : BitVec w) :
    ¬ (BitVec.ofNat w (firstOutside bound)).toInt < (getSExtValue bound).toInt := by
  rw [(toInt_ofNat_of_lt hw (firstOutside_lt hw bound)).1, firstOutside]
  omega

theorem mem_of_lt_firstOutside (hw : 0 < w) {bound : BitVec w} {k : Nat}
    (hk : k < firstOutside bound) : 0 ≤ (BitVec.ofNat w k).toInt ∧
      (BitVec.ofNat w k).toInt < (getSExtValue bound).toInt := by
  rw [(toInt_ofNat_of_lt hw (hk.trans (firstOutside_lt hw bound))).1]
  rw [firstOutside] at hk
  omega

theorem headerCovers_iff_forall (hw : 0 < w) (predicate : Predicate) (bound : BitVec w) :
    headerCovers predicate bound ↔
      ∀ k, (∀ j ≤ k, predicate.eval (BitVec.ofNat w j) bound = true) →
        0 ≤ (BitVec.ofNat w k).toInt ∧ (BitVec.ofNat w k).toInt < (getSExtValue bound).toInt := by
  have heval : ∀ j ≤ firstOutside bound,
      (predicate.eval (BitVec.ofNat w j) bound = true ↔ predicate.compares bound j) :=
    fun j hj => predicate.eval_ofNat hw bound (hj.trans_lt (firstOutside_lt hw bound))
  rw [headerCovers_iff hw]
  constructor
  · rintro ⟨m, hm, hfails⟩ k hk
    have hlt : k < m := by
      by_contra hle
      exact hfails ((heval m hm).mp (hk m (Nat.le_of_not_lt hle)))
    exact mem_of_lt_firstOutside hw (hlt.trans_le hm)
  · intro h
    by_contra hnone
    push Not at hnone
    have hall := h (firstOutside bound) fun j hj => (heval j hj).mpr (hnone j hj)
    exact not_mem_of_firstOutside hw bound hall.2

theorem laterCovers_iff_forall (hw : 0 < w) (predicate : Predicate) (bound : BitVec w) :
    laterCovers predicate bound ↔
      ∀ k, (∀ j < k, predicate.eval (BitVec.ofNat w j) bound = true) →
        0 ≤ (BitVec.ofNat w k).toInt ∧ (BitVec.ofNat w k).toInt < (getSExtValue bound).toInt := by
  have heval : ∀ j < firstOutside bound,
      (predicate.eval (BitVec.ofNat w j) bound = true ↔ predicate.compares bound j) :=
    fun j hj => predicate.eval_ofNat hw bound (hj.trans (firstOutside_lt hw bound))
  rw [laterCovers_iff hw]
  constructor
  · rintro ⟨hpos, m, hm, hfails⟩ k hk
    have hle : k ≤ m := by
      by_contra hlt
      exact hfails ((heval m hm).mp (hk m (Nat.lt_of_not_le hlt)))
    exact mem_of_lt_firstOutside hw (hle.trans_lt hm)
  · intro h
    have hzero := h 0 fun j hj => absurd hj (Nat.not_lt_zero j)
    refine ⟨hzero.1.trans_lt hzero.2, ?_⟩
    by_contra hnone
    push Not at hnone
    have hall := h (firstOutside bound) fun j hj => (heval j hj).mpr (hnone j hj)
    exact not_mem_of_firstOutside hw bound hall.2

/-- When the domain covers a loop.  A test in front of the body may hold as long
as the bound is not reached; any other test has to end the loop at once, and it
must not be possible to go round it. -/
def ExitCovers (F : Function) (L : Loop) (loop : LoopDescriptor) (bound : BitVec w) : Prop :=
  ∃ exiting latch, L.exitingBlock F = some exiting ∧ L.loopLatch F = some latch ∧
    ((exiting = L.header ∧ latch ≠ L.header ∧ headerCovers (loop.staysWhile F L exiting) bound) ∨
      (¬ (exiting = L.header ∧ latch ≠ L.header) ∧ ¬ (L.tested F exiting latch).Bypasses ∧
        laterCovers (loop.staysWhile F L exiting) bound))

theorem Describes.domain_eq (h : Describes F SE L loop) {loops : List Loop}
    (hSE : SE.Sound F loops) (hL : L ∈ loops) {bound : BitVec w}
    (hbound : F.constant loop.boundValue = some ⟨w, bound⟩) (val : Value → Int) :
    loop.bounds.lower.eval val = 0 ∧
      loop.bounds.upper.eval val = (getSExtValue bound).toInt := by
  rw [h.lower_eq hSE hL, h.upper, hSE.constant _ _ hbound, expr_constant]
  exact ⟨AffineExpr.eval_ofConstant val 0, AffineExpr.eval_ofConstant val _⟩

/-- A natural loop whose latch is its header has no other block. -/
theorem Loop.Natural.eq_header (hnatural : L.Natural F) (hlatch : L.loopLatch F = some L.header) :
    ∀ b ∈ L.blocks, b = L.header := by
  intro b hb
  rcases ReflTransGen.cases_tail (hnatural.to_latch L.header hlatch b hb) with heq | ⟨c, _, hedge⟩
  · exact heq.symm
  · exact absurd rfl hedge.2.2

/-- The header is the only node in front of a test in the header. -/
theorem untested_header {latch b : BlockId} (h : (L.tested F L.header latch).Untested b) :
    b = L.header := by
  induction h with
  | refl => rfl
  | tail _ hedge ih => exact absurd ih hedge.2

/-- Unless the header tests in front of the body, some block of the body comes
before the test or is the test. -/
theorem Loop.Natural.exists_untested (hnatural : L.Natural F) {exiting latch : BlockId}
    (hexiting : L.exitingBlock F = some exiting) (hlatch : L.loopLatch F = some latch)
    (hlate : ¬ (exiting = L.header ∧ latch ≠ L.header)) :
    ∃ b, L.IsBody b ∧ (L.tested F exiting latch).Untested b := by
  by_cases hheader : exiting = L.header
  · obtain rfl : latch = L.header := by
      by_contra hne
      exact hlate ⟨hheader, hne⟩
    exact ⟨L.header, Or.inr (hnatural.eq_header hlatch), ReflTransGen.refl⟩
  · have hmem := (isExiting_of_exitingBlock hexiting).1
    exact ⟨exiting, Or.inl hheader, TestedLoop.untested_exiting (hnatural.from_header _ hmem)⟩

/-- Which iterations run is up to the exit: its place, its predicate and the side
of its branch. -/
theorem Describes.domainCovers_iff_exitCovers {loops : List Loop} (h : Describes F SE L loop)
    (hSE : SE.Sound F loops) (hL : L ∈ loops) (hnatural : L.Natural F) (htyped : loop.Typed F w)
    {bound : BitVec w} (hbound : F.constant loop.boundValue = some ⟨w, bound⟩) :
    DomainCovers F L loop bound ↔ ExitCovers F L loop bound := by
  obtain ⟨exiting, hexiting, _⟩ := h.exit
  obtain ⟨latch, hlatch, _⟩ := h.latch
  have hlatchMem : latch ∈ L.blocks := ((loopLatch_spec hlatch latch).mpr rfl).1
  have hpath : ReflTransGen (L.tested F exiting latch).edge L.header latch :=
    hnatural.from_header latch hlatchMem
  have hw := htyped.width_pos
  let test : Nat → Prop := fun j =>
    (loop.staysWhile F L exiting).eval (BitVec.ofNat w j) bound = true
  have hcovers : DomainCovers F L loop bound ↔
      ∀ b k, (L.tested F exiting latch).Reaches test b k → L.IsBody b →
        0 ≤ (BitVec.ofNat w k).toInt ∧ (BitVec.ofNat w k).toInt < (getSExtValue bound).toInt := by
    simp only [DomainCovers, h.loopRuns_iff htyped hnatural hexiting hlatch,
      h.domain_eq hSE hL hbound, forall_exists_index, and_imp]
    constructor
    · intro hall b k hreach hbody
      exact hall (fun _ => 0) b _ k rfl hreach hbody
    · rintro hall _ b _ k rfl hreach hbody
      exact hall b k hreach hbody
  have hexit : ExitCovers F L loop bound ↔
      (exiting = L.header ∧ latch ≠ L.header ∧ headerCovers (loop.staysWhile F L exiting) bound) ∨
        (¬ (exiting = L.header ∧ latch ≠ L.header) ∧ ¬ (L.tested F exiting latch).Bypasses ∧
          laterCovers (loop.staysWhile F L exiting) bound) := by
    simp [ExitCovers, hexiting, hlatch]
  rw [hcovers, hexit]
  by_cases hlate : exiting = L.header ∧ latch ≠ L.header
  · obtain ⟨rfl, hne⟩ := hlate
    have hbypass : ¬ (L.tested F L.header latch).Bypasses :=
      fun hbypass => hne (untested_header hbypass.1)
    have htested : ∀ {b}, ReflTransGen (L.tested F L.header latch).edge L.header b →
        b ≠ L.header → ∀ {k}, ((L.tested F L.header latch).Reaches test b k ↔ ∀ j ≤ k, test j) :=
      fun hb hne' => TestedLoop.reaches_tested_iff hbypass hpath hb
        fun huntested => hne' (untested_header huntested)
    simp only [true_and, hne, ne_eq, not_false_eq_true, not_true_eq_false, false_and, or_false,
      headerCovers_iff_forall hw]
    constructor
    · intro hall k hk
      exact hall latch k ((htested hpath hne).mpr hk) (Or.inl hne)
    · intro hall b k hreach hbody
      have hb' : b ≠ L.header := hbody.resolve_right fun hsingle => hne (hsingle latch hlatchMem)
      exact hall k ((htested hreach.connected hb').mp hreach)
  · obtain ⟨b, hbody, huntested⟩ := hnatural.exists_untested hexiting hlatch hlate
    simp only [hlate, not_false_eq_true, true_and, laterCovers_iff_forall hw,
      ← and_assoc, false_and, false_or]
    by_cases hbypass : (L.tested F exiting latch).Bypasses
    · have hreach : (L.tested F exiting latch).Reaches test b (firstOutside bound) :=
        (TestedLoop.reaches_of_bypasses hbypass _).untested huntested
      constructor
      · intro hall
        exact absurd (hall b _ hreach hbody).2 (not_mem_of_firstOutside hw bound)
      · intro hnot
        exact absurd hbypass hnot.1
    · constructor
      · intro hall
        refine ⟨hbypass, fun k hk => ?_⟩
        exact hall b k ((TestedLoop.reaches_untested_iff hbypass hpath huntested).mpr hk) hbody
      · rintro ⟨_, hall⟩ b' k hreach _
        exact hall k (hreach.tested hbypass).1

/-- The domain covers every executed iteration of a loop with a constant bound
exactly where the exit lets it. -/
theorem domainCovers_iff (F : Function) (SE : ScalarEvolution) (loops : List Loop)
    (hSE : SE.Sound F loops) (L : Loop) (hL : L ∈ loops) (hnatural : L.Natural F)
    (loop : LoopDescriptor) (hbuild : buildLoopDescriptor F SE L = some loop) (w : Nat)
    (htyped : loop.Typed F w) (bound : BitVec w)
    (hbound : F.constant loop.boundValue = some ⟨w, bound⟩) :
    DomainCovers F L loop bound ↔ ExitCovers F L loop bound :=
  (describes_of_buildLoopDescriptor hbuild).domainCovers_iff_exitCovers hSE hL hnatural
    htyped hbound

end Covers

section Program

open Relation

/-- The edges of the two loops make them natural. -/
theorem exampleLoops_natural {F : Function}
    (hedges : ∀ edge ∈ [(1, 2), (2, 3), (3, 4), (3, 5), (4, 3)], edge.2 ∈ F.successors edge.1)
    (hlatch : exampleOuter.loopLatch F = some 5) (hlatch' : exampleInner.loopLatch F = some 4) :
    ∀ L ∈ linearizePerfectNest exampleOuter, L.Natural F := by
  have hedge : ∀ (L : Loop) (b c : BlockId),
      (b, c) ∈ [(1, 2), (2, 3), (3, 4), (3, 5), (4, 3)] → c ∈ L.blocks ∧ c ≠ L.header →
      ReflTransGen (L.InnerEdge F) b c :=
    fun L b c hmem hin => ReflTransGen.single ⟨hedges (b, c) hmem, hin⟩
  have h12 := hedge exampleOuter 1 2 (by decide) (by decide)
  have h23 := hedge exampleOuter 2 3 (by decide) (by decide)
  have h34 := hedge exampleOuter 3 4 (by decide) (by decide)
  have h35 := hedge exampleOuter 3 5 (by decide) (by decide)
  have h43 := hedge exampleOuter 4 3 (by decide) (by decide)
  have hinner := hedge exampleInner 3 4 (by decide) (by decide)
  intro L hL
  rcases List.mem_pair.mp hL with rfl | rfl
  · constructor
    · decide
    · intro b hb
      simp only [Loop.blocks, List.mem_cons, List.not_mem_nil, or_false] at hb
      rcases hb with rfl | rfl | rfl | rfl | rfl
      · exact ReflTransGen.refl
      · exact h12
      · exact h12.trans h23
      · exact (h12.trans h23).trans h34
      · exact (h12.trans h23).trans h35
    · intro latch h b hb
      obtain rfl : 5 = latch := Option.some.inj (hlatch.symm.trans h)
      simp only [Loop.blocks, List.mem_cons, List.not_mem_nil, or_false] at hb
      rcases hb with rfl | rfl | rfl | rfl | rfl
      · exact (h12.trans h23).trans h35
      · exact h23.trans h35
      · exact h35
      · exact h43.trans h35
      · exact ReflTransGen.refl
  · constructor
    · decide
    · intro b hb
      rcases List.mem_pair.mp hb with rfl | rfl
      · exact ReflTransGen.refl
      · exact hinner
    · intro latch h b hb
      obtain rfl : 4 = latch := Option.some.inj (hlatch'.symm.trans h)
      rcases List.mem_pair.mp hb with rfl | rfl
      · exact hinner
      · exact ReflTransGen.refl

theorem exampleOuter_natural (predicate : Predicate) :
    exampleOuter.Natural (Payload.function {} predicate) :=
  exampleLoops_natural (by cases predicate <;> decide) rfl rfl exampleOuter List.mem_cons_self

/-- A counter that starts at a constant of 32 bits and grows by one has 32 bits. -/
theorem typed_of_constants {F : Function} {loop : LoopDescriptor} {value lhs rhs : Value}
    {type : IRType} {start step : Nat} (hstart : F.constant loop.startValue = some ⟨32, start⟩)
    (hinst : F.inst? loop.nextValue = some ⟨value, type, .add lhs rhs⟩)
    (hstep : F.constant rhs = some ⟨32, step⟩) : loop.Typed F 32 where
  width_pos := by decide
  start := by
    intro c hc
    rw [hstart] at hc
    obtain rfl : ⟨32, start⟩ = c := Option.some.inj hc
    rfl
  step := by
    intro value' type' lhs' rhs' hinst' c hc
    rw [hinst, Option.some.injEq, Inst.mk.injEq, InstKind.add.injEq] at hinst'
    obtain ⟨_, _, _, rfl⟩ := hinst'
    rw [hstep] at hc
    obtain rfl : ⟨32, step⟩ = c := Option.some.inj hc
    rfl

theorem exampleDescriptor_typed (predicate : Predicate) :
    (exampleDescriptor predicate).Typed (Payload.function {} predicate) 32 :=
  typed_of_constants rfl rfl rfl

/-- The domain of `for (i = 0; i < 8; ++i)` has every iteration. -/
theorem exampleDescriptor_covers :
    DomainCovers (Payload.function {} .slt) exampleOuter (exampleDescriptor .slt) (8 : BitVec 32) :=
  (domainCovers_iff (Payload.function {} .slt) exampleEvolution [exampleOuter, exampleInner]
    (exampleEvolution_sound rfl rfl rfl) exampleOuter (by simp) (exampleOuter_natural .slt)
    (exampleDescriptor .slt) rfl 32 (exampleDescriptor_typed .slt) 8 rfl).mpr
    ⟨1, 5, rfl, rfl, Or.inl ⟨rfl, by decide, Or.inr (by decide)⟩⟩

/-- The domain of `for (i = 0; i <= 8; ++i)` lacks the last iteration. -/
theorem not_domainCovers : ¬ ∀ (F : Function) (SE : ScalarEvolution) (loops : List Loop),
    SE.Sound F loops → ∀ L ∈ loops, L.Natural F → ∀ loop, buildLoopDescriptor F SE L = some loop →
    ∀ w, loop.Typed F w → ∀ bound : BitVec w, F.constant loop.boundValue = some ⟨w, bound⟩ →
      DomainCovers F L loop bound := by
  intro hall
  have hsound : exampleEvolution.Sound (Payload.function {} .sle) [exampleOuter, exampleInner] :=
    exampleEvolution_sound rfl rfl rfl
  have hcovers := hall (Payload.function {} .sle) exampleEvolution [exampleOuter, exampleInner]
    hsound exampleOuter (by simp) (exampleOuter_natural .sle) (exampleDescriptor .sle) rfl 32
    (exampleDescriptor_typed .sle) 8 rfl
  rw [(describes_of_buildLoopDescriptor rfl).domainCovers_iff_exitCovers hsound (by simp)
    (exampleOuter_natural .sle) (exampleDescriptor_typed .sle) rfl] at hcovers
  obtain ⟨exiting, latch, hexiting, hlatch, hcase⟩ := hcovers
  obtain rfl : 1 = exiting := Option.some.inj hexiting
  obtain rfl : 5 = latch := Option.some.inj hlatch
  rcases hcase with ⟨_, _, hheader⟩ | ⟨hlate, _⟩
  · exact absurd (show (8 : BitVec 32).toInt < 0 from hheader) (by decide)
  · exact hlate ⟨rfl, by decide⟩

end Program

end PolyhedralPass
