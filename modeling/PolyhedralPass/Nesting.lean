/-
Statements between the loops of a nest.  The analysis follows a chain of only
sub-loops whatever else the blocks of the loops contain; tiling executes a statement as
often as before only where it is in all of the loops, behind the test of each.
-/
import PolyhedralPass.Analysis
import PolyhedralPass.Visits

namespace PolyhedralPass

open Relation Flow

/-- A load, a store, a call or an atomic access. -/
def InstKind.isStatement : InstKind → Bool
  | .load _ | .store _ _ | .call _ _ | .atomicRMW _ _ | .cmpXchg _ _ _ => true
  | _ => false

section Executions

variable (F : Function)

namespace LoopDescriptor

variable (loop : LoopDescriptor)

/-- The control flow of the loop with its test. -/
def control : Option (TestedLoop BlockId) :=
  (loop.loopNode.exitingBlock F).bind fun exiting =>
    (loop.loopNode.loopLatch F).map fun latch => loop.loopNode.tested F exiting latch

/-- A run of the loop gets to a block with a value of the induction variable. -/
def GetsTo (block : BlockId) (start bound iv : Int) : Prop :=
  ∃ control, loop.control F = some control ∧ ∃ k : Nat, iv = start + k ∧
    control.Reaches (fun j => (loop.staysWhile F loop.loopNode control.exiting).evalInt
      (start + j) bound = true) block k

/-- The test fails sooner or later. -/
def Ends (start bound : Int) : Prop :=
  ∃ control, loop.control F = some control ∧ ∃ iv, start ≤ iv ∧
    (loop.staysWhile F loop.loopNode control.exiting).evalInt iv bound = false

/-- The outcome of the comparison with which the loop goes on. -/
def goesOnWhen : Bool :=
  match (loop.loopNode.exitingBlock F).bind F.terminator? with
  | some ⟨_, _, .condBr _ ifTrue _⟩ => loop.loopNode.contains ifTrue
  | _ => true

/-- How a block stands to the test of the loop. -/
def gate (block : BlockId) : Gate where
  predicate := loop.predicate
  polarity := loop.goesOnWhen F
  round := ∃ control, loop.control F = some control ∧ control.Bypasses
  behind := ∃ control, loop.control F = some control ∧ ¬ control.Untested block

end LoopDescriptor

namespace LoopNestDescriptor

variable (nest : LoopNestDescriptor)

/-- The number of loops of the nest that are around a block. -/
def levelOf (block : BlockId) : Nat :=
  (nest.loops.takeWhile (·.loopNode.contains block)).length

/-- Where a loop around a block leads to: the header of the next one, or the block. -/
def leadsTo (block : BlockId) (i : Nat) : BlockId :=
  if i + 1 < nest.levelOf block then
    ((nest.loops[i + 1]?).map (·.loopNode.header)).getD block
  else block

/-- The loops of the nest as a block sees them. -/
def levels (block : BlockId) : Levels nest.loops.length where
  level := nest.levelOf block
  predicate i := nest.loops[i].predicate
  visits i := nest.loops[i].GetsTo F (nest.leadsTo block i)
  ends i := nest.loops[i].Ends F

def gates (block : BlockId) (i : Fin nest.loops.length) : Gate :=
  nest.loops[i].gate F (nest.leadsTo block i)

end LoopNestDescriptor

/-- Every statement that is executed inside the outermost loop belongs to the innermost
one, and tiling executes it in the same iterations, in each of them once. -/
def StatementsKept (root : Loop) (nest : LoopNestDescriptor) : Prop :=
  ∀ block ∈ root.blocks, ∀ inst ∈ F.insts block, inst.kind.isStatement = true →
    (nest.levels F block).Executed →
    (∃ innermost, (linearizePerfectNest root).getLast? = some innermost ∧
      block ∈ innermost.blocks) ∧ (nest.levels F block).KeepsExecutions

/-- Every statement is out of reach behind the test of a loop that never goes on, or it is
in all loops, behind their tests, and each of them counts up to its bound. -/
def StatementsBehindTests (root : Loop) (nest : LoopNestDescriptor) : Prop :=
  ∀ block ∈ root.blocks, ∀ inst ∈ F.insts block, inst.kind.isStatement = true →
    (∃ i : Fin nest.loops.length, i < nest.levelOf block ∧ (nest.gates F block i).Dead) ∨
      (∀ loop ∈ nest.loops, block ∈ loop.loopNode.blocks) ∧ ∀ i, (nest.gates F block i).Right

end Executions

section Tests

variable {F : Function} {SE : ScalarEvolution} {L : Loop} {loop : LoopDescriptor}

theorem Predicate.evalInt_inverse (predicate : Predicate) (a b : Int) :
    predicate.inverse.evalInt a b = !predicate.evalInt a b := by
  cases predicate <;> grind [Predicate.inverse]

/-- A described loop has an exiting block, a latch and a test. -/
theorem Describes.exists_control (h : Describes F SE L loop) :
    ∃ exiting latch, L.exitingBlock F = some exiting ∧ L.loopLatch F = some latch ∧
      loop.control F = some (L.tested F exiting latch) := by
  obtain ⟨exiting, hexiting, _⟩ := h.exit
  obtain ⟨latch, hlatch, _⟩ := h.latch
  refine ⟨exiting, latch, hexiting, hlatch, ?_⟩
  rw [LoopDescriptor.control, h.loopNode, hexiting, hlatch]
  rfl

/-- It goes on where the comparison has the right outcome. -/
theorem Describes.staysWhile_iff (h : Describes F SE L loop) {exiting : BlockId}
    (hexiting : L.exitingBlock F = some exiting) (block : BlockId) (bound iv : Int) :
    (loop.staysWhile F L exiting).evalInt iv bound = true ↔
      (loop.gate F block).GoesOn bound iv := by
  obtain ⟨exiting', hexiting', value, type, cond, ifTrue, ifFalse, hterminator, _⟩ := h.exit
  obtain rfl : exiting = exiting' := Option.some.inj (hexiting.symm.trans hexiting')
  have hgoes : loop.goesOnWhen F = L.contains ifTrue := by
    rw [LoopDescriptor.goesOnWhen, h.loopNode, hexiting, Option.bind_some, hterminator]
  have hstays : loop.staysWhile F L exiting =
      if L.contains ifTrue then loop.predicate else loop.predicate.inverse := by
    rw [LoopDescriptor.staysWhile, hterminator]
  rw [hstays, Gate.GoesOn, LoopDescriptor.gate, hgoes]
  cases L.contains ifTrue with
  | true => rfl
  | false => simp [Predicate.evalInt_inverse]

theorem Describes.ends_iff (h : Describes F SE L loop) (block : BlockId) (start bound : Int) :
    loop.Ends F start bound ↔ (loop.gate F block).Ends start bound := by
  obtain ⟨exiting, latch, hexiting, _, hcontrol⟩ := h.exists_control
  simp only [LoopDescriptor.Ends, hcontrol, Option.some.injEq, exists_eq_left', h.loopNode,
    Gate.Ends, ← h.staysWhile_iff hexiting block, Bool.not_eq_true]
  rfl

/-- The runs of the control flow get to a block as its place tells. -/
theorem Describes.getsTo_iff (h : Describes F SE L loop) (hnatural : L.Natural F)
    {block : BlockId} (hblock : block ∈ L.blocks) (start bound iv : Int) :
    loop.GetsTo F block start bound iv ↔ (loop.gate F block).Visits start bound iv := by
  obtain ⟨exiting, latch, hexiting, hlatch, hcontrol⟩ := h.exists_control
  have hlatchMem : latch ∈ L.blocks := ((loopLatch_spec hlatch latch).mpr rfl).1
  have hround : (loop.gate F block).round ↔ (L.tested F exiting latch).Bypasses := by
    simp [LoopDescriptor.gate, hcontrol]
  have hbehind : (loop.gate F block).behind ↔ ¬ (L.tested F exiting latch).Untested block := by
    simp [LoopDescriptor.gate, hcontrol]
  have hreaches : ∀ k : Nat, (L.tested F exiting latch).Reaches
      (fun j => (loop.staysWhile F L exiting).evalInt (start + j) bound = true) block k ↔
      ((loop.gate F block).round ∨ ∀ j < k, (loop.gate F block).GoesOn bound (start + j)) ∧
        ((loop.gate F block).behind → (loop.gate F block).GoesOn bound (start + k)) := by
    intro k
    rw [TestedLoop.reaches_iff (hnatural.from_header latch hlatchMem)
      (hnatural.from_header block hblock), hround, hbehind]
    simp only [h.staysWhile_iff hexiting block]
    exact and_congr_right' or_iff_not_imp_left
  have hgets : loop.GetsTo F block start bound iv ↔ ∃ k : Nat, iv = start + k ∧
      (L.tested F exiting latch).Reaches
        (fun j => (loop.staysWhile F L exiting).evalInt (start + j) bound = true) block k := by
    simp only [LoopDescriptor.GetsTo, hcontrol, Option.some.injEq, exists_eq_left', h.loopNode]
    rfl
  simp only [hgets, hreaches]
  constructor
  · rintro ⟨k, rfl, hearlier, hnow⟩
    refine ⟨by omega, hearlier.imp_right fun hall j hstart hlt => ?_, hnow⟩
    have hj := hall (j - start).toNat (by omega)
    rwa [Int.toNat_of_nonneg (by omega), add_sub_cancel] at hj
  · rintro ⟨hstart, hearlier, hnow⟩
    have hk : iv = start + (iv - start).toNat := by omega
    refine ⟨(iv - start).toNat, hk, hearlier.imp_right fun hall j hj => ?_, ?_⟩
    · exact hall (start + j) (by omega) (by omega)
    · rwa [← hk]

end Tests

section Chains

variable {F : Function} {SE : ScalarEvolution} {root : Loop} {nest : LoopNestDescriptor}

/-- What LoopInfo guarantees: a loop has the blocks of the loops inside it. -/
def ChainNested (root : Loop) : Prop :=
  (linearizePerfectNest root).Pairwise fun outer inner => inner.blocks ⊆ outer.blocks

theorem head?_linearizePerfectNest : (linearizePerfectNest root)[0]? = some root := by
  cases root
  rfl

theorem levelOf_le (block : BlockId) : nest.levelOf block ≤ nest.loops.length :=
  (List.takeWhile_prefix _).length_le

/-- A loop inside the level of a block has it. -/
theorem mem_of_lt_levelOf {block : BlockId} {i : Fin nest.loops.length}
    (hi : i < nest.levelOf block) : block ∈ nest.loops[i].loopNode.blocks := by
  have hmem := List.mem_takeWhile_imp (List.getElem_mem hi)
  have hloop := (List.takeWhile_prefix (p := fun loop : LoopDescriptor =>
    loop.loopNode.contains block) (l := nest.loops)).getElem hi
  rw [hloop] at hmem
  simpa [Loop.contains] using hmem

theorem levelOf_eq_length_iff {block : BlockId} : nest.levelOf block = nest.loops.length ↔
    ∀ loop ∈ nest.loops, block ∈ loop.loopNode.blocks := by
  constructor
  · intro hlevel loop hloop
    obtain ⟨i, hi, rfl⟩ := List.getElem_of_mem hloop
    exact @mem_of_lt_levelOf nest block ⟨i, hi⟩ (hi.trans_eq hlevel.symm)
  · intro h
    rw [LoopNestDescriptor.levelOf, List.takeWhile_eq_self_iff.mpr]
    intro loop hloop
    simpa [Loop.contains] using h loop hloop

variable (hnest : analyzeLoopNest F SE root = some nest) (hnested : ChainNested root)
  (hnatural : ∀ L ∈ linearizePerfectNest root, L.Natural F)

include hnest hnested hnatural

/-- A loop around a block leads to a block of its own. -/
theorem leadsTo_mem {block : BlockId} {i : Fin nest.loops.length} (hi : i < nest.levelOf block) :
    nest.leadsTo block i ∈ nest.loops[i].loopNode.blocks := by
  rw [LoopNestDescriptor.leadsTo]
  split_ifs with hnext
  · have hlt : (i : Nat) + 1 < nest.loops.length := hnext.trans_le (levelOf_le block)
    obtain ⟨_, hloops, _⟩ := describes_of_analyzeLoopNest hnest
    have hchain := map_loopNode hloops
    have hpair := List.pairwise_iff_getElem.mp hnested i (i + 1)
      (by rw [← hchain]; simp) (by rw [← hchain]; simpa using hlt) (Nat.lt_succ_self i)
    simp only [← hchain, List.getElem_map] at hpair
    rw [List.getElem?_eq_getElem hlt, Option.map_some, Option.getD_some]
    apply hpair
    obtain ⟨L, hL, hdescribes⟩ := exists_describes hnest (List.getElem_mem hlt)
    rw [hdescribes.loopNode]
    exact (hnatural L hL).header_mem
  · exact mem_of_lt_levelOf hi

/-- What the control flow tells of the loops around a block. -/
theorem levels_agree (block : BlockId) :
    (gatedLevels (nest.levelOf block) (nest.gates F block)).Agree (nest.levels F block) where
  level_eq := rfl
  predicate_eq := rfl
  ends_eq := by
    funext i start bound
    obtain ⟨L, _, hdescribes⟩ := exists_describes hnest (List.getElem_mem i.isLt)
    exact propext (hdescribes.ends_iff (nest.leadsTo block i) start bound)
  visits_iff := by
    intro i hi start bound iv
    obtain ⟨L, hL, hdescribes⟩ := exists_describes hnest (List.getElem_mem i.isLt)
    have hmem := leadsTo_mem hnest hnested hnatural hi
    exact hdescribes.getsTo_iff (hnatural L hL) (hdescribes.loopNode ▸ hmem) start bound iv

/-- The blocks of the innermost loop are those of all loops. -/
theorem mem_innermost_iff {block : BlockId} :
    (∃ innermost, (linearizePerfectNest root).getLast? = some innermost ∧
      block ∈ innermost.blocks) ↔ nest.levelOf block = nest.loops.length := by
  have hchain := map_loopNode (describes_of_analyzeLoopNest hnest).2.1
  have hne : linearizePerfectNest root ≠ [] := by
    cases root
    simp [linearizePerfectNest]
  obtain ⟨outer, innermost, hsplit⟩ := (List.eq_nil_or_concat' _).resolve_left hne
  rw [ChainNested, hsplit, List.pairwise_append] at hnested
  have hall : (∀ loop ∈ nest.loops, block ∈ loop.loopNode.blocks) ↔
      ∀ L ∈ linearizePerfectNest root, block ∈ L.blocks := by
    rw [← hchain, List.forall_mem_map]
  rw [levelOf_eq_length_iff, hall]
  simp only [hsplit, List.getLast?_concat, Option.some.injEq, exists_eq_left']
  constructor
  · intro h loop hloop
    rcases List.mem_append.mp hloop with hloop | hloop
    · exact hnested.2.2 loop hloop innermost (by simp) h
    · obtain rfl := List.mem_singleton.mp hloop
      exact h
  · intro h
    exact h innermost (by simp)

/-- The statements of a block that is executed are kept exactly where it is behind the
tests of all loops. -/
theorem statementsKept_iff_behindTests :
    StatementsKept F root nest ↔ StatementsBehindTests F root nest := by
  refine forall₂_congr fun block _ => forall₃_congr fun inst _ _ => ?_
  have hagree := levels_agree hnest hnested hnatural block
  rw [hagree.executed_iff, hagree.keepsExecutions_iff, executed_iff,
    mem_innermost_iff hnest hnested hnatural, ← levelOf_eq_length_iff]
  constructor
  · intro hkept
    by_contra hnot
    push Not at hnot
    obtain ⟨hlive, hnot⟩ := hnot
    obtain ⟨hlevel, hkeeps⟩ := hkept hlive
    obtain ⟨i, hi⟩ := hnot hlevel
    exact hi (((keepsExecutions_iff hlive (levelOf_le block)).mp hkeeps).2 i)
  · rintro (⟨i, hi, hdead⟩ | ⟨hlevel, hright⟩) hlive
    · exact absurd hdead (hlive i hi)
    · exact ⟨hlevel, (keepsExecutions_iff hlive (levelOf_le block)).mpr ⟨hlevel, hright⟩⟩

end Chains

section Program

theorem exampleOuter_nested : ChainNested exampleOuter := by
  simp [ChainNested, exampleOuter, exampleInner, linearizePerfectNest, linearizeOnlyChild,
    Loop.blocks]

/-- `A[0] = 0` in the inner loop. -/
def innerStore : Payload := { inner := [⟨40, .void, .store 8 30⟩] }

/-- `A[0] = 0` in front of the inner loop. -/
def outerStore : Payload := { outer := [⟨40, .void, .store 8 30⟩] }

/-- The store is behind the tests of both loops. -/
theorem innerStore_right (i : Fin 2) : ((exampleLoops [⟨.store, 40, 30, "A", []⟩]).gates
    (innerStore.function .slt) 4 i).Right := by
  match i with
  | 0 =>
      exact ⟨⟨_, rfl, fun huntested => absurd (untested_header huntested) (by decide)⟩, rfl⟩
  | 1 =>
      exact ⟨⟨_, rfl, fun huntested => absurd (untested_header huntested) (by decide)⟩, rfl⟩

end Program

end PolyhedralPass
