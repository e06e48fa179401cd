/-
Descriptors and instructions in step.  An interchange rewrites the PHI nodes and the
comparisons of two loops from their descriptors and swaps fields of the descriptors;
behind it the descriptors say of every loop of the nest what its instructions do.
-/
import PolyhedralPass.Placement
import Mathlib.Data.List.Find

namespace PolyhedralPass

section Agreement

variable (F : Function) (SE : ScalarEvolution)

/-- The descriptor of a loop says what its instructions do. -/
structure Agrees (loop : LoopDescriptor) : Prop where
  induction : loop.loopNode.canonicalInductionVariable F = some loop.induction
  start : ∃ preheader, loop.loopNode.loopPreheader F = some preheader ∧
    F.incomingValueForBlock loop.induction preheader = some loop.startValue
  next : ∃ latch, loop.loopNode.loopLatch F = some latch ∧
    F.incomingValueForBlock loop.induction latch = some loop.nextValue
  compare : ∃ type, F.inst? loop.compare =
    some ⟨loop.compare, type, .icmp loop.predicate loop.induction loop.boundValue⟩
  lower : loop.bounds.lower = SE.expr F (SE.getSCEV loop.startValue)
  step : ∃ type stepValue, F.inst? loop.nextValue =
    some ⟨loop.nextValue, type, .add loop.induction stepValue⟩ ∧
      SE.expr F (SE.getSCEV stepValue) = .ofConstant loop.bounds.step
  upper : loop.bounds.upper = SE.expr F (SE.getSCEV loop.boundValue)

variable {F SE}

/-- The edges into the header of a loop that agrees, with the values on them. -/
theorem Agrees.edges {loop : LoopDescriptor} (h : Agrees F SE loop) :
    ∃ preheader latch, loop.loopNode.incomingAndBackEdge F = some (preheader, latch) ∧
      loop.loopNode.loopPreheader F = some preheader ∧ loop.loopNode.loopLatch F = some latch ∧
      F.incomingValueForBlock loop.induction preheader = some loop.startValue ∧
      F.incomingValueForBlock loop.induction latch = some loop.nextValue ∧
      IsConst F loop.startValue 0 ∧ AddsOne F loop.induction loop.nextValue := by
  obtain ⟨preheader, hpreheader, hstart⟩ := h.start
  obtain ⟨latch, hlatch, hnext⟩ := h.next
  obtain ⟨hedges, hzero, hone⟩ := canonical_edges h.induction hpreheader hstart hlatch hnext
  exact ⟨preheader, latch, hedges, hpreheader, hlatch, hstart, hnext, hzero, hone⟩

theorem Agrees.phi {loop : LoopDescriptor} (h : Agrees F SE loop) :
    ∃ inst ∈ F.insts loop.loopNode.header, inst.value = loop.induction ∧
      ∃ incoming, inst.kind = .phi incoming :=
  phi_of_canonicalInductionVariable h.induction

/-- Loops of different headers have different induction variables. -/
theorem Agrees.induction_ne (hF : F.Distinct) {loop other : LoopDescriptor} (h : Agrees F SE loop)
    (h' : Agrees F SE other) (hne : loop.loopNode.header ≠ other.loopNode.header) :
    loop.induction ≠ other.induction := by
  intro heq
  obtain ⟨phi, hphi, hvalue, _⟩ := h.phi
  obtain ⟨phi', hphi', hvalue', _⟩ := h'.phi
  obtain ⟨i, _, hi⟩ := Function.exists_definedAt hphi
  obtain ⟨j, _, hj⟩ := Function.exists_definedAt hphi'
  rw [hvalue, heq] at hi
  rw [hvalue'] at hj
  exact hne (hF.definedAt_unique hi hj).1

/-- Nothing else has the name of an induction variable. -/
theorem Agrees.inst?_induction (hF : F.Distinct) {loop : LoopDescriptor} (h : Agrees F SE loop) :
    ∃ inst, F.inst? loop.induction = some inst ∧ inst.kind.isPhi = true := by
  obtain ⟨inst, hinst, hvalue, incoming, hkind⟩ := h.phi
  refine ⟨inst, ?_, by rw [hkind]; rfl⟩
  exact (Function.inst?_eq_some hF.values_nodup).mpr ⟨Function.mem_allInsts hinst, hvalue⟩

theorem Agrees.constant_induction (hF : F.Distinct) {loop : LoopDescriptor}
    (h : Agrees F SE loop) : F.constant loop.induction = none := by
  obtain ⟨inst, hinst, hvalue, _⟩ := h.phi
  exact hvalue ▸ hF.constants inst (Function.mem_allInsts hinst)

theorem IsConst.inst?_eq_none (hF : F.Distinct) {value : Value} {n : Nat} (h : IsConst F value n) :
    F.inst? value = none := by
  obtain ⟨c, hc, _⟩ := h
  cases hinst : F.inst? value with
  | none => rfl
  | some inst =>
      obtain ⟨hmem, rfl⟩ := (Function.inst?_eq_some hF.values_nodup).mp hinst
      rw [hF.constants inst hmem] at hc
      exact absurd hc (by simp)

end Agreement

section Exchange

variable (F : Function) (SE : ScalarEvolution) (outer inner : LoopDescriptor)
  (preOuter preInner : BlockId)

/-- Two loops whose descriptors agree, with the preheaders where they are entered. -/
structure Exchange : Prop where
  distinct : F.Distinct
  outer_agrees : Agrees F SE outer
  inner_agrees : Agrees F SE inner
  header_ne : outer.loopNode.header ≠ inner.loopNode.header
  outer_preheader : outer.loopNode.loopPreheader F = some preOuter
  inner_preheader : inner.loopNode.loopPreheader F = some preInner

variable {F SE outer inner preOuter preInner}

theorem Exchange.induction_ne (h : Exchange F SE outer inner preOuter preInner) :
    outer.induction ≠ inner.induction :=
  h.outer_agrees.induction_ne h.distinct h.inner_agrees h.header_ne

/-- No constant is renamed, and nothing is renamed to a constant. -/
theorem Exchange.isConst_swapUse (h : Exchange F SE outer inner preOuter preInner)
    (block : BlockId) (user : Inst) (value : Value) (n : Nat) :
    IsConst F (swapUse F outer inner block user value) n ↔ IsConst F value n := by
  have houter := h.outer_agrees.constant_induction h.distinct
  have hinner := h.inner_agrees.constant_induction h.distinct
  unfold swapUse IsConst
  split_ifs with hvalue _ hvalue' _
  · rfl
  · simp [hvalue, houter, hinner]
  · rfl
  · simp [hvalue', houter, hinner]
  · rfl

theorem swapKind_eq_add_iff {block : BlockId} {inst : Inst} {lhs rhs : Value} :
    swapKind F preOuter preInner outer inner block inst = .add lhs rhs ↔
      ∃ lhs' rhs', inst.kind = .add lhs' rhs' ∧ lhs = swapUse F outer inner block inst lhs' ∧
        rhs = swapUse F outer inner block inst rhs' := by
  obtain ⟨value, type, kind⟩ := inst
  constructor
  · intro hadd
    cases kind with
    | add lhs' rhs' =>
        simp only [swapKind, controlKind, InstKind.setIncoming, InstKind.setBound, ite_self,
          InstKind.mapOperands, InstKind.add.injEq] at hadd
        exact ⟨lhs', rhs', rfl, hadd.1.symm, hadd.2.symm⟩
    | phi incoming =>
        obtain ⟨incoming', hphi⟩ : ∃ incoming', controlKind preOuter preInner outer inner
            ⟨value, type, .phi incoming⟩ = .phi incoming' :=
          exists_controlKind_phi preOuter preInner outer inner rfl
        rw [swapKind, hphi] at hadd
        exact absurd hadd (by simp [InstKind.mapOperands])
    | icmp predicate left right =>
        obtain ⟨bound, hicmp⟩ : ∃ bound, controlKind preOuter preInner outer inner
            ⟨value, type, .icmp predicate left right⟩ = .icmp predicate left bound :=
          controlKind_icmp preOuter preInner outer inner rfl
        rw [swapKind, hicmp] at hadd
        exact absurd hadd (by simp [InstKind.mapOperands])
    | _ =>
        simp only [swapKind, controlKind, InstKind.setIncoming, InstKind.setBound, ite_self,
          InstKind.mapOperands, reduceCtorEq] at hadd
  · rintro ⟨lhs', rhs', hkind, rfl, rfl⟩
    simp only at hkind
    subst hkind
    simp only [swapKind, controlKind, InstKind.setIncoming, InstKind.setBound, ite_self,
      InstKind.mapOperands]

theorem inst?_mapInsts_eq_some_iff (hF : F.Distinct) {f : BlockId → Inst → InstKind}
    {value : Value} {inst : Inst} : (F.mapInsts f).inst? value = some inst ↔
      ∃ block, ∃ old ∈ F.insts block, old.value = value ∧
        inst = { old with kind := f block old } := by
  rw [Function.inst?_eq_some hF.mapInsts.values_nodup]
  constructor
  · rintro ⟨hinst, hvalue⟩
    obtain ⟨block, hblock⟩ := Function.exists_block_of_mem hF.mapInsts.blocks_nodup hinst
    rw [Function.insts_mapInsts] at hblock
    obtain ⟨old, hold, rfl⟩ := List.mem_map.mp hblock
    exact ⟨block, old, hold, hvalue, rfl⟩
  · rintro ⟨block, old, hold, hvalue, rfl⟩
    exact ⟨Function.mem_allInsts (mem_insts_mapInsts hold), hvalue⟩

/-- The increments of a third PHI node stay. -/
theorem Exchange.addsOne_iff (h : Exchange F SE outer inner preOuter preInner) {phi value : Value}
    (houter : phi ≠ outer.induction) (hinner : phi ≠ inner.induction) :
    AddsOne (F.mapInsts (swapKind F preOuter preInner outer inner)) phi value ↔
      AddsOne F phi value := by
  constructor
  · rintro ⟨inst, type, rhs, hinst, hone⟩
    obtain ⟨block, old, hold, hvalue, heq⟩ := (inst?_mapInsts_eq_some_iff h.distinct).mp hinst
    obtain ⟨lhs', rhs', hkind, hlhs, rfl⟩ := swapKind_eq_add_iff.mp (Inst.mk.inj heq).2.2.symm
    obtain rfl : lhs' = phi := by
      unfold swapUse at hlhs
      split_ifs at hlhs
      · exact hlhs.symm
      · exact absurd hlhs hinner
      · exact hlhs.symm
      · exact absurd hlhs houter
      · exact hlhs.symm
    refine ⟨old.value, old.type, rhs', ?_, (h.isConst_swapUse _ _ _ _).mp hone⟩
    refine (Function.inst?_eq_some h.distinct.values_nodup).mpr ⟨?_, hvalue⟩
    rw [← hkind]
    exact Function.mem_allInsts hold
  · rintro ⟨inst, type, rhs, hinst, hone⟩
    obtain ⟨hmem, hvalue⟩ := (Function.inst?_eq_some h.distinct.values_nodup).mp hinst
    obtain ⟨block, hblock⟩ := Function.exists_block_of_mem h.distinct.blocks_nodup hmem
    refine ⟨inst, type, swapUse F outer inner block ⟨inst, type, .add phi rhs⟩ rhs, ?_,
      (h.isConst_swapUse _ _ _ _).mpr hone⟩
    refine (inst?_mapInsts_eq_some_iff h.distinct).mpr ⟨block, _, hblock, hvalue, ?_⟩
    congr 1
    exact (swapKind_eq_add_iff.mpr ⟨phi, rhs, rfl, (swapUse_of_ne houter hinner).symm, rfl⟩).symm

theorem not_phi_of_addsOne_swap (hF : F.Distinct) {phi value : Value}
    (h : AddsOne (F.mapInsts (swapKind F preOuter preInner outer inner)) phi value) :
    ∃ inst, F.inst? value = some inst ∧ inst.kind.isPhi = false := by
  obtain ⟨inst, type, rhs, hinst, _⟩ := h
  obtain ⟨block, old, hold, hvalue, heq⟩ := (inst?_mapInsts_eq_some_iff hF).mp hinst
  obtain ⟨lhs', rhs', hkind, _⟩ := swapKind_eq_add_iff.mp (Inst.mk.inj heq).2.2.symm
  exact ⟨old, (Function.inst?_eq_some hF.values_nodup).mpr ⟨Function.mem_allInsts hold, hvalue⟩,
    by rw [hkind]; rfl⟩

theorem AddsOne.not_phi {phi value : Value} (h : AddsOne F phi value) :
    ∃ inst, F.inst? value = some inst ∧ inst.kind.isPhi = false := by
  obtain ⟨inst, type, rhs, hinst, _⟩ := h
  exact ⟨_, hinst, rfl⟩

/-- An induction variable is a PHI node. -/
theorem Agrees.ne_of_not_phi (hF : F.Distinct) {loop : LoopDescriptor} (h : Agrees F SE loop)
    {value : Value} (hnot : ∃ inst, F.inst? value = some inst ∧ inst.kind.isPhi = false) :
    value ≠ loop.induction := by
  rintro rfl
  obtain ⟨inst, hinst, hphi⟩ := h.inst?_induction hF
  obtain ⟨inst', hinst', hkind⟩ := hnot
  obtain rfl := Option.some.inj (hinst.symm.trans hinst')
  rw [hphi] at hkind
  exact absurd hkind (by simp)

theorem Exchange.swapUse_of_not_phi (h : Exchange F SE outer inner preOuter preInner)
    {value : Value} (hnot : ∃ inst, F.inst? value = some inst ∧ inst.kind.isPhi = false)
    (block : BlockId) (user : Inst) : swapUse F outer inner block user value = value :=
  swapUse_of_ne (h.outer_agrees.ne_of_not_phi h.distinct hnot)
    (h.inner_agrees.ne_of_not_phi h.distinct hnot)

theorem Exchange.swapUse_of_isConst (h : Exchange F SE outer inner preOuter preInner)
    {value : Value} {n : Nat} (hconst : IsConst F value n) (block : BlockId) (user : Inst) :
    swapUse F outer inner block user value = value := by
  obtain ⟨c, hc, _⟩ := hconst
  apply swapUse_of_ne
  · rintro rfl
    rw [h.outer_agrees.constant_induction h.distinct] at hc
    exact absurd hc (by simp)
  · rintro rfl
    rw [h.inner_agrees.constant_induction h.distinct] at hc
    exact absurd hc (by simp)

/-- A renamed operand is a sum just when the operand was. -/
theorem Exchange.addsOne_swapUse_iff (h : Exchange F SE outer inner preOuter preInner)
    {phi value : Value} (houter : phi ≠ outer.induction) (hinner : phi ≠ inner.induction)
    (block : BlockId) (user : Inst) :
    AddsOne (F.mapInsts (swapKind F preOuter preInner outer inner)) phi
      (swapUse F outer inner block user value) ↔ AddsOne F phi value := by
  rw [← h.addsOne_iff houter hinner]
  by_cases hvalue : value = outer.induction ∨ value = inner.induction
  · have hno : ∀ loop, loop = outer ∨ loop = inner → ¬ AddsOne
        (F.mapInsts (swapKind F preOuter preInner outer inner)) phi loop.induction := by
      rintro loop (rfl | rfl) hadds
      · exact h.outer_agrees.ne_of_not_phi h.distinct (not_phi_of_addsOne_swap h.distinct hadds) rfl
      · exact h.inner_agrees.ne_of_not_phi h.distinct (not_phi_of_addsOne_swap h.distinct hadds) rfl
    have houter' := hno outer (Or.inl rfl)
    have hinner' := hno inner (Or.inr rfl)
    rw [swapUse]
    rcases hvalue with rfl | rfl
    · split_ifs <;> simp [houter', hinner']
    · split_ifs <;> simp [houter', hinner']
  · rw [not_or] at hvalue
    rw [swapUse_of_ne hvalue.1 hvalue.2]

/-- The control of a loop keeps its induction variable. -/
theorem swapUse_own (hne : outer.induction ≠ inner.induction) {loop : LoopDescriptor}
    (hloop : loop = outer ∨ loop = inner) {block : BlockId} {user : Inst}
    (hcontrol : loop.isControlInst F block user = true) :
    swapUse F outer inner block user loop.induction = loop.induction := by
  rcases hloop with rfl | rfl
  · rw [swapUse, if_pos rfl, if_pos hcontrol]
  · rw [swapUse, if_neg hne.symm, if_pos rfl, if_pos hcontrol]

/-- The increment of each of the two loops stays as it is. -/
theorem inst?_next_swap (hF : F.Distinct) (hne : outer.induction ≠ inner.induction)
    {loop : LoopDescriptor} (hloop : loop = outer ∨ loop = inner) {value : Value} {type : IRType}
    {rhs : Value} (hinst : F.inst? loop.nextValue = some ⟨value, type, .add loop.induction rhs⟩)
    (hstep : ∀ block user, swapUse F outer inner block user rhs = rhs) :
    (F.mapInsts (swapKind F preOuter preInner outer inner)).inst? loop.nextValue =
      some ⟨value, type, .add loop.induction rhs⟩ := by
  obtain ⟨hmem, hvalue⟩ := (Function.inst?_eq_some hF.values_nodup).mp hinst
  obtain ⟨block, hblock⟩ := Function.exists_block_of_mem hF.blocks_nodup hmem
  have hown : swapUse F outer inner block ⟨value, type, .add loop.induction rhs⟩ loop.induction =
      loop.induction := by
    apply swapUse_own hne hloop
    have hnext : value = loop.nextValue := hvalue
    simp [LoopDescriptor.isControlInst, hnext]
  refine (inst?_mapInsts_eq_some_iff hF).mpr ⟨block, _, hblock, hvalue, ?_⟩
  congr 1
  exact (swapKind_eq_add_iff.mpr ⟨loop.induction, rhs, rfl, hown.symm,
    (hstep block _).symm⟩).symm

theorem Exchange.addsOne_own (h : Exchange F SE outer inner preOuter preInner)
    {loop : LoopDescriptor} (hloop : loop = outer ∨ loop = inner)
    (hadds : AddsOne F loop.induction loop.nextValue) :
    AddsOne (F.mapInsts (swapKind F preOuter preInner outer inner)) loop.induction
      loop.nextValue := by
  obtain ⟨inst, type, rhs, hinst, hone⟩ := hadds
  exact ⟨inst, type, rhs, inst?_next_swap h.distinct h.induction_ne hloop hinst
    fun _ _ => h.swapUse_of_isConst hone _ _, hone⟩

theorem find?_setFirstIncoming (block pred : BlockId) (value : Value)
    (incoming : List (Value × BlockId)) :
    ((InstKind.setFirstIncoming block value incoming).find? (·.2 == pred)).map Prod.fst =
      ((incoming.find? (·.2 == pred)).map Prod.fst).map
        fun old => if pred = block then value else old := by
  induction incoming with
  | nil => rfl
  | cons entry rest ih =>
      rw [InstKind.setFirstIncoming]
      by_cases hblock : entry.2 = block
      · rw [if_pos hblock, List.find?_cons, List.find?_cons, hblock]
        by_cases hpred : block = pred
        · simp [hpred]
        · have hne : (block == pred) = false := by simpa using hpred
          simp only [hne, if_neg (Ne.symm hpred), Option.map_id']
      · rw [if_neg hblock, List.find?_cons, List.find?_cons]
        by_cases hpred : entry.2 = pred
        · have hne : pred ≠ block := fun heq => hblock (hpred.trans heq)
          simp [hpred, hne]
        · have hfalse : (entry.2 == pred) = false := by simpa using hpred
          simp only [hfalse]
          exact ih

/-- The value a PHI node takes over an edge behind an interchange, before it is renamed. -/
def startFor (outer inner : LoopDescriptor) (preOuter preInner : BlockId) (phi : Value)
    (pred : BlockId) (old : Value) : Value :=
  if phi = inner.induction ∧ pred = preInner then outer.startValue
  else if phi = outer.induction ∧ pred = preOuter then inner.startValue
  else old

theorem find?_controlKind (preOuter preInner : BlockId) (hne : outer.induction ≠ inner.induction)
    {inst : Inst} {incoming : List (Value × BlockId)} (hkind : inst.kind = .phi incoming)
    (pred : BlockId) :
    ∃ incoming', controlKind preOuter preInner outer inner inst = .phi incoming' ∧
      (incoming'.find? (·.2 == pred)).map Prod.fst =
        ((incoming.find? (·.2 == pred)).map Prod.fst).map
          (startFor outer inner preOuter preInner inst.value pred) := by
  by_cases houter : inst.value = outer.induction
  · have hinner : inst.value ≠ inner.induction := fun heq => hne (houter.symm.trans heq)
    refine ⟨InstKind.setFirstIncoming preOuter inner.startValue incoming, ?_, ?_⟩
    · simp only [controlKind, hkind, if_pos houter, if_neg hinner, InstKind.setIncoming,
        InstKind.setBound, ite_self]
    · rw [find?_setFirstIncoming]
      congr 1
      funext old
      simp [startFor, houter, hne]
  · by_cases hinner : inst.value = inner.induction
    · refine ⟨InstKind.setFirstIncoming preInner outer.startValue incoming, ?_, ?_⟩
      · simp only [controlKind, hkind, if_neg houter, if_pos hinner, InstKind.setIncoming,
          InstKind.setBound, ite_self]
      · rw [find?_setFirstIncoming]
        congr 1
        funext old
        simp [startFor, hinner, hne.symm]
    · refine ⟨incoming, controlKind_phi preOuter preInner outer inner hkind houter hinner, ?_⟩
      have hid : startFor outer inner preOuter preInner inst.value pred = id := by
        funext old
        simp [startFor, houter, hinner]
      rw [hid, Option.map_id, id]

theorem Exchange.incoming_eq (h : Exchange F SE outer inner preOuter preInner) {block : BlockId}
    {inst : Inst} (hinst : inst ∈ F.insts block) {incoming : List (Value × BlockId)}
    (hkind : inst.kind = .phi incoming) (pred : BlockId) :
    (F.mapInsts (swapKind F preOuter preInner outer inner)).incomingValueForBlock inst.value pred =
      (F.incomingValueForBlock inst.value pred).map fun old =>
        swapUse F outer inner block inst
          (startFor outer inner preOuter preInner inst.value pred old) := by
  obtain ⟨incoming', hcontrol, hfind⟩ := find?_controlKind preOuter preInner h.induction_ne
    hkind pred
  have hmapped := mem_insts_mapInsts (f := swapKind F preOuter preInner outer inner) hinst
  have hkind' : swapKind F preOuter preInner outer inner block inst = .phi
      (incoming'.map fun entry => (swapUse F outer inner block inst entry.1, entry.2)) := by
    rw [swapKind, hcontrol, InstKind.mapOperands]
  have hnew := incomingValueForBlock_eq h.distinct.mapInsts hmapped hkind' pred
  have hold := incomingValueForBlock_eq h.distinct hinst hkind pred
  simp only at hnew
  rw [hnew, hold, List.find?_map, Option.map_map]
  have hrenamed := congrArg (Option.map (swapUse F outer inner block inst)) hfind
  rw [Option.map_map, Option.map_map (swapUse F outer inner block inst)] at hrenamed
  exact hrenamed

theorem predecessors_of_incomingAndBackEdge {L : Loop} {incoming backedge : BlockId}
    (h : L.incomingAndBackEdge F = some (incoming, backedge)) :
    incoming ≠ backedge ∧ (F.predecessors L.header = [incoming, backedge] ∨
      F.predecessors L.header = [backedge, incoming]) := by
  unfold Loop.incomingAndBackEdge at h
  split at h
  · rename_i a b hpreds
    split_ifs at h with hab hba
    · obtain ⟨rfl, rfl⟩ := Prod.mk.inj (Option.some.inj h)
      refine ⟨?_, Or.inr hpreds⟩
      rintro rfl
      simp at hab
    · obtain ⟨rfl, rfl⟩ := Prod.mk.inj (Option.some.inj h)
      refine ⟨?_, Or.inl hpreds⟩
      rintro rfl
      simp at hba
  · exact absurd h (by simp)

/-- Two loops with one header have the same edges into it, though perhaps the other way
round. -/
theorem edges_of_header_eq {L L' : Loop} (hheader : L.header = L'.header)
    {incoming backedge preheader latch : BlockId}
    (h : L.incomingAndBackEdge F = some (incoming, backedge))
    (h' : L'.incomingAndBackEdge F = some (preheader, latch)) :
    (incoming = preheader ∧ backedge = latch) ∨ (incoming = latch ∧ backedge = preheader) := by
  obtain ⟨_, hpreds⟩ := predecessors_of_incomingAndBackEdge h
  obtain ⟨_, hpreds'⟩ := predecessors_of_incomingAndBackEdge h'
  rw [hheader] at hpreds
  rcases hpreds with hpreds | hpreds <;> rcases hpreds' with hpreds' | hpreds' <;>
    simp [hpreds] at hpreds' <;> simp [hpreds']

/-- One of the two loops, the other one, and the preheader of the first. -/
def OneOf (outer inner : LoopDescriptor) (preOuter preInner : BlockId)
    (loop other : LoopDescriptor) (preheader : BlockId) : Prop :=
  (loop = outer ∧ other = inner ∧ preheader = preOuter) ∨
    (loop = inner ∧ other = outer ∧ preheader = preInner)

theorem Exchange.one_agrees (h : Exchange F SE outer inner preOuter preInner)
    {loop other : LoopDescriptor} {preheader : BlockId}
    (hloop : OneOf outer inner preOuter preInner loop other preheader) :
    Agrees F SE loop ∧ Agrees F SE other ∧ loop.loopNode.loopPreheader F = some preheader := by
  rcases hloop with ⟨rfl, rfl, rfl⟩ | ⟨rfl, rfl, rfl⟩
  · exact ⟨h.outer_agrees, h.inner_agrees, h.outer_preheader⟩
  · exact ⟨h.inner_agrees, h.outer_agrees, h.inner_preheader⟩

theorem Exchange.startFor_own (h : Exchange F SE outer inner preOuter preInner)
    {loop other : LoopDescriptor} {preheader : BlockId}
    (hloop : OneOf outer inner preOuter preInner loop other preheader) (pred : BlockId)
    (old : Value) : startFor outer inner preOuter preInner loop.induction pred old =
      if pred = preheader then other.startValue else old := by
  rcases hloop with ⟨rfl, rfl, rfl⟩ | ⟨rfl, rfl, rfl⟩
  · simp [startFor, h.induction_ne]
  · simp [startFor, h.induction_ne.symm]

/-- Each of the two loops starts with the value of the other one, and goes on with its own
increment. -/
theorem Exchange.own_edges (h : Exchange F SE outer inner preOuter preInner)
    {loop other : LoopDescriptor} {preheader : BlockId}
    (hloop : OneOf outer inner preOuter preInner loop other preheader) :
    ∃ latch, loop.loopNode.incomingAndBackEdge F = some (preheader, latch) ∧
      loop.loopNode.loopLatch F = some latch ∧
      F.incomingValueForBlock loop.induction preheader = some loop.startValue ∧
      F.incomingValueForBlock loop.induction latch = some loop.nextValue ∧
      IsConst F loop.startValue 0 ∧ AddsOne F loop.induction loop.nextValue ∧
      IsConst F other.startValue 0 ∧
      (F.mapInsts (swapKind F preOuter preInner outer inner)).incomingValueForBlock
        loop.induction preheader = some other.startValue ∧
      (F.mapInsts (swapKind F preOuter preInner outer inner)).incomingValueForBlock
        loop.induction latch = some loop.nextValue := by
  obtain ⟨hagrees, hother, hpreheader⟩ := h.one_agrees hloop
  obtain ⟨preheader', latch, hedges, hpreheader', hlatch, hstart, hnext, hzero, hone⟩ :=
    hagrees.edges
  obtain rfl : preheader' = preheader := Option.some.inj (hpreheader'.symm.trans hpreheader)
  obtain ⟨_, _, _, _, _, _, _, hzero', _⟩ := hother.edges
  obtain ⟨inst, hinst, hvalue, incoming, hkind⟩ := hagrees.phi
  have hne : latch ≠ preheader' := (predecessors_of_incomingAndBackEdge hedges).1.symm
  refine ⟨latch, hedges, hlatch, hstart, hnext, hzero, hone, hzero', ?_, ?_⟩
  · rw [← hvalue, h.incoming_eq hinst hkind, hvalue, hstart, Option.map_some,
      h.startFor_own hloop, if_pos rfl, h.swapUse_of_isConst hzero']
  · rw [← hvalue, h.incoming_eq hinst hkind, hvalue, hnext, Option.map_some,
      h.startFor_own hloop, if_neg hne, h.swapUse_of_not_phi hone.not_phi]

/-- The PHI node of one of the two loops is the canonical induction variable of a loop
when it was. -/
theorem Exchange.isCanonicalPhi_own (h : Exchange F SE outer inner preOuter preInner)
    {loop other : LoopDescriptor} {preheader : BlockId}
    (hloop : OneOf outer inner preOuter preInner loop other preheader) {L : Loop}
    (hheader : L.header = loop.loopNode.header) {incoming backedge : BlockId}
    (hedges : L.incomingAndBackEdge F = some (incoming, backedge)) :
    (F.mapInsts (swapKind F preOuter preInner outer inner)).isCanonicalPhi incoming backedge
        loop.induction = true ↔ F.isCanonicalPhi incoming backedge loop.induction = true := by
  obtain ⟨latch, hown, _, hstart, hnext, hzero, hone, hzero', hstart', hnext'⟩ :=
    h.own_edges hloop
  have hone' := h.addsOne_own (hloop.imp And.left And.left) hone
  rw [isCanonicalPhi_iff, isCanonicalPhi_iff]
  rcases edges_of_header_eq hheader hedges hown with ⟨rfl, rfl⟩ | ⟨rfl, rfl⟩
  · refine iff_of_true ⟨⟨_, hstart', hzero'⟩, _, hnext', hone'⟩ ⟨⟨_, hstart, hzero⟩, _, hnext, hone⟩
  · -- the increment is no constant
    have hnot : ¬ IsConst F loop.nextValue 0 := by
      intro hconst
      obtain ⟨_, hinst, _⟩ := hone.not_phi
      rw [hconst.inst?_eq_none h.distinct] at hinst
      exact absurd hinst (by simp)
    refine iff_of_false ?_ ?_
    · rintro ⟨⟨start, hfind, hconst⟩, _⟩
      obtain rfl := Option.some.inj (hnext'.symm.trans hfind)
      exact hnot hconst
    · rintro ⟨⟨start, hfind, hconst⟩, _⟩
      obtain rfl := Option.some.inj (hnext.symm.trans hfind)
      exact hnot hconst

/-- So is every other PHI node. -/
theorem Exchange.isCanonicalPhi_other (h : Exchange F SE outer inner preOuter preInner)
    {block : BlockId} {inst : Inst} (hinst : inst ∈ F.insts block)
    {entries : List (Value × BlockId)} (hkind : inst.kind = .phi entries)
    (houter : inst.value ≠ outer.induction) (hinner : inst.value ≠ inner.induction)
    (incoming backedge : BlockId) :
    (F.mapInsts (swapKind F preOuter preInner outer inner)).isCanonicalPhi incoming backedge
        inst.value = true ↔ F.isCanonicalPhi incoming backedge inst.value = true := by
  have hvalue : ∀ pred, (F.mapInsts
      (swapKind F preOuter preInner outer inner)).incomingValueForBlock inst.value pred =
      (F.incomingValueForBlock inst.value pred).map (swapUse F outer inner block inst) := by
    intro pred
    rw [h.incoming_eq hinst hkind]
    congr 1
    funext old
    simp [startFor, houter, hinner]
  have hconst : ∀ value, IsConst (F.mapInsts (swapKind F preOuter preInner outer inner))
      (swapUse F outer inner block inst value) 0 ↔ IsConst F value 0 :=
    fun value => h.isConst_swapUse block inst value 0
  simp only [isCanonicalPhi_iff, hvalue, Option.map_eq_some_iff, existsAndEq, and_true,
    h.addsOne_swapUse_iff houter hinner, hconst]

theorem map_phis (F : Function) (block : BlockId) : (F.phis block).map Prod.fst =
    ((F.insts block).filter (·.kind.isPhi)).map Inst.value := by
  unfold Function.phis
  induction F.insts block with
  | nil => rfl
  | cons inst rest ih =>
      obtain ⟨value, type, kind⟩ := inst
      cases kind with
      | phi incoming => simpa [InstKind.isPhi] using ih
      | _ => simpa [InstKind.isPhi] using ih

theorem map_phis_swapKind (block : BlockId) :
    ((F.mapInsts (swapKind F preOuter preInner outer inner)).phis block).map Prod.fst =
      (F.phis block).map Prod.fst := by
  have hphi : ∀ inst : Inst, (swapKind F preOuter preInner outer inner block inst).isPhi =
      inst.kind.isPhi := by
    intro inst
    rw [swapKind, InstKind.isPhi_mapOperands, isPhi_controlKind]
  rw [map_phis, map_phis, Function.insts_mapInsts, List.filter_map, List.map_map]
  simp only [Function.comp_def, hphi]

/-- Every loop of the function keeps its canonical induction variable. -/
theorem Exchange.canonicalInductionVariable_eq (h : Exchange F SE outer inner preOuter preInner)
    (L : Loop) :
    L.canonicalInductionVariable (F.mapInsts (swapKind F preOuter preInner outer inner)) =
      L.canonicalInductionVariable F := by
  rw [Loop.canonicalInductionVariable, Loop.canonicalInductionVariable,
    keepsBranches_swapKind.incomingAndBackEdge_eq, map_phis_swapKind]
  cases hentries : L.incomingAndBackEdge F with
  | none => rfl
  | some edges =>
      obtain ⟨incoming, backedge⟩ := edges
      simp only [Option.bind_some]
      apply List.find?_congr
      intro phi hphi
      obtain ⟨⟨value, entries⟩, hmem, rfl⟩ := List.mem_map.mp hphi
      obtain ⟨inst, hinst, rfl, hkind⟩ := mem_phis.mp hmem
      rw [Bool.eq_iff_iff]
      -- an induction variable stands in the header of its own loop only
      have hheader : ∀ loop, Agrees F SE loop → inst.value = loop.induction →
          L.header = loop.loopNode.header := by
        intro loop hloop heq
        obtain ⟨found, hfound, hvalue, _⟩ := hloop.phi
        obtain ⟨i, _, hi⟩ := Function.exists_definedAt hinst
        obtain ⟨j, _, hj⟩ := Function.exists_definedAt hfound
        rw [heq] at hi
        rw [hvalue] at hj
        exact (h.distinct.definedAt_unique hi hj).1
      by_cases houter : inst.value = outer.induction
      · have hown := h.isCanonicalPhi_own (Or.inl ⟨rfl, rfl, rfl⟩)
          (hheader outer h.outer_agrees houter) hentries
        rwa [← houter] at hown
      · by_cases hinner : inst.value = inner.induction
        · have hown := h.isCanonicalPhi_own (Or.inr ⟨rfl, rfl, rfl⟩)
            (hheader inner h.inner_agrees hinner) hentries
          rwa [← hinner] at hown
        · exact h.isCanonicalPhi_other hinst hkind houter hinner incoming backedge

/-- So every answer of ScalarEvolution translates to what it did. -/
theorem Exchange.expr_eq (h : Exchange F SE outer inner preOuter preInner) (scev : SCEV) :
    SE.expr (F.mapInsts (swapKind F preOuter preInner outer inner)) scev = SE.expr F scev := by
  simp only [ScalarEvolution.expr, h.canonicalInductionVariable_eq]

/-- A value that is not one of the two induction variables. -/
def Outside (outer inner : LoopDescriptor) (value : Value) : Prop :=
  value ≠ outer.induction ∧ value ≠ inner.induction

theorem Exchange.inst?_next (h : Exchange F SE outer inner preOuter preInner)
    {loop : LoopDescriptor} (hagrees : Agrees F SE loop) {type : IRType} {stepValue : Value}
    (hnext : F.inst? loop.nextValue = some ⟨loop.nextValue, type, .add loop.induction stepValue⟩)
    (hown : ∀ block user, user.value = loop.nextValue →
      swapUse F outer inner block user loop.induction = loop.induction) :
    (F.mapInsts (swapKind F preOuter preInner outer inner)).inst? loop.nextValue =
      some ⟨loop.nextValue, type, .add loop.induction stepValue⟩ := by
  obtain ⟨_, _, _, _, _, _, _, _, inst, type', rhs, hadd, hone⟩ := hagrees.edges
  obtain ⟨_, _, hkind⟩ := Inst.mk.inj (Option.some.inj (hadd.symm.trans hnext))
  obtain ⟨_, rfl⟩ := InstKind.add.inj hkind
  obtain ⟨hmem, _⟩ := (Function.inst?_eq_some h.distinct.values_nodup).mp hnext
  obtain ⟨block, hblock⟩ := Function.exists_block_of_mem h.distinct.blocks_nodup hmem
  refine (inst?_mapInsts_eq_some_iff h.distinct).mpr ⟨block, _, hblock, rfl, ?_⟩
  congr 1
  exact (swapKind_eq_add_iff.mpr ⟨loop.induction, rhs, rfl, (hown _ _ rfl).symm,
    (h.swapUse_of_isConst hone _ _).symm⟩).symm

theorem Agrees.compare_not_phi {loop : LoopDescriptor} (h : Agrees F SE loop) :
    ∃ inst, F.inst? loop.compare = some inst ∧ inst.kind.isPhi = false := by
  obtain ⟨type, hcompare⟩ := h.compare
  exact ⟨_, hcompare, rfl⟩

theorem Agrees.compare_ne {loop other : LoopDescriptor} (h : Agrees F SE loop)
    (h' : Agrees F SE other) (hne : loop.induction ≠ other.induction) :
    loop.compare ≠ other.compare := by
  intro heq
  obtain ⟨type, hcompare⟩ := h.compare
  obtain ⟨type', hcompare'⟩ := h'.compare
  rw [heq, hcompare', Option.some.injEq, Inst.mk.injEq, InstKind.icmp.injEq] at hcompare
  exact hne hcompare.2.2.2.1.symm

/-- A comparison of one of the two loops gets the bound of the other one, renamed as the
operands are. -/
theorem Exchange.inst?_compare_swap (h : Exchange F SE outer inner preOuter preInner)
    {loop other : LoopDescriptor} {preheader : BlockId}
    (hloop : OneOf outer inner preOuter preInner loop other preheader) : ∃ block type,
    F.inst? loop.compare =
      some ⟨loop.compare, type, .icmp loop.predicate loop.induction loop.boundValue⟩ ∧
    (F.mapInsts (swapKind F preOuter preInner outer inner)).inst? loop.compare =
      some ⟨loop.compare, type, .icmp loop.predicate loop.induction (swapUse F outer inner block
        ⟨loop.compare, type, .icmp loop.predicate loop.induction loop.boundValue⟩
        other.boundValue)⟩ := by
  have hcompares := h.outer_agrees.compare_ne h.inner_agrees h.induction_ne
  obtain ⟨hagrees, _⟩ := h.one_agrees hloop
  have houter := h.outer_agrees.ne_of_not_phi h.distinct hagrees.compare_not_phi
  have hinner := h.inner_agrees.ne_of_not_phi h.distinct hagrees.compare_not_phi
  obtain ⟨type, hcompare⟩ := hagrees.compare
  obtain ⟨hmem, _⟩ := (Function.inst?_eq_some h.distinct.values_nodup).mp hcompare
  obtain ⟨block, hblock⟩ := Function.exists_block_of_mem h.distinct.blocks_nodup hmem
  refine ⟨block, type, hcompare,
    (inst?_mapInsts_eq_some_iff h.distinct).mpr ⟨block, _, hblock, rfl, ?_⟩⟩
  have hcontrol : controlKind preOuter preInner outer inner
      ⟨loop.compare, type, .icmp loop.predicate loop.induction loop.boundValue⟩ =
      .icmp loop.predicate loop.induction other.boundValue := by
    simp only [controlKind, if_neg houter, if_neg hinner]
    rcases hloop with ⟨rfl, rfl, rfl⟩ | ⟨rfl, rfl, rfl⟩
    · rw [if_pos rfl, if_neg hcompares]
      rfl
    · rw [if_neg hcompares.symm, if_pos rfl]
      rfl
  have hown : swapUse F outer inner block ⟨loop.compare, type, .icmp loop.predicate loop.induction
      loop.boundValue⟩ loop.induction = loop.induction := by
    apply swapUse_own h.induction_ne (hloop.imp And.left And.left)
    simp [LoopDescriptor.isControlInst]
  simp only [swapKind, hcontrol, InstKind.mapOperands, hown]

theorem Exchange.inst?_compare_own (h : Exchange F SE outer inner preOuter preInner)
    {loop other : LoopDescriptor} {preheader : BlockId}
    (hloop : OneOf outer inner preOuter preInner loop other preheader)
    (hbound : Outside outer inner other.boundValue) : ∃ type,
    (F.mapInsts (swapKind F preOuter preInner outer inner)).inst? loop.compare =
      some ⟨loop.compare, type, .icmp loop.predicate loop.induction other.boundValue⟩ := by
  obtain ⟨block, type, _, hcompare⟩ := h.inst?_compare_swap hloop
  rw [swapUse_of_ne hbound.1 hbound.2] at hcompare
  exact ⟨type, hcompare⟩

/-- Behind an interchange the descriptor of each of the two loops agrees again. -/
theorem Exchange.agrees_own (h : Exchange F SE outer inner preOuter preInner)
    {loop other : LoopDescriptor} {preheader : BlockId}
    (hloop : OneOf outer inner preOuter preInner loop other preheader)
    (hbound : Outside outer inner other.boundValue) (hstep : loop.bounds.step = other.bounds.step) :
    Agrees (F.mapInsts (swapKind F preOuter preInner outer inner)) SE
      (loop.withBoundsOf other) := by
  obtain ⟨hagrees, hother, hpreheader⟩ := h.one_agrees hloop
  obtain ⟨latch, hedges, hlatch, _, _, _, _, _, hstart, hnext⟩ := h.own_edges hloop
  obtain ⟨type, stepValue, hadd, hvalue⟩ := hagrees.step
  constructor
  · rw [h.canonicalInductionVariable_eq]
    exact hagrees.induction
  · refine ⟨preheader, ?_, hstart⟩
    rw [keepsBranches_swapKind.loopPreheader_eq]
    exact hpreheader
  · refine ⟨latch, ?_, hnext⟩
    rw [keepsBranches_swapKind.loopLatch_eq]
    exact hlatch
  · have hcompare := h.inst?_compare_own hloop hbound
    exact hcompare
  · rw [h.expr_eq]
    exact hother.lower
  · refine ⟨type, stepValue, h.inst?_next hagrees hadd ?_, ?_⟩
    · intro block user huser
      exact swapUse_own h.induction_ne (hloop.imp And.left And.left)
        (by simp [LoopDescriptor.isControlInst, huser])
    · rw [h.expr_eq, hvalue, hstep]
      rfl
  · rw [h.expr_eq]
    exact hother.upper

/-- The control of a loop is what it was. -/
structure ControlKept (F F' : Function) (loop : LoopDescriptor) : Prop where
  edges : ∀ pred ∈ F.predecessors loop.loopNode.header,
    F'.incomingValueForBlock loop.induction pred = F.incomingValueForBlock loop.induction pred
  next : F'.inst? loop.nextValue = F.inst? loop.nextValue
  compare : F'.inst? loop.compare = F.inst? loop.compare

/-- The control of a third loop is not touched. -/
theorem Exchange.controlKept_other (h : Exchange F SE outer inner preOuter preInner)
    {loop : LoopDescriptor} (hagrees : Agrees F SE loop)
    (hinduction : Outside outer inner loop.induction)
    (hbound : Outside outer inner loop.boundValue) :
    ControlKept F (F.mapInsts (swapKind F preOuter preInner outer inner)) loop := by
  obtain ⟨preheader, latch, hedges, _, _, hstart, hnext, hzero, hone⟩ := hagrees.edges
  constructor
  · obtain ⟨inst, hinst, hvalue, incoming, hkind⟩ := hagrees.phi
    have hsame : ∀ pred old, F.incomingValueForBlock loop.induction pred = some old →
        (∀ block user, swapUse F outer inner block user old = old) →
        (F.mapInsts (swapKind F preOuter preInner outer inner)).incomingValueForBlock
          loop.induction pred = F.incomingValueForBlock loop.induction pred := by
      intro pred old hold hrenamed
      rw [← hvalue] at hold ⊢
      rw [h.incoming_eq hinst hkind, hold, Option.map_some, hvalue, startFor,
        if_neg (fun hboth => hinduction.2 hboth.1), if_neg (fun hboth => hinduction.1 hboth.1),
        hrenamed]
    have hpre := hsame preheader _ hstart fun block user => h.swapUse_of_isConst hzero block user
    have hback := hsame latch _ hnext fun block user => h.swapUse_of_not_phi hone.not_phi block user
    intro pred hpred
    rcases (predecessors_of_incomingAndBackEdge hedges).2 with hpreds | hpreds
    · rw [hpreds] at hpred
      rcases List.mem_pair.mp hpred with rfl | rfl
      · exact hpre
      · exact hback
    · rw [hpreds] at hpred
      rcases List.mem_pair.mp hpred with rfl | rfl
      · exact hback
      · exact hpre
  · obtain ⟨type, stepValue, hadd, _⟩ := hagrees.step
    rw [hadd, h.inst?_next hagrees hadd fun block user _ => swapUse_of_ne hinduction.1 hinduction.2]
  · obtain ⟨type, hcompare⟩ := hagrees.compare
    obtain ⟨hmem, _⟩ := (Function.inst?_eq_some h.distinct.values_nodup).mp hcompare
    obtain ⟨block, hblock⟩ := Function.exists_block_of_mem h.distinct.blocks_nodup hmem
    have houter := h.outer_agrees.ne_of_not_phi h.distinct hagrees.compare_not_phi
    have hinner := h.inner_agrees.ne_of_not_phi h.distinct hagrees.compare_not_phi
    have hcontrol : controlKind preOuter preInner outer inner
        ⟨loop.compare, type, .icmp loop.predicate loop.induction loop.boundValue⟩ =
        .icmp loop.predicate loop.induction loop.boundValue := by
      simp only [controlKind, if_neg houter, if_neg hinner,
        if_neg (hagrees.compare_ne h.outer_agrees hinduction.1),
        if_neg (hagrees.compare_ne h.inner_agrees hinduction.2)]
    rw [hcompare]
    refine (inst?_mapInsts_eq_some_iff h.distinct).mpr ⟨block, _, hblock, rfl, ?_⟩
    simp only [swapKind, hcontrol, InstKind.mapOperands,
      swapUse_of_ne hinduction.1 hinduction.2, swapUse_of_ne hbound.1 hbound.2]

/-- So its descriptor still agrees. -/
theorem Exchange.agrees_other (h : Exchange F SE outer inner preOuter preInner)
    {loop : LoopDescriptor} (hagrees : Agrees F SE loop)
    (hkept : ControlKept F (F.mapInsts (swapKind F preOuter preInner outer inner)) loop) :
    Agrees (F.mapInsts (swapKind F preOuter preInner outer inner)) SE loop := by
  obtain ⟨preheader, latch, hedges, hpreheader, hlatch, hstart, hnext, _⟩ := hagrees.edges
  have hpreds := (predecessors_of_incomingAndBackEdge hedges).2
  constructor
  · rw [h.canonicalInductionVariable_eq]
    exact hagrees.induction
  · refine ⟨preheader, ?_, ?_⟩
    · rw [keepsBranches_swapKind.loopPreheader_eq]
      exact hpreheader
    · rw [hkept.edges preheader (by rcases hpreds with heq | heq <;> simp [heq])]
      exact hstart
  · refine ⟨latch, ?_, ?_⟩
    · rw [keepsBranches_swapKind.loopLatch_eq]
      exact hlatch
    · rw [hkept.edges latch (by rcases hpreds with heq | heq <;> simp [heq])]
      exact hnext
  · rw [hkept.compare]
    exact hagrees.compare
  · rw [h.expr_eq]
    exact hagrees.lower
  · rw [hkept.next]
    simp only [h.expr_eq]
    exact hagrees.step
  · rw [h.expr_eq]
    exact hagrees.upper

end Exchange

section Nest

variable {SE : ScalarEvolution} {nest : LoopNestDescriptor} {editor : Editor}

/-- The renaming of the operands of one instruction: a use of either induction variable becomes a
use of the other one, but for the uses in the control of its own loop. -/
structure RenamesUses (F : Function) (outer inner : LoopDescriptor) (block : BlockId) (user : Inst)
    (rename : Value → Value) : Prop where
  outer_use : outer.isControlInst F block user = false →
    rename outer.induction = inner.induction
  outer_control : outer.isControlInst F block user = true →
    rename outer.induction = outer.induction
  inner_use : inner.isControlInst F block user = false →
    rename inner.induction = outer.induction
  inner_control : inner.isControlInst F block user = true →
    rename inner.induction = inner.induction
  other : ∀ value, value ≠ outer.induction → value ≠ inner.induction → rename value = value

/-- Besides the control of the two loops, only the uses and the names of the two induction
variables are new. -/
structure PayloadRenamed (F F' : Function) (outer inner : LoopDescriptor) : Prop where
  insts : ∃ f, F' = { F.mapInsts f with name := F'.name } ∧ ∀ block inst,
    inst.value ∉ [outer.induction, outer.compare, inner.induction, inner.compare] →
      ∃ rename, RenamesUses F outer inner block inst rename ∧
        f block inst = inst.kind.mapOperands rename
  names : ∀ value, value ≠ outer.induction → value ≠ inner.induction →
    F'.name value = F.name value

theorem renamesUses_swapUse {F : Function} {outer inner : LoopDescriptor}
    (hne : inner.induction ≠ outer.induction) (block : BlockId) (user : Inst) :
    RenamesUses F outer inner block user (swapUse F outer inner block user) where
  outer_use h := by simp [swapUse, h]
  outer_control h := by simp [swapUse, h]
  inner_use h := by simp [swapUse, hne, h]
  inner_control h := by simp [swapUse, hne, h]
  other value houter hinner := by rw [swapUse, if_neg houter, if_neg hinner]

theorem Agrees.named {F : Function} {loop : LoopDescriptor} (h : Agrees F SE loop)
    (name : Value → Option String) : Agrees { F with name } SE loop :=
  ⟨h.induction, h.start, h.next, h.compare, h.lower, h.step, h.upper⟩

theorem ControlKept.named {F F' : Function} {loop : LoopDescriptor} (h : ControlKept F F' loop)
    (name : Value → Option String) : ControlKept F { F' with name } loop :=
  ⟨h.edges, h.next, h.compare⟩

theorem step_of_isRectangularNest (h : isRectangularNest nest = true) {loop : LoopDescriptor}
    (hloop : loop ∈ nest.loops) : loop.bounds.step = 1 := by
  obtain ⟨k, hk, rfl⟩ := List.getElem_of_mem hloop
  have hall := List.all_eq_true.mp h k (List.mem_range.mpr hk)
  rw [List.getElem?_eq_getElem hk] at hall
  simp only [Bool.and_eq_true] at hall
  exact beq_iff_eq.mp hall.1

theorem Agrees.startBlock_ok {loop : LoopDescriptor} (h : Agrees editor.function SE loop) :
    ∃ preheader, editor.startBlock loop = .ok preheader ∧
      loop.loopNode.loopPreheader editor.function = some preheader := by
  obtain ⟨preheader, hpreheader, hstart⟩ := h.start
  exact ⟨preheader, by simp [Editor.startBlock, hpreheader, hstart], hpreheader⟩

theorem header_ne_of_getElem? (hheaders : (nest.loops.map fun loop => loop.loopNode.header).Nodup)
    {i k : Nat} {loop other : LoopDescriptor} (hloop : nest.loops[i]? = some loop)
    (hother : nest.loops[k]? = some other) (hne : i ≠ k) :
    loop.loopNode.header ≠ other.loopNode.header := by
  obtain ⟨hi, rfl⟩ := List.getElem?_eq_some_iff.mp hloop
  obtain ⟨hk, rfl⟩ := List.getElem?_eq_some_iff.mp hother
  intro heq
  have hi' : i < (nest.loops.map fun loop => loop.loopNode.header).length := by
    rwa [List.length_map]
  have hk' : k < (nest.loops.map fun loop => loop.loopNode.header).length := by
    rwa [List.length_map]
  have hsame : (nest.loops.map fun loop => loop.loopNode.header)[i] =
      (nest.loops.map fun loop => loop.loopNode.header)[k] := by
    rwa [List.getElem_map, List.getElem_map]
  exact hne ((List.Nodup.getElem_inj_iff hheaders).mp hsame)

/-- The loops behind an interchange, by their places. -/
theorem getElem?_swapBounds {idxOuter idxInner : Nat} (hne : idxOuter ≠ idxInner)
    {outer inner : LoopDescriptor} (houter : nest.loops[idxOuter]? = some outer)
    (hinner : nest.loops[idxInner]? = some inner) (k : Nat) :
    (nest.swapBounds idxOuter idxInner outer inner).loops[k]? =
      if k = idxOuter then some (outer.withBoundsOf inner)
      else if k = idxInner then some (inner.withBoundsOf outer) else nest.loops[k]? := by
  have hltOuter := (List.getElem?_eq_some_iff.mp houter).1
  have hltInner := (List.getElem?_eq_some_iff.mp hinner).1
  simp only [LoopNestDescriptor.swapBounds, List.getElem?_set, List.length_set]
  split_ifs <;> first | rfl | omega

/-- An interchange of any two loops of a nest keeps descriptors and instructions in step. -/
theorem applyLoopInterchange_agrees (SE : ScalarEvolution) (editor : Editor)
    (renamed : Function → Value → String)
    (hF : editor.function.Distinct)
    (hheaders : (nest.loops.map fun loop => loop.loopNode.header).Nodup)
    (hagrees : ∀ loop ∈ nest.loops, Agrees editor.function SE loop)
    (hrectangular : isRectangularNest nest = true)
    (hbounds : ∀ loop ∈ nest.loops, ∀ other ∈ nest.loops, loop.boundValue ≠ other.induction)
    {idxOuter idxInner : Nat} (hne : idxOuter ≠ idxInner) {outer inner : LoopDescriptor}
    (houter : nest.loops[idxOuter]? = some outer) (hinner : nest.loops[idxInner]? = some inner)
    (htype : editor.function.type outer.induction = editor.function.type inner.induction) :
    ∃ nest' editor',
      applyLoopInterchange renamed nest idxOuter idxInner editor = .ok (true, nest', editor') ∧
      nest' = nest.swapBounds idxOuter idxInner outer inner ∧
      (∀ loop ∈ nest'.loops, Agrees editor'.function SE loop) ∧
      (∀ k loop, k ≠ idxOuter → k ≠ idxInner → nest.loops[k]? = some loop →
        nest'.loops[k]? = some loop ∧ ControlKept editor.function editor'.function loop) ∧
      PayloadRenamed editor.function editor'.function outer inner := by
  have houterMem := List.mem_of_getElem? houter
  have hinnerMem := List.mem_of_getElem? hinner
  obtain ⟨preOuter, hstartOuter, hpreOuter⟩ := (hagrees outer houterMem).startBlock_ok
  obtain ⟨preInner, hstartInner, hpreInner⟩ := (hagrees inner hinnerMem).startBlock_ok
  have hexchange : Exchange editor.function SE outer inner preOuter preInner :=
    ⟨hF, hagrees outer houterMem, hagrees inner hinnerMem,
      header_ne_of_getElem? hheaders houter hinner hne, hpreOuter, hpreInner⟩
  have happly : ∃ editor', applyLoopInterchange renamed nest idxOuter idxInner editor =
      .ok (true, nest.swapBounds idxOuter idxInner outer inner, editor') := by
    simp only [applyLoopInterchange, houter, hinner, htype, ne_eq, not_true, if_false, hstartOuter,
      hstartInner]
    exact ⟨_, rfl⟩
  obtain ⟨editor', happly⟩ := happly
  obtain ⟨outer', inner', preOuter', preInner', hswap⟩ := applyLoopInterchange_ok happly
  obtain rfl := Option.some.inj (houter.symm.trans hswap.getElem_outer)
  obtain rfl := Option.some.inj (hinner.symm.trans hswap.getElem_inner)
  obtain rfl := Except.ok.inj (hstartOuter.symm.trans hswap.startBlock_outer)
  obtain rfl := Except.ok.inj (hstartInner.symm.trans hswap.startBlock_inner)
  obtain ⟨name, hfunction⟩ := hswap.function_eq
  have houtside : ∀ loop ∈ nest.loops, Outside outer inner loop.boundValue := fun loop hloop =>
    ⟨hbounds loop hloop outer houterMem, hbounds loop hloop inner hinnerMem⟩
  have hsteps : outer.bounds.step = inner.bounds.step := by
    rw [step_of_isRectangularNest hrectangular houterMem,
      step_of_isRectangularNest hrectangular hinnerMem]
  have hkept : ∀ k loop, k ≠ idxOuter → k ≠ idxInner → nest.loops[k]? = some loop →
      ControlKept editor.function (editor.function.mapInsts
        (swapKind editor.function preOuter preInner outer inner)) loop := by
    intro k loop hkOuter hkInner hloop
    have hmem := List.mem_of_getElem? hloop
    refine hexchange.controlKept_other (hagrees loop hmem) ⟨?_, ?_⟩ (houtside loop hmem)
    · exact (hagrees loop hmem).induction_ne hF (hagrees outer houterMem)
        (header_ne_of_getElem? hheaders hloop houter hkOuter)
    · exact (hagrees loop hmem).induction_ne hF (hagrees inner hinnerMem)
        (header_ne_of_getElem? hheaders hloop hinner hkInner)
  refine ⟨_, editor', happly, rfl, ?_, ?_, ?_⟩
  · intro loop hloop
    obtain ⟨k, hk⟩ := List.getElem?_of_mem hloop
    rw [getElem?_swapBounds hne houter hinner] at hk
    rw [hfunction]
    refine Agrees.named ?_ name
    split_ifs at hk with hkOuter hkInner
    · obtain rfl := Option.some.inj hk
      exact hexchange.agrees_own (Or.inl ⟨rfl, rfl, rfl⟩) (houtside inner hinnerMem) hsteps
    · obtain rfl := Option.some.inj hk
      exact hexchange.agrees_own (Or.inr ⟨rfl, rfl, rfl⟩) (houtside outer houterMem) hsteps.symm
    · exact hexchange.agrees_other (hagrees loop (List.mem_of_getElem? hk))
        (hkept k loop hkOuter hkInner hk)
  · intro k loop hkOuter hkInner hloop
    rw [getElem?_swapBounds hne houter hinner, if_neg hkOuter, if_neg hkInner, hfunction]
    exact ⟨hloop, (hkept k loop hkOuter hkInner hloop).named name⟩
  · have hinduction : inner.induction ≠ outer.induction :=
      (hagrees inner hinnerMem).induction_ne hF (hagrees outer houterMem)
        (header_ne_of_getElem? hheaders hinner houter hne.symm)
    refine ⟨⟨_, by rw [hfunction], fun block inst hinst => ?_⟩, hswap.name_eq⟩
    refine ⟨_, renamesUses_swapUse hinduction block inst, ?_⟩
    simp only [List.mem_cons, List.not_mem_nil, or_false, not_or] at hinst
    obtain ⟨hphi, hcompare, hphi', hcompare'⟩ := hinst
    simp only [swapKind, controlKind, if_neg hphi, if_neg hphi', if_neg hcompare, if_neg hcompare']

end Nest

section Analysed

variable {F : Function} {SE : ScalarEvolution}

theorem getSExtValue_one {width : Nat} (h : 1 < width) : getSExtValue (1 : BitVec width) = 1 := by
  have hone : (1 : BitVec width).toInt = 1 := BitVec.toInt_one h
  rw [getSExtValue, hone]
  rfl

/-- A constant of the function translates to its value. -/
theorem IsConst.expr_eq {loops : List Loop} (hSE : SE.Sound F loops) {value : Value} {n : Nat}
    (h : IsConst F value n) : ∃ c, F.constant value = some c ∧
      SE.expr F (SE.getSCEV value) = .ofConstant (getSExtValue (BitVec.ofNat c.width n)) := by
  obtain ⟨c, hc, hbits⟩ := h
  exact ⟨c, hc, by rw [hSE.constant value c hc, expr_constant, beq_iff_eq.mp hbits]⟩

theorem value_of_inst? {value : Value} {inst : Inst} (h : F.inst? value = some inst) :
    inst.value = value := by
  simpa using List.find?_some h

/-- The analysis describes loops as they are. -/
theorem Describes.agrees {loops : List Loop} (hSE : SE.Sound F loops) {L : Loop} (hL : L ∈ loops)
    {loop : LoopDescriptor} (h : Describes F SE L loop) {w : Nat} (htyped : loop.Typed F w)
    (hw : 1 < w) : Agrees F SE loop := by
  have hnode := h.loopNode
  obtain ⟨preheader, hpreheader, hstart⟩ := h.preheader
  obtain ⟨latch, hlatch, hback⟩ := h.latch
  obtain ⟨_, hzero, inst, type, rhs, hadd, hone⟩ :=
    canonical_edges h.induction hpreheader hstart hlatch hback
  obtain rfl : inst = loop.nextValue := value_of_inst? hadd
  subst hnode
  constructor
  · exact h.induction
  · exact ⟨preheader, hpreheader, hstart⟩
  · exact ⟨latch, hlatch, hback⟩
  · obtain ⟨_, _, _, _, cond, _, _, _, type', hcond⟩ := h.exit
    obtain rfl : loop.compare = cond := value_of_inst? hcond
    exact ⟨type', hcond⟩
  · obtain ⟨c, _, hexpr⟩ := hzero.expr_eq hSE
    rw [h.lower_eq hSE hL, hexpr]
    exact congrArg AffineExpr.ofConstant (getSExtValue_zero c.width).symm
  · obtain ⟨c, hc, hexpr⟩ := hone.expr_eq hSE
    refine ⟨type, rhs, hadd, ?_⟩
    have hwidth : 1 < c.width := by
      rw [htyped.step _ _ _ _ hadd c hc]
      exact hw
    have hstep : loop.bounds.step = 1 := by
      obtain ⟨start, step, header, hscev, _, _, hbound, hpos⟩ := h.recurrence
      obtain ⟨width, hcanonical⟩ := hSE.canonical _ hL loop.induction h.induction
      rw [hcanonical, SCEV.addRec.injEq] at hscev
      obtain ⟨_, rfl, _⟩ := hscev
      rw [hbound, expr_constant] at hpos ⊢
      match width with
      | 0 => exact absurd hpos (by decide)
      | 1 => exact absurd hpos (by decide)
      | width + 2 => exact getSExtValue_one (by omega)
    rw [hexpr, hstep]
    exact congrArg AffineExpr.ofConstant (getSExtValue_one hwidth)
  · exact h.upper

end Analysed

section Program

theorem deepNest_agrees : ∀ loop ∈ deepNest.loops, Agrees deepFunction deepEvolution loop := by
  intro loop hloop
  obtain ⟨L, hL, hdescribes⟩ := exists_describes analyzeLoopNest_deepOuter hloop
  have htyped : loop.Typed deepFunction 32 := by
    simp only [deepNest, List.mem_cons, List.not_mem_nil, or_false] at hloop
    rcases hloop with rfl | rfl | rfl <;> exact typed_of_constants rfl rfl rfl
  exact hdescribes.agrees deepEvolution_sound hL htyped (by decide)

/-- The loops over `i` and `k` change places around the one over `j`. -/
theorem deepNest_interchange_agrees : ∃ nest' editor',
    applyLoopInterchange (fun _ _ => "i") deepNest 0 2 (.ofFunction deepFunction 100) =
      .ok (true, nest', editor') ∧
    nest' = deepNest.swapBounds 0 2 (deepDescriptor deepOuter 1 5 11 10 "i" 8)
      (deepDescriptor deepInner 3 7 13 15 "k" 24) ∧
    (∀ loop ∈ nest'.loops, Agrees editor'.function deepEvolution loop) ∧
    (∀ k loop, k ≠ 0 → k ≠ 2 → deepNest.loops[k]? = some loop →
      nest'.loops[k]? = some loop ∧ ControlKept deepFunction editor'.function loop) ∧
    PayloadRenamed deepFunction editor'.function (deepDescriptor deepOuter 1 5 11 10 "i" 8)
      (deepDescriptor deepInner 3 7 13 15 "k" 24) :=
  applyLoopInterchange_agrees deepEvolution (.ofFunction deepFunction 100) (fun _ _ => "i")
    ⟨by decide, by decide, by decide⟩ (by decide) deepNest_agrees (by decide) (by decide)
    (by decide) rfl rfl rfl

end Program

end PolyhedralPass
