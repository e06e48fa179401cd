/-
Where interchange and tiling put values to new uses, and whether the definitions
of these values dominate the new places.
-/
import PolyhedralPass.Coverage
import PolyhedralPass.Legality
import PolyhedralPass.Nesting
import PolyhedralPass.Rewiring
import PolyhedralPass.Swap

namespace PolyhedralPass

open Flow Relation

section Descriptors

variable {F : Function} {SE : ScalarEvolution} {L : Loop} {loop : LoopDescriptor}

/-- The start of an induction variable is a constant, its increment an addition. -/
theorem Describes.start_next (h : Describes F SE L loop) :
    (∃ c, F.constant loop.startValue = some c) ∧
      ∃ value type lhs rhs, F.inst? loop.nextValue = some ⟨value, type, .add lhs rhs⟩ := by
  obtain ⟨preheader, hpreheader, hstart⟩ := h.preheader
  obtain ⟨latch, hlatch, hnext⟩ := h.latch
  obtain ⟨_, ⟨c, hc, _⟩, value, type, rhs, hinst, _⟩ :=
    canonical_edges h.induction hpreheader hstart hlatch hnext
  exact ⟨⟨c, hc⟩, value, type, loop.induction, rhs, hinst⟩

theorem Describes.compare_mem (hF : F.Distinct) (h : Describes F SE L loop) :
    ∃ inst ∈ F.allInsts, inst.value = loop.compare ∧
      inst.kind = .icmp loop.predicate loop.induction loop.boundValue := by
  obtain ⟨_, _, _, _, cond, _, _, _, type, hcond⟩ := h.exit
  exact ⟨_, ((Function.inst?_eq_some hF.values_nodup).mp hcond).1, rfl, rfl⟩

/-- The comparison of a loop, wherever it is found. -/
theorem Describes.compare_kind (hF : F.Distinct) (h : Describes F SE L loop) {inst : Inst}
    (hinst : inst ∈ F.allInsts) (hvalue : inst.value = loop.compare) :
    inst.kind = .icmp loop.predicate loop.induction loop.boundValue := by
  obtain ⟨found, hfound, hcompare, hkind⟩ := h.compare_mem hF
  rwa [Function.eq_of_value_eq hF.values_nodup hinst hfound (hvalue.trans hcompare.symm)]

/-- The induction variable of a loop, wherever it is found. -/
theorem Describes.induction_kind (hF : F.Distinct) (h : Describes F SE L loop) {inst : Inst}
    {block : BlockId} (hinst : inst ∈ F.insts block) (hvalue : inst.value = loop.induction) :
    block = L.header ∧ ∃ incoming, inst.kind = .phi incoming := by
  obtain ⟨found, hfound, hinduction, incoming, hkind⟩ := h.phi
  obtain ⟨i, _, hi⟩ := Function.exists_definedAt hinst
  obtain ⟨j, _, hj⟩ := Function.exists_definedAt hfound
  rw [hvalue] at hi
  rw [hinduction] at hj
  refine ⟨(hF.definedAt_unique hi hj).1, incoming, ?_⟩
  rwa [Function.eq_of_value_eq hF.values_nodup (Function.mem_allInsts hinst)
    (Function.mem_allInsts hfound) (hvalue.trans hinduction.symm)]

theorem Describes.exists_induction (h : Describes F SE L loop) :
    ∃ index, F.DefinedAt loop.induction L.header index := by
  obtain ⟨inst, hinst, hvalue, _⟩ := h.phi
  obtain ⟨index, _, hindex⟩ := Function.exists_definedAt hinst
  exact ⟨index, hvalue ▸ hindex⟩

theorem Describes.start_ne (hF : F.Distinct) (h : Describes F SE L loop) {L' : Loop}
    {other : LoopDescriptor} (h' : Describes F SE L' other) :
    loop.startValue ≠ other.induction := by
  obtain ⟨c, hc⟩ := h.start_next.1
  obtain ⟨index, hdef⟩ := h'.exists_induction
  intro heq
  exact hF.not_definedAt hc _ _ (heq ▸ hdef)

/-- Loops of different headers have different induction variables. -/
theorem Describes.induction_ne (hF : F.Distinct) (h : Describes F SE L loop) {L' : Loop}
    {other : LoopDescriptor} (h' : Describes F SE L' other) (hne : L.header ≠ L'.header) :
    loop.induction ≠ other.induction := by
  intro heq
  obtain ⟨i, hi⟩ := h.exists_induction
  obtain ⟨j, hj⟩ := h'.exists_induction
  exact hne (hF.definedAt_unique (heq ▸ hi) hj).1

/-- The comparison of one loop is not in the control of another one. -/
theorem isControlInst_compare (hF : F.Distinct) (h : Describes F SE L loop)
    {L' : Loop} {other : LoopDescriptor} (h' : Describes F SE L' other)
    (hne : loop.induction ≠ other.induction) {inst : Inst} (hinst : inst ∈ F.allInsts)
    (hvalue : inst.value = loop.compare) (block : BlockId) :
    other.isControlInst F block inst = false := by
  have hkind := h.compare_kind hF hinst hvalue
  have hnext : inst.value ≠ other.nextValue := by
    intro heq
    obtain ⟨value, type, lhs, rhs, hfind⟩ := h'.start_next.2
    obtain ⟨hmem, hval⟩ := (Function.inst?_eq_some hF.values_nodup).mp hfind
    have hsame := Function.eq_of_value_eq hF.values_nodup hinst hmem (heq.trans hval.symm)
    rw [hsame] at hkind
    exact absurd hkind (by simp)
  have hcompare : inst.value ≠ other.compare := by
    intro heq
    have hkind' := h'.compare_kind hF hinst heq
    rw [hkind, InstKind.icmp.injEq] at hkind'
    exact hne hkind'.2.1
  simp [LoopDescriptor.isControlInst, hnext, hcompare, hkind, InstKind.isPhi]

end Descriptors

section Swap

variable (F : Function) (SE : ScalarEvolution) (entry : BlockId) (outer inner : LoopDescriptor)

/-- Two loops of a nest, the second one inside the first. -/
structure LoopPair : Prop where
  ssa : F.SSAForm entry
  describes_outer : Describes F SE outer.loopNode outer
  describes_inner : Describes F SE inner.loopNode inner
  headed_outer : outer.loopNode.Headed F entry
  headed_inner : inner.loopNode.Headed F entry
  header_mem : inner.loopNode.header ∈ outer.loopNode.blocks
  header_ne : inner.loopNode.header ≠ outer.loopNode.header

/-- The bounds are there at the comparison of the other loop, and the induction
variable of the inner loop wherever that of the outer one is used, but for the
control of the outer loop and the bound of the inner one. -/
structure SwapEarly : Prop where
  bound_inner : inner.boundValue = inner.induction ∨ ∀ block index,
    F.DefinedAt outer.compare block index → F.Available entry inner.boundValue (.before block index)
  bound_outer : outer.boundValue = outer.induction ∨ ∀ block index,
    F.DefinedAt inner.compare block index → F.Available entry outer.boundValue (.before block index)
  uses : ∀ block index inst place, (F.insts block)[index]? = some inst →
    (outer.induction, place) ∈ inst.kind.slots block index → inst.value ≠ inner.compare →
    outer.isControlInst F block inst = false → F.Available entry inner.induction place

variable {F SE entry outer inner}

theorem LoopPair.induction_ne (h : LoopPair F SE entry outer inner) :
    outer.induction ≠ inner.induction :=
  h.describes_outer.induction_ne h.ssa.distinct h.describes_inner h.header_ne.symm

theorem LoopPair.dominates (h : LoopPair F SE entry outer inner) :
    Dominates F.Edge entry outer.loopNode.header inner.loopNode.header :=
  h.headed_outer.dominates _ h.header_mem

/-- Behind the PHI node of the inner loop there is that of the outer one. -/
theorem LoopPair.available_outer (h : LoopPair F SE entry outer inner) {place : Place}
    (hinner : F.Available entry inner.induction place) :
    F.Available entry outer.induction place := by
  obtain ⟨i, hi⟩ := h.describes_outer.exists_induction
  obtain ⟨j, hj⟩ := h.describes_inner.exists_induction
  intro block index hdef
  obtain ⟨rfl, rfl⟩ := h.ssa.distinct.definedAt_unique hi hdef
  have hprecedes := hinner _ _ hj
  cases place with
  | before b k =>
      simp only [Function.Precedes] at hprecedes ⊢
      have hbehind : Dominates F.Edge entry inner.loopNode.header b := by
        split_ifs at hprecedes with heq
        · exact heq ▸ dominates_refl entry _
        · exact hprecedes
      split_ifs with heq
      · -- the header of the inner loop would dominate the one it is dominated by
        rw [heq] at hbehind
        exact absurd (hbehind.antisymm h.dominates h.headed_inner.reachable) h.header_ne
      · exact h.dominates.trans hbehind
  | endOf b => exact h.dominates.trans hprecedes

theorem swapUse_of_ne {block : BlockId} {user : Inst} {value : Value}
    (houter : value ≠ outer.induction) (hinner : value ≠ inner.induction) :
    swapUse F outer inner block user value = value := by
  rw [swapUse, if_neg houter, if_neg hinner]

/-- The operands the comparison of the outer loop gets. -/
theorem LoopPair.swapUse_compare_outer (h : LoopPair F SE entry outer inner) {block : BlockId}
    {inst : Inst} (hinst : inst ∈ F.insts block) (hvalue : inst.value = outer.compare)
    (value : Value) : swapUse F outer inner block inst value =
      if value = inner.induction then outer.induction else value := by
  have hfree := isControlInst_compare h.ssa.distinct h.describes_outer h.describes_inner
    h.induction_ne
    (Function.mem_allInsts hinst) hvalue block
  have hcontrol : outer.isControlInst F block inst = true := by
    simp [LoopDescriptor.isControlInst, hvalue]
  simp only [swapUse, hcontrol, hfree, if_true, Bool.false_eq_true, if_false]
  split_ifs with houter hinner
  · exact absurd (houter.symm.trans hinner) h.induction_ne
  · rfl
  · rfl
  · rfl

/-- The operands the comparison of the inner loop gets. -/
theorem LoopPair.swapUse_compare_inner (h : LoopPair F SE entry outer inner) {block : BlockId}
    {inst : Inst} (hinst : inst ∈ F.insts block) (hvalue : inst.value = inner.compare)
    (value : Value) : swapUse F outer inner block inst value =
      if value = outer.induction then inner.induction else value := by
  have hfree := isControlInst_compare h.ssa.distinct h.describes_inner h.describes_outer
    h.induction_ne.symm
    (Function.mem_allInsts hinst) hvalue block
  have hcontrol : inner.isControlInst F block inst = true := by
    simp [LoopDescriptor.isControlInst, hvalue]
  simp only [swapUse, hcontrol, hfree, if_true, Bool.false_eq_true, if_false, ite_self]

theorem mem_slots_controlKind {preOuter preInner block : BlockId} {index : Nat} {inst : Inst}
    {slot : Value × Place}
    (h : slot ∈ (controlKind preOuter preInner outer inner inst).slots block index) :
    slot ∈ inst.kind.slots block index ∨
      (slot.1 = inner.startValue ∨ slot.1 = outer.startValue) ∨
      (inst.value = outer.compare ∧ slot = (inner.boundValue, .before block index)) ∨
      (inst.value = inner.compare ∧ slot = (outer.boundValue, .before block index)) := by
  have hincoming : ∀ (p : Prop) [Decidable p] (pred : BlockId) (value : Value) (kind : InstKind),
      slot ∈ (if p then kind.setIncoming pred value else kind).slots block index →
      slot ∈ kind.slots block index ∨ slot.1 = value := by
    intro p _ pred value kind hslot
    split_ifs at hslot with hp
    · exact InstKind.mem_slots_setIncoming hslot
    · exact Or.inl hslot
  have hbound : ∀ (p : Prop) [Decidable p] (bound : Value) (kind : InstKind),
      slot ∈ (if p then kind.setBound bound else kind).slots block index →
      slot ∈ kind.slots block index ∨ (p ∧ slot = (bound, .before block index)) := by
    intro p _ bound kind hslot
    split_ifs at hslot with hp
    · exact (InstKind.mem_slots_setBound hslot).imp_right fun heq => ⟨hp, heq⟩
    · exact Or.inl hslot
  rcases hbound _ _ _ h with h | h
  · rcases hbound _ _ _ h with h | h
    · rcases hincoming _ _ _ _ h with h | h
      · rcases hincoming _ _ _ _ h with h | h
        · exact Or.inl h
        · exact Or.inr (Or.inl (Or.inl h))
      · exact Or.inr (Or.inl (Or.inr h))
    · exact Or.inr (Or.inr (Or.inl h))
  · exact Or.inr (Or.inr (Or.inr h))

theorem slots_icmp {kind : InstKind} {predicate : Predicate} {lhs rhs : Value}
    (h : kind = .icmp predicate lhs rhs) (block : BlockId) (index : Nat) :
    kind.slots block index = [(lhs, .before block index), (rhs, .before block index)] := by
  rw [h]
  rfl

/-- A value the control of the two loops keeps, behind the exchange of the induction
variables. -/
theorem LoopPair.available_swapUse (h : LoopPair F SE entry outer inner)
    (hearly : SwapEarly F entry outer inner) {block : BlockId} {index : Nat} {inst : Inst}
    (hinst : (F.insts block)[index]? = some inst) {value : Value} {place : Place}
    (hslot : (value, place) ∈ inst.kind.slots block index) :
    F.Available entry (swapUse F outer inner block inst value) place := by
  have hkept := h.ssa.dominated value place ⟨block, index, inst, hinst, hslot⟩
  rw [swapUse]
  split_ifs with houter hcontrol hinner hcontrol
  · exact hkept
  · subst houter
    by_cases hcompare : inst.value = inner.compare
    · -- the comparison has the induction variable of its own loop beside the bound
      have hslots := slots_icmp (h.describes_inner.compare_kind h.ssa.distinct
        (Function.mem_allInsts (List.mem_of_getElem? hinst)) hcompare) block index
      have hplace : place = .before block index := by
        rw [hslots] at hslot
        rcases List.mem_pair.mp hslot with heq | heq <;> exact (Prod.mk.inj heq).2
      refine h.ssa.dominated _ _ ⟨block, index, inst, hinst, ?_⟩
      rw [hslots, hplace]
      exact List.mem_cons_self
    · exact hearly.uses block index inst place hinst hslot hcompare (by simpa using hcontrol)
  · exact hkept
  · exact h.available_outer (hinner ▸ hkept)
  · exact hkept

/-- With bounds and uses in good order an interchange keeps dominance. -/
theorem LoopPair.usesDominated (h : LoopPair F SE entry outer inner)
    (hearly : SwapEarly F entry outer inner) (preOuter preInner : BlockId) :
    (F.mapInsts (swapKind F preOuter preInner outer inner)).UsesDominated entry := by
  intro value place huse
  obtain ⟨block, index, inst, hinst, hslot⟩ := Function.uses_mapInsts.mp huse
  rw [keepsBranches_swapKind.available_iff]
  rw [swapKind, InstKind.slots_mapOperands] at hslot
  obtain ⟨⟨operand, place'⟩, hoperand, heq⟩ := List.mem_map.mp hslot
  obtain ⟨rfl, rfl⟩ := Prod.mk.inj heq
  have hmem := List.mem_of_getElem? hinst
  rcases mem_slots_controlKind hoperand with hslot | hstart | ⟨hvalue, hbound⟩ | ⟨hvalue, hbound⟩
  · exact h.available_swapUse hearly hinst hslot
  · rcases hstart with rfl | rfl
    · rw [swapUse_of_ne (h.describes_inner.start_ne h.ssa.distinct h.describes_outer)
        (h.describes_inner.start_ne h.ssa.distinct h.describes_inner)]
      obtain ⟨c, hc⟩ := h.describes_inner.start_next.1
      exact h.ssa.distinct.available_constant hc place'
    · rw [swapUse_of_ne (h.describes_outer.start_ne h.ssa.distinct h.describes_outer)
        (h.describes_outer.start_ne h.ssa.distinct h.describes_inner)]
      obtain ⟨c, hc⟩ := h.describes_outer.start_next.1
      exact h.ssa.distinct.available_constant hc place'
  · obtain ⟨rfl, rfl⟩ := Prod.mk.inj hbound
    rw [h.swapUse_compare_outer hmem hvalue]
    split_ifs with hinner
    · refine h.ssa.dominated _ _ ⟨block, index, inst, hinst, ?_⟩
      rw [slots_icmp (h.describes_outer.compare_kind h.ssa.distinct (Function.mem_allInsts hmem)
        hvalue)]
      exact List.mem_cons_self
    · exact hearly.bound_inner.resolve_left hinner block index ⟨inst, hinst, hvalue⟩
  · obtain ⟨rfl, rfl⟩ := Prod.mk.inj hbound
    rw [h.swapUse_compare_inner hmem hvalue]
    split_ifs with houter
    · refine h.ssa.dominated _ _ ⟨block, index, inst, hinst, ?_⟩
      rw [slots_icmp (h.describes_inner.compare_kind h.ssa.distinct (Function.mem_allInsts hmem)
        hvalue)]
      exact List.mem_cons_self
    · exact hearly.bound_outer.resolve_left houter block index ⟨inst, hinst, hvalue⟩

theorem Describes.compare_ne_induction (hF : F.Distinct) {L L' : Loop}
    {loop other : LoopDescriptor} (h : Describes F SE L loop) (h' : Describes F SE L' other)
    {block : BlockId} {inst : Inst} (hinst : inst ∈ F.insts block)
    (hvalue : inst.value = loop.compare) : inst.value ≠ other.induction := by
  intro heq
  obtain ⟨_, incoming, hphi⟩ := h'.induction_kind hF hinst heq
  rw [h.compare_kind hF (Function.mem_allInsts hinst) hvalue] at hphi
  exact absurd hphi (by simp)

/-- The comparison of the outer loop with the bound of the inner one. -/
theorem LoopPair.controlKind_outer (h : LoopPair F SE entry outer inner) {block : BlockId}
    {inst : Inst} (hinst : inst ∈ F.insts block) (hvalue : inst.value = outer.compare)
    (preOuter preInner : BlockId) : controlKind preOuter preInner outer inner inst =
      .icmp outer.predicate outer.induction inner.boundValue := by
  have hkind := h.describes_outer.compare_kind h.ssa.distinct (Function.mem_allInsts hinst) hvalue
  have hne : inst.value ≠ inner.compare := by
    intro heq
    have hkind' := h.describes_inner.compare_kind h.ssa.distinct (Function.mem_allInsts hinst) heq
    rw [hkind, InstKind.icmp.injEq] at hkind'
    exact h.induction_ne hkind'.2.1
  rw [controlKind, if_neg (h.describes_outer.compare_ne_induction h.ssa.distinct h.describes_outer
      hinst hvalue),
    if_neg (h.describes_outer.compare_ne_induction h.ssa.distinct h.describes_inner hinst hvalue),
    if_pos hvalue, if_neg hne, hkind, InstKind.setBound]

/-- The comparison of the inner loop with the bound of the outer one. -/
theorem LoopPair.controlKind_inner (h : LoopPair F SE entry outer inner) {block : BlockId}
    {inst : Inst} (hinst : inst ∈ F.insts block) (hvalue : inst.value = inner.compare)
    (preOuter preInner : BlockId) : controlKind preOuter preInner outer inner inst =
      .icmp inner.predicate inner.induction outer.boundValue := by
  have hkind := h.describes_inner.compare_kind h.ssa.distinct (Function.mem_allInsts hinst) hvalue
  have hne : inst.value ≠ outer.compare := by
    intro heq
    have hkind' := h.describes_outer.compare_kind h.ssa.distinct (Function.mem_allInsts hinst) heq
    rw [hkind, InstKind.icmp.injEq] at hkind'
    exact h.induction_ne hkind'.2.1.symm
  rw [controlKind, if_neg (h.describes_inner.compare_ne_induction h.ssa.distinct h.describes_outer
      hinst hvalue),
    if_neg (h.describes_inner.compare_ne_induction h.ssa.distinct h.describes_inner hinst hvalue),
    if_neg hne, if_pos hvalue, hkind, InstKind.setBound]

/-- The other uses of the induction variable of the outer loop are still there. -/
theorem LoopPair.mem_slots_controlKind (h : LoopPair F SE entry outer inner) {block : BlockId}
    {index : Nat} {inst : Inst} (hinst : inst ∈ F.insts block) {place : Place}
    (hslot : (outer.induction, place) ∈ inst.kind.slots block index)
    (hcompare : inst.value ≠ inner.compare) (hcontrol : outer.isControlInst F block inst = false)
    (preOuter : BlockId) {preInner : BlockId}
    (hstart : F.incomingValueForBlock inner.induction preInner = some inner.startValue) :
    (outer.induction, place) ∈
      (controlKind preOuter preInner outer inner inst).slots block index := by
  simp only [LoopDescriptor.isControlInst, Bool.or_eq_false_iff, Bool.and_eq_false_iff,
    beq_eq_false_iff_ne] at hcontrol
  have houter : inst.value ≠ outer.induction := by
    intro heq
    obtain ⟨hblock, incoming, hphi⟩ := h.describes_outer.induction_kind h.ssa.distinct hinst heq
    rcases hcontrol.2 with hnot | hnot
    · simp [hphi, InstKind.isPhi] at hnot
    · exact hnot.1 hblock
  rw [controlKind, if_neg houter, if_neg hcontrol.1.2, if_neg hcompare]
  split_ifs with hinner
  · obtain ⟨_, incoming, hphi⟩ := h.describes_inner.induction_kind h.ssa.distinct hinst hinner
    rw [← hinner, incomingValueForBlock_eq h.ssa.distinct hinst hphi] at hstart
    obtain ⟨first, hfirst, hvalue⟩ := Option.map_eq_some_iff.mp hstart
    rw [hphi] at hslot ⊢
    obtain ⟨incomingEntry, hentry, heq⟩ := List.mem_map.mp hslot
    refine List.mem_map.mpr ⟨incomingEntry, InstKind.mem_setFirstIncoming_of_mem hentry ?_, heq⟩
    rw [hfirst]
    rintro heq'
    obtain rfl := Option.some.inj heq'
    exact h.describes_inner.start_ne h.ssa.distinct h.describes_outer
      (hvalue.symm.trans (Prod.mk.inj heq).1)
  · exact hslot

/-- A dominating use behind an interchange shows what was in good order before. -/
theorem LoopPair.swapEarly (h : LoopPair F SE entry outer inner) {preOuter preInner : BlockId}
    (hused : (F.mapInsts (swapKind F preOuter preInner outer inner)).UsesDominated entry)
    (hstart : F.incomingValueForBlock inner.induction preInner = some inner.startValue) :
    SwapEarly F entry outer inner := by
  have havailable : ∀ block index inst, (F.insts block)[index]? = some inst → ∀ value place,
      (value, place) ∈ (controlKind preOuter preInner outer inner inst).slots block index →
      F.Available entry (swapUse F outer inner block inst value) place := by
    intro block index inst hinst value place hslot
    rw [← keepsBranches_swapKind.available_iff]
    refine hused _ _ (Function.uses_mapInsts.mpr ⟨block, index, inst, hinst, ?_⟩)
    rw [swapKind, InstKind.slots_mapOperands]
    exact List.mem_map.mpr ⟨(value, place), hslot, rfl⟩
  refine ⟨or_iff_not_imp_left.mpr ?_, or_iff_not_imp_left.mpr ?_, ?_⟩
  · rintro hne block index ⟨inst, hinst, hvalue⟩
    have hmem := List.mem_of_getElem? hinst
    have hslots := slots_icmp (h.controlKind_outer hmem hvalue preOuter preInner) block index
    have hbound := havailable block index inst hinst inner.boundValue (.before block index)
      (by simp [hslots])
    rwa [h.swapUse_compare_outer hmem hvalue, if_neg hne] at hbound
  · rintro hne block index ⟨inst, hinst, hvalue⟩
    have hmem := List.mem_of_getElem? hinst
    have hslots := slots_icmp (h.controlKind_inner hmem hvalue preOuter preInner) block index
    have hbound := havailable block index inst hinst outer.boundValue (.before block index)
      (by simp [hslots])
    rwa [h.swapUse_compare_inner hmem hvalue, if_neg hne] at hbound
  · intro block index inst place hinst hslot hcompare hcontrol
    have huse := havailable block index inst hinst outer.induction place
      (h.mem_slots_controlKind (List.mem_of_getElem? hinst) hslot hcompare hcontrol preOuter hstart)
    simpa [swapUse, hcontrol] using huse

end Swap

section Bounds

variable (F : Function) (entry : BlockId) (L : Loop) (preheader exit exiting : BlockId)
  (headers latches : List BlockId) (loops : List LoopDescriptor)

/-- The block the point loop of one dimension is entered from when all tile loops are
there. -/
def pointPreheader (k : Nat) (loop : LoopDescriptor) : Option BlockId :=
  if k = 0 then headers.getLast? else loop.loopNode.loopPreheader F

/-- The bound of each loop dominates the latch and the clamp code that use it. -/
def BoundsDominate : Prop :=
  ∀ k loop, loops[k]? = some loop → ∀ home index, F.DefinedAt loop.boundValue home index →
    (∀ latch, latches[k]? = some latch →
      Dominates (TiledEdge F L preheader exit headers latches) entry home latch) ∧
    ∀ point, pointPreheader F headers k loop = some point →
      Dominates (TiledEdge F L preheader exit headers latches) entry home point

/-- The bound of each loop dominates the preheader of the loop and the block the nest
is left from. -/
def BoundsEarly : Prop :=
  ∀ loop ∈ loops, ∀ home index, F.DefinedAt loop.boundValue home index →
    Dominates F.Edge entry home exiting ∧ ∀ point, loop.loopNode.loopPreheader F = some point →
      Dominates F.Edge entry home point

variable {F entry L preheader exit exiting headers latches loops}

theorem Function.block_of_definedAt {value : Value} {block : BlockId} {index : Nat}
    (h : F.DefinedAt value block index) : block ∈ F.blocks.map Prod.fst := by
  obtain ⟨inst, hinst, _⟩ := h
  exact Function.block_of_mem_insts (List.mem_of_getElem? hinst)

/-- The clamp code is dominated by what dominates the preheader it had. -/
theorem dominates_pointPreheader (hF : F.SSAForm entry) (hL : L.Headed F entry)
    (h : TileBlocks F L preheader exit exiting headers latches) {loop : LoopDescriptor} {k : Nat}
    (hnode : k = 0 → loop.loopNode = L) {home : BlockId} (hhome : home ∈ F.blocks.map Prod.fst) :
    (∀ point, pointPreheader F headers k loop = some point →
      Dominates (TiledEdge F L preheader exit headers latches) entry home point) ↔
      ∀ point, loop.loopNode.loopPreheader F = some point → Dominates F.Edge entry home point := by
  by_cases hzero : k = 0
  · have hlast := List.getLast?_eq_some_getLast h.ne_nil
    simp only [pointPreheader, if_pos hzero, hnode hzero, h.preheader, hlast, Option.some.injEq,
      forall_eq']
    exact dominates_tiled_header hF hL h hhome (List.getLast_mem _)
  · simp only [pointPreheader, if_neg hzero]
    refine forall_congr' fun point => imp_congr_right fun hpoint => ?_
    exact dominates_tiled_iff hF hL h hhome
      (Function.mem_blocks_of_mem_successors (loopPreheader_spec hpoint).1)

theorem boundsDominate_iff (hF : F.SSAForm entry) (hL : L.Headed F entry)
    (h : TileBlocks F L preheader exit exiting headers latches)
    (hlength : latches.length = loops.length)
    (hhead : ∀ loop, loops[0]? = some loop → loop.loopNode = L) :
    BoundsDominate F entry L preheader exit headers latches loops ↔
      BoundsEarly F entry exiting loops := by
  have hnode : ∀ {k loop}, loops[k]? = some loop → k = 0 → loop.loopNode = L := by
    rintro k loop hloop rfl
    exact hhead loop hloop
  constructor
  · intro hbounds loop hmem home index hdef
    obtain ⟨k, hk⟩ := List.getElem?_of_mem hmem
    obtain ⟨hlatch, hpoint⟩ := hbounds k loop hk home index hdef
    have hhome := Function.block_of_definedAt hdef
    have hlt : k < latches.length := by
      rw [hlength]
      exact (List.getElem?_eq_some_iff.mp hk).1
    refine ⟨?_, (dominates_pointPreheader hF hL h (hnode hk) hhome).mp hpoint⟩
    exact (dominates_tiled_latch hF hL h hhome (List.getElem_mem hlt)).mp
      (hlatch _ (List.getElem?_eq_getElem hlt))
  · intro hbounds k loop hk home index hdef
    obtain ⟨hexiting, hpoint⟩ := hbounds loop (List.mem_of_getElem? hk) home index hdef
    have hhome := Function.block_of_definedAt hdef
    refine ⟨?_, (dominates_pointPreheader hF hL h (hnode hk) hhome).mpr hpoint⟩
    intro latch hlatch
    exact (dominates_tiled_latch hF hL h hhome (List.mem_of_getElem? hlatch)).mpr hexiting

end Bounds

section Editing

variable (editor : Editor) (n : Nat)

/-- The headers of new tile loops, in the order they are created in. -/
def Editor.tileHeaders : List BlockId := (List.range n).map fun k => editor.nextBlock + 2 * k

def Editor.tileLatches : List BlockId := (List.range n).map fun k => editor.nextBlock + 2 * k + 1

/-- The bounds at their new places when the loops are tiled, if there is an exit. -/
def Editor.BoundsKept (entry : BlockId) (root : Loop) (loops : List LoopDescriptor) : Prop :=
  ∀ preheader, root.loopPreheader editor.function = some preheader →
    ∀ exit, root.exitBlock editor.function = some exit →
    BoundsDominate editor.function entry root preheader exit (editor.tileHeaders loops.length)
      (editor.tileLatches loops.length) loops

variable {editor n}

theorem nodup_numbers (start n : Nat) : ((List.range n).map (fun k => start + 2 * k) ++
    (List.range n).map fun k => start + 2 * k + 1).Nodup := by
  rw [List.nodup_append']
  refine ⟨List.nodup_range.map ?_, List.nodup_range.map ?_, ?_⟩
  · intro a b heq
    simp only at heq
    omega
  · intro a b heq
    simp only at heq
    omega
  · intro b hheader hlatch
    simp only [List.mem_map] at hheader hlatch
    omega

theorem le_of_mem_numbers {start n b : Nat} (h : b ∈ (List.range n).map (fun k => start + 2 * k) ++
    (List.range n).map fun k => start + 2 * k + 1) : start ≤ b := by
  simp only [List.mem_append, List.mem_map] at h
  omega

theorem Editor.tileBlocks {L : Loop} {preheader exit exiting : BlockId} (hn : n ≠ 0)
    (hpreheader : L.loopPreheader editor.function = some preheader)
    (hexit : L.exitBlock editor.function = some exit)
    (hexiting : L.exitingBlock editor.function = some exiting) :
    TileBlocks editor.function L preheader exit exiting (editor.tileHeaders n)
      (editor.tileLatches n) where
  preheader := hpreheader
  exit := hexit
  exiting := hexiting
  length_eq := by simp [tileHeaders, tileLatches]
  ne_nil := by simpa [tileHeaders] using hn
  nodup := nodup_numbers editor.nextBlock n
  fresh := by
    intro b hb hmem
    obtain ⟨block, hblock, rfl⟩ := List.mem_map.mp hmem
    have hlt : block.1 < editor.nextBlock := editor.block_lt block hblock
    have hle : editor.nextBlock ≤ block.1 := le_of_mem_numbers hb
    exact absurd hlt (Nat.not_lt.mpr hle)

theorem Editor.boundsKept_iff {entry : BlockId} {root : Loop} {loops : List LoopDescriptor}
    (hF : editor.function.SSAForm entry) (hroot : root.Headed editor.function entry)
    {preheader exiting : BlockId} (hpreheader : root.loopPreheader editor.function = some preheader)
    (hexiting : root.exitingBlock editor.function = some exiting) (hloops : loops.length ≠ 0)
    (hhead : ∀ loop, loops[0]? = some loop → loop.loopNode = root) :
    editor.BoundsKept entry root loops ↔ ((root.exitBlock editor.function).isSome →
      BoundsEarly editor.function entry exiting loops) := by
  cases hexit : root.exitBlock editor.function with
  | none => simp [BoundsKept, hexit]
  | some exit =>
      simp only [BoundsKept, hexit, hpreheader, Option.some.injEq, forall_eq', Option.isSome_some,
        true_imp_iff]
      have hlength : (editor.tileLatches loops.length).length = loops.length := by
        simp [tileLatches]
      exact boundsDominate_iff hF hroot (tileBlocks hloops hpreheader hexit hexiting) hlength hhead

end Editing

section Program

variable {entry : BlockId}

/-- What LoopInfo guarantees of the chain of loops below a root. -/
structure ChainHeaded (F : Function) (entry : BlockId) (root : Loop) : Prop where
  headed : ∀ L ∈ linearizePerfectNest root, L.Headed F entry
  nested : (linearizePerfectNest root).Pairwise fun outer inner =>
    inner.header ∈ outer.blocks ∧ inner.header ≠ outer.header

/-- Values stand where their definitions dominate, behind an interchange of two loops
and behind tiling, with or without the interchange. -/
structure DominanceKept (renamed : Function → Value → String) (editor : Editor) (entry : BlockId)
    (root : Loop) (nest : LoopNestDescriptor) (idxOuter idxInner : Nat) : Prop where
  tiling : editor.BoundsKept entry root nest.loops
  interchange : ∀ nest' editor',
    applyLoopInterchange renamed nest idxOuter idxInner editor = .ok (true, nest', editor') →
    editor'.function.UsesDominated entry ∧ editor'.BoundsKept entry root nest'.loops

/-- The values are there early enough in the function the pass gets. -/
structure DefinedEarly (F : Function) (entry : BlockId) (root : Loop) (nest : LoopNestDescriptor)
    (idxOuter idxInner : Nat) : Prop where
  tiling : ∀ exiting, root.exitingBlock F = some exiting → (root.exitBlock F).isSome →
    BoundsEarly F entry exiting nest.loops
  interchange : ∀ outer inner, nest.loops[idxOuter]? = some outer →
    nest.loops[idxInner]? = some inner → F.type outer.induction = F.type inner.induction →
    SwapEarly F entry outer inner ∧ ∀ exiting, root.exitingBlock F = some exiting →
      (root.exitBlock F).isSome →
      BoundsEarly F entry exiting (nest.swapBounds idxOuter idxInner outer inner).loops

variable {F : Function} {SE : ScalarEvolution} {root : Loop} {nest nest' : LoopNestDescriptor}
  {renamed : Function → Value → String} {idxOuter idxInner : Nat} {editor editor' : Editor}
  {outer inner : LoopDescriptor}

theorem describes_of_getElem? {loops : List LoopDescriptor} {chain : List Loop}
    (h : List.Forall₂ (Describes F SE) chain loops) {k : Nat} {loop : LoopDescriptor}
    (hloop : loops[k]? = some loop) :
    chain[k]? = some loop.loopNode ∧ Describes F SE loop.loopNode loop := by
  obtain ⟨hk, rfl⟩ := List.getElem?_eq_some_iff.mp hloop
  have hk' : k < chain.length := h.length_eq ▸ hk
  have hdescribes := h.get hk' hk
  simp only [List.get_eq_getElem] at hdescribes
  rw [hdescribes.loopNode]
  exact ⟨List.getElem?_eq_getElem hk', hdescribes⟩

/-- Two loops of a nest that the analysis accepts. -/
theorem loopPair_of_analyzeLoopNest (hF : F.SSAForm entry) (hchain : ChainHeaded F entry root)
    (hnest : analyzeLoopNest F SE root = some nest) (hlt : idxOuter < idxInner)
    (houter : nest.loops[idxOuter]? = some outer) (hinner : nest.loops[idxInner]? = some inner) :
    LoopPair F SE entry outer inner := by
  obtain ⟨_, hforall, _⟩ := describes_of_analyzeLoopNest hnest
  obtain ⟨houterLoop, hdescribes⟩ := describes_of_getElem? hforall houter
  obtain ⟨hinnerLoop, hdescribes'⟩ := describes_of_getElem? hforall hinner
  obtain ⟨ho, houterEq⟩ := List.getElem?_eq_some_iff.mp houterLoop
  obtain ⟨hi, hinnerEq⟩ := List.getElem?_eq_some_iff.mp hinnerLoop
  obtain ⟨hmem, hne⟩ := List.pairwise_iff_getElem.mp hchain.nested _ _ ho hi hlt
  rw [houterEq, hinnerEq] at hmem hne
  exact {
    ssa := hF
    describes_outer := hdescribes
    describes_inner := hdescribes'
    headed_outer := hchain.headed _ (List.mem_of_getElem? houterLoop)
    headed_inner := hchain.headed _ (List.mem_of_getElem? hinnerLoop)
    header_mem := hmem
    header_ne := hne }

theorem Describes.startBlock_ok {L : Loop} {loop : LoopDescriptor}
    (h : Describes editor.function SE L loop) :
    ∃ preheader, editor.startBlock loop = .ok preheader := by
  obtain ⟨preheader, hpreheader, hstart⟩ := h.preheader
  rw [← h.loopNode] at hpreheader
  exact ⟨preheader, by simp [Editor.startBlock, hpreheader, hstart]⟩

theorem Describes.start_of_startBlock {L : Loop} {loop : LoopDescriptor}
    (h : Describes editor.function SE L loop) {preheader : BlockId}
    (hblock : editor.startBlock loop = .ok preheader) :
    editor.function.incomingValueForBlock loop.induction preheader = some loop.startValue := by
  obtain ⟨preheader', hpreheader, hstart⟩ := h.preheader
  rw [← h.loopNode] at hpreheader
  simp only [Editor.startBlock, hpreheader, hstart, Option.isSome_some, if_true] at hblock
  rwa [← Except.ok.inj hblock]

/-- Two loops of one type are interchanged. -/
theorem LoopPair.exists_interchange (h : LoopPair editor.function SE entry outer inner)
    (houter : nest.loops[idxOuter]? = some outer) (hinner : nest.loops[idxInner]? = some inner)
    (htype : editor.function.type outer.induction = editor.function.type inner.induction) :
    ∃ nest' editor', applyLoopInterchange renamed nest idxOuter idxInner editor =
      .ok (true, nest', editor') := by
  obtain ⟨preOuter, hpreOuter⟩ := h.describes_outer.startBlock_ok
  obtain ⟨preInner, hpreInner⟩ := h.describes_inner.startBlock_ok
  simp only [applyLoopInterchange, houter, hinner, htype, ne_eq, not_true, if_false, hpreOuter,
    hpreInner]
  exact ⟨_, _, rfl⟩

/-- Names have no part in SSA form. -/
theorem Function.SSAForm.named (hF : F.SSAForm entry) (name : Value → Option String) :
    ({ F with name } : Function).SSAForm entry where
  blocks_nodup := hF.blocks_nodup
  values_nodup := hF.values_nodup
  constants := hF.constants
  targets := hF.targets
  entry_mem := hF.entry_mem
  entry_first := hF.entry_first
  dominated := hF.dominated

theorem Function.KeepsBranches.boundsEarly_iff {f : BlockId → Inst → InstKind}
    (hf : Function.KeepsBranches f) (name : Value → Option String) {exiting : BlockId}
    {loops : List LoopDescriptor} : BoundsEarly { F.mapInsts f with name } entry exiting loops ↔
      BoundsEarly F entry exiting loops := by
  have hunnamed : BoundsEarly { F.mapInsts f with name } entry exiting loops ↔
      BoundsEarly (F.mapInsts f) entry exiting loops := Iff.rfl
  rw [hunnamed]
  simp only [BoundsEarly, Function.definedAt_mapInsts, hf.edge_eq, hf.loopPreheader_eq]

/-- What does not depend on the bounds stays. -/
theorem map_swapBounds {β : Type} {f : LoopDescriptor → β}
    (hf : ∀ loop other : LoopDescriptor, f (loop.withBoundsOf other) = f loop)
    (houter : nest.loops[idxOuter]? = some outer) (hinner : nest.loops[idxInner]? = some inner) :
    (nest.swapBounds idxOuter idxInner outer inner).loops.map f = nest.loops.map f := by
  have hself : ∀ (items : List β) (k : Nat) (item : β), items[k]? = some item →
      items.set k item = items := by
    intro items k item hitem
    obtain ⟨hk, rfl⟩ := List.getElem?_eq_some_iff.mp hitem
    exact List.set_getElem_self hk
  have houterMap : (nest.loops.map f)[idxOuter]? = some (f outer) := by
    rw [List.getElem?_map, houter, Option.map_some]
  have hinnerMap : (nest.loops.map f)[idxInner]? = some (f inner) := by
    rw [List.getElem?_map, hinner, Option.map_some]
  simp only [LoopNestDescriptor.swapBounds, List.map_set, hf]
  rw [hself _ _ _ houterMap, hself _ _ _ hinnerMap]

/-- What an interchange keeps, by what is there before it. -/
theorem Interchanged.kept_iff {preOuter preInner : BlockId}
    (h : Interchanged nest nest' idxOuter idxInner editor editor' outer inner preOuter preInner)
    (hpair : LoopPair editor.function SE entry outer inner)
    (hroot : root.Headed editor.function entry) {preheader exiting : BlockId}
    (hpreheader : root.loopPreheader editor.function = some preheader)
    (hexiting : root.exitingBlock editor.function = some exiting)
    (hhead : ∀ loop, nest.loops[0]? = some loop → loop.loopNode = root) :
    editor'.function.UsesDominated entry ∧ editor'.BoundsKept entry root nest'.loops ↔
      SwapEarly editor.function entry outer inner ∧
        ((root.exitBlock editor.function).isSome → BoundsEarly editor.function entry exiting
          (nest.swapBounds idxOuter idxInner outer inner).loops) := by
  obtain ⟨name, hfunction⟩ := h.function_eq
  have hf : Function.KeepsBranches (swapKind editor.function preOuter preInner outer inner) :=
    keepsBranches_swapKind
  have hunnamed : editor'.function.UsesDominated entry ↔ (editor.function.mapInsts
      (swapKind editor.function preOuter preInner outer inner)).UsesDominated entry := by
    rw [hfunction]
    exact Iff.rfl
  have huses : editor'.function.UsesDominated entry ↔
      SwapEarly editor.function entry outer inner := by
    rw [hunnamed]
    exact ⟨fun hused => hpair.swapEarly hused
      (hpair.describes_inner.start_of_startBlock h.startBlock_inner),
      fun hearly => hpair.usesDominated hearly preOuter preInner⟩
  rw [← huses]
  refine and_congr_right fun hused => ?_
  have hF' : editor'.function.SSAForm entry := by
    rw [hfunction]
    exact (hpair.ssa.mapInsts hf (hunnamed.mp hused)).named name
  have hpreheader' : root.loopPreheader editor'.function = some preheader := by
    rw [hfunction]
    exact (hf.loopPreheader_eq root).trans hpreheader
  have hexiting' : root.exitingBlock editor'.function = some exiting := by
    rw [hfunction]
    exact (hf.exitingBlock_eq root).trans hexiting
  have hexit' : root.exitBlock editor'.function = root.exitBlock editor.function := by
    rw [hfunction]
    exact hf.exitBlock_eq root
  have hroot' : root.Headed editor'.function entry := by
    have hedge : editor'.function.Edge = editor.function.Edge := by
      rw [hfunction]
      exact hf.edge_eq
    exact ⟨hroot.header_mem, hedge ▸ hroot.dominates, hedge ▸ hroot.reachable⟩
  have hnodes : nest'.loops.map LoopDescriptor.loopNode =
      nest.loops.map LoopDescriptor.loopNode := by
    rw [h.nest_eq]
    exact map_swapBounds (fun _ _ => rfl) h.getElem_outer h.getElem_inner
  have hhead' : ∀ loop, nest'.loops[0]? = some loop → loop.loopNode = root := by
    intro loop hloop
    have hnode : (nest'.loops.map LoopDescriptor.loopNode)[0]? = some loop.loopNode := by
      rw [List.getElem?_map, hloop, Option.map_some]
    rw [hnodes, List.getElem?_map] at hnode
    obtain ⟨first, hfirst, heq⟩ := Option.map_eq_some_iff.mp hnode
    exact heq ▸ hhead first hfirst
  have hlength : nest'.loops.length ≠ 0 := by
    have hsame := congrArg List.length hnodes
    rw [List.length_map, List.length_map] at hsame
    have hlt := (List.getElem?_eq_some_iff.mp h.getElem_outer).1
    omega
  rw [Editor.boundsKept_iff hF' hroot' hpreheader' hexiting' hlength hhead', hexit', hfunction,
    hf.boundsEarly_iff, h.nest_eq]

/-- Interchange and tiling keep dominance exactly if bounds and induction variables
are there early enough. -/
theorem dominanceKept_iff (renamed : Function → Value → String) (editor : Editor)
    (SE : ScalarEvolution) (entry : BlockId) (root : Loop) (nest : LoopNestDescriptor)
    (hF : editor.function.SSAForm entry) (hchain : ChainHeaded editor.function entry root)
    (hnest : analyzeLoopNest editor.function SE root = some nest) (idxOuter idxInner : Nat)
    (hlt : idxOuter < idxInner) :
    DominanceKept renamed editor entry root nest idxOuter idxInner ↔
      DefinedEarly editor.function entry root nest idxOuter idxInner := by
  obtain ⟨hdepth, hforall, _⟩ := describes_of_analyzeLoopNest hnest
  obtain ⟨outermost, rest, hloops, hdescribes⟩ := analyzeLoopNest_head hnest
  obtain ⟨preheader, hpreheader, _⟩ := hdescribes.preheader
  obtain ⟨exiting, hexiting, _⟩ := hdescribes.exit
  have hroot : root.Headed editor.function entry :=
    hchain.headed root (List.mem_of_getElem? head?_linearizePerfectNest)
  have hhead : ∀ loop, nest.loops[0]? = some loop → loop.loopNode = root := by
    intro loop hloop
    rw [hloops] at hloop
    obtain rfl := Option.some.inj hloop
    exact hdescribes.loopNode
  have hlength : nest.loops.length ≠ 0 := by
    rw [hloops]
    exact Nat.succ_ne_zero _
  have htiling := Editor.boundsKept_iff hF hroot hpreheader hexiting hlength hhead
  constructor
  · intro h
    refine ⟨?_, ?_⟩
    · intro exiting' hexiting'
      obtain rfl : exiting = exiting' := Option.some.inj (hexiting.symm.trans hexiting')
      exact htiling.mp h.tiling
    · intro outer inner houter hinner htype
      have hpair := loopPair_of_analyzeLoopNest hF hchain hnest hlt houter hinner
      obtain ⟨nest', editor', hok⟩ : ∃ nest' editor', applyLoopInterchange renamed nest idxOuter
        idxInner editor = .ok (true, nest', editor') := hpair.exists_interchange houter hinner htype
      obtain ⟨outer', inner', preOuter, preInner, hinterchanged⟩ := applyLoopInterchange_ok hok
      obtain rfl := Option.some.inj (houter.symm.trans hinterchanged.getElem_outer)
      obtain rfl := Option.some.inj (hinner.symm.trans hinterchanged.getElem_inner)
      obtain ⟨hswap, hbounds⟩ := (hinterchanged.kept_iff hpair hroot hpreheader hexiting hhead).mp
        (h.interchange nest' editor' hok)
      refine ⟨hswap, ?_⟩
      intro exiting' hexiting'
      obtain rfl : exiting = exiting' := Option.some.inj (hexiting.symm.trans hexiting')
      exact hbounds
  · intro h
    refine ⟨htiling.mpr (h.tiling exiting hexiting), ?_⟩
    intro nest' editor' hok
    obtain ⟨outer, inner, preOuter, preInner, hinterchanged⟩ := applyLoopInterchange_ok hok
    have houter := hinterchanged.getElem_outer
    have hinner := hinterchanged.getElem_inner
    have hpair := loopPair_of_analyzeLoopNest hF hchain hnest hlt houter hinner
    obtain ⟨hswap, hbounds⟩ := h.interchange outer inner houter hinner hinterchanged.type_eq
    exact (hinterchanged.kept_iff hpair hroot hpreheader hexiting hhead).mpr
      ⟨hswap, hbounds exiting hexiting⟩

/-- The body of the inner loop uses `i`. -/
def innerUse : Payload := { inner := [⟨40, .int 32, .compute [1]⟩] }

/-- The outer loop uses `i` in front of the inner loop. -/
def outerUse : Payload := { outer := [⟨40, .int 32, .compute [1]⟩] }

theorem exampleChain_headed {payload : Payload}
    (h : (payload.function .slt).certifies 0 exampleAvoiding = true)
    (hedges : ∀ b ∈ [0, 1, 2], b + 1 ∈ (payload.function .slt).successors b) :
    ChainHeaded (payload.function .slt) 0 exampleOuter := by
  have hfirst : ReflTransGen (payload.function .slt).Edge 0 1 := .single (hedges 0 (by decide))
  have hsecond : ReflTransGen (payload.function .slt).Edge 0 3 :=
    (hfirst.tail (hedges 1 (by decide))).tail (hedges 2 (by decide))
  have hdominates : ∀ d ∈ [0, 1, 2, 3, 4, 5, 6], ∀ b, (exampleAvoiding d).contains b = false →
      Dominates (payload.function .slt).Edge 0 d b :=
    fun d hd b hb => Function.dominates_of_certifies h hd hb
  constructor
  · intro L hL
    rcases List.mem_pair.mp hL with rfl | rfl
    · refine ⟨by decide, ?_, hfirst⟩
      intro b hb
      by_cases heq : b = 1
      · subst heq
        exact dominates_refl 0 1
      · have hout : ∀ b ∈ [1, 2, 3, 4, 5], b ≠ 1 → (exampleAvoiding 1).contains b = false := by
          decide
        exact hdominates 1 (by decide) b (hout b hb heq)
    · refine ⟨by decide, ?_, hsecond⟩
      intro b hb
      by_cases heq : b = 3
      · subst heq
        exact dominates_refl 0 3
      · have hout : ∀ b ∈ [3, 4], b ≠ 3 → (exampleAvoiding 3).contains b = false := by decide
        exact hdominates 3 (by decide) b (hout b hb heq)
  · exact List.pairwise_pair.mpr ⟨by decide, by decide⟩

theorem outerUse_box : (exampleLoops []).Box (outerUse.function .slt) := by
  decide

theorem innerUse_dominanceKept : DominanceKept (fun _ _ => "")
    (.ofFunction (innerUse.function .slt) 50) 0 exampleOuter (exampleLoops []) 0 1 := by
  have hcertifies : (innerUse.function .slt).certifies 0 exampleAvoiding = true := by decide
  have hF : (innerUse.function .slt).SSAForm 0 :=
    Function.ssaForm_of_checkSSA exampleAvoiding (by decide)
  have hbound : ∀ block index, ¬ (innerUse.function .slt).DefinedAt 10 block index :=
    hF.distinct.not_definedAt (c := ⟨32, 8⟩) rfl
  have hearly : ∀ loops : List LoopDescriptor, (∀ loop ∈ loops, loop.boundValue = 10) →
      ∀ exiting, BoundsEarly (innerUse.function .slt) 0 exiting loops := by
    intro loops hloops exiting loop hloop home index hdef
    rw [hloops loop hloop] at hdef
    exact absurd hdef (hbound home index)
  refine (dominanceKept_iff (fun _ _ => "") (.ofFunction (innerUse.function .slt) 50)
    exampleEvolution 0 exampleOuter (exampleLoops []) hF
    (exampleChain_headed hcertifies (by decide)) rfl 0 1 (by decide)).mpr ?_
  refine ⟨fun exiting _ _ => hearly _ (by decide) exiting, ?_⟩
  intro outer inner houter hinner _
  obtain rfl := Option.some.inj houter
  obtain rfl := Option.some.inj hinner
  refine ⟨⟨Or.inr ?_, Or.inr ?_, ?_⟩, fun exiting _ _ => hearly _ (by decide) exiting⟩
  · exact fun block index _ => hF.distinct.available_constant (c := ⟨32, 8⟩) rfl _
  · exact fun block index _ => hF.distinct.available_constant (c := ⟨32, 8⟩) rfl _
  · intro block index inst place hinst hslot _ hcontrol home i hdef
    have hphi : (innerUse.function .slt).DefinedAt 2 3 0 :=
      ⟨⟨2, .int 32, .phi [(8, 2), (6, 4)]⟩, rfl, rfl⟩
    obtain ⟨rfl, rfl⟩ := hF.distinct.definedAt_unique hphi hdef
    have hall : ∀ block ∈ [0, 1, 2, 3, 4, 5, 6],
        ∀ user ∈ ((innerUse.function .slt).insts block).zipIdx,
        ∀ slot ∈ user.1.kind.slots block user.2, slot.1 = 1 →
        (exampleDescriptor .slt).isControlInst (innerUse.function .slt) block user.1 = false →
        Function.precedesBy exampleAvoiding 3 0 slot.2 = true := by decide
    refine Function.precedes_of_precedesBy hcertifies (by decide) ?_
    exact hall block (Function.block_of_mem_insts (List.mem_of_getElem? hinst)) (inst, index)
      (List.mem_zipIdx_iff_getElem?.mpr hinst) _ hslot rfl hcontrol

/-- The use of `i` in front of the inner loop becomes one of `j`. -/
theorem not_forall_dominanceKept : ¬ ∀ (renamed : Function → Value → String) (editor : Editor)
    (SE : ScalarEvolution) (entry : BlockId) (root : Loop) (nest : LoopNestDescriptor)
    (deps : Isl.UnionMap), editor.function.SSAForm entry →
    ChainHeaded editor.function entry root → SE.Sound editor.function (linearizePerfectNest root) →
    analyzeLoopNest editor.function SE root = some nest → isRectangularNest nest = true →
    getDependencies true editor.function nest = some deps →
    isTilingLegal true nest (some deps) = true → ∀ idxOuter idxInner, idxOuter < idxInner →
    DominanceKept renamed editor entry root nest idxOuter idxInner := by
  intro hall
  obtain ⟨deps, hdeps, hlegal⟩ := outerUse_box.legal_of_no_accesses rfl
  have hcertifies : (outerUse.function .slt).certifies 0 exampleAvoiding = true := by decide
  have hkept := hall (fun _ _ => "") (.ofFunction (outerUse.function .slt) 50) exampleEvolution 0
    exampleOuter (exampleLoops []) deps (Function.ssaForm_of_checkSSA exampleAvoiding (by decide))
    (exampleChain_headed hcertifies (by decide)) (exampleEvolution_sound rfl rfl rfl) rfl
    (by decide) hdeps hlegal 0 1 (by decide)
  have hused := (hkept.interchange _ _ rfl).1
  have hprecedes := hused 2 (.before 2 0) ⟨2, 0, ⟨40, .int 32, .compute [2]⟩, rfl, by decide⟩ 3 0
    ⟨_, rfl, rfl⟩
  rw [Function.Precedes, if_neg (by decide)] at hprecedes
  refine hprecedes (by decide) (Avoids.tail (a := 1) (ReflTransGen.single ⟨?_, by decide⟩) ?_
    (by decide))
  · exact List.mem_singleton_self 1
  · exact List.mem_cons_self

end Program

end PolyhedralPass
