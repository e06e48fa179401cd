/-
Interchanges that are undone.  The same interchange made again gives back descriptors and
instructions, unless the control of one loop alone uses the counter of the other.
-/
import PolyhedralPass.Agreement
import PolyhedralPass.Course

namespace PolyhedralPass

section Operands

theorem map_eq_self_iff {α : Type} {f : α → α} {items : List α} :
    items.map f = items ↔ ∀ a ∈ items, f a = a := by
  refine ⟨fun heq => ?_, fun h => (List.map_congr_left h).trans items.map_id⟩
  exact List.map_inj_left.mp (heq.trans items.map_id.symm)

theorem InstKind.mapOperands_eq_self {f : Value → Value} {kind : InstKind}
    (h : ∀ operand ∈ kind.operands, f operand = operand) : kind.mapOperands f = kind := by
  cases kind with
  | phi incoming =>
      refine congrArg InstKind.phi (map_eq_self_iff.mpr fun entry hentry => ?_)
      exact Prod.ext (h entry.1 (List.mem_map_of_mem hentry)) rfl
  | gep pointer indices =>
      have hindices : indices.map (GepIndex.mapValue f) = indices := by
        refine map_eq_self_iff.mpr fun index hindex => ?_
        have hvalue := h index.value (List.mem_cons_of_mem pointer (List.mem_map_of_mem hindex))
        cases index with
        | elem index stride => exact congrArg (GepIndex.elem · stride) hvalue
        | field index offset => exact congrArg (GepIndex.field · offset) hvalue
      rw [mapOperands, hindices, h pointer List.mem_cons_self]
  | call args effects => exact congrArg (InstKind.call · effects) (map_eq_self_iff.mpr h)
  | compute args => exact congrArg InstKind.compute (map_eq_self_iff.mpr h)
  | ret value =>
      cases value with
      | none => rfl
      | some value => rw [mapOperands, Option.map_some, h value (List.mem_singleton_self value)]
  | _ => simp_all [mapOperands, operands]

namespace InstKind

theorem mapOperands_eq_self_iff {f : Value → Value} {kind : InstKind} :
    kind.mapOperands f = kind ↔ ∀ operand ∈ kind.operands, f operand = operand := by
  refine ⟨fun heq => ?_, mapOperands_eq_self⟩
  have hoperands := congrArg operands heq
  rw [operands_mapOperands] at hoperands
  exact map_eq_self_iff.mp hoperands

theorem mapOperands_mapOperands (f g : Value → Value) (kind : InstKind) :
    (kind.mapOperands f).mapOperands g = kind.mapOperands (g ∘ f) := by
  cases kind with
  | phi incoming => simp [mapOperands, Function.comp_def]
  | gep pointer indices =>
      simp only [mapOperands, List.map_map, Function.comp_apply, gep.injEq, true_and]
      apply List.map_congr_left
      intro index _
      cases index <;> rfl
  | call args effects => simp [mapOperands]
  | compute args => simp [mapOperands]
  | ret value => cases value <;> rfl
  | _ => rfl

/-- What is written to the first entry for a block and then put back. -/
theorem setFirstIncoming_twice {f : Value → Value} {block : BlockId} {old new : Value}
    (hold : f old = old) {incoming : List (Value × BlockId)}
    (hfind : (incoming.find? (·.2 == block)).map Prod.fst = some old) :
    (setFirstIncoming block old ((setFirstIncoming block new incoming).map
        fun entry => (f entry.1, entry.2))).map (fun entry => (f entry.1, entry.2)) =
      incoming.map fun entry => (f (f entry.1), entry.2) := by
  induction incoming with
  | nil => rfl
  | cons entry rest ih =>
      by_cases heq : entry.2 = block
      · have hfirst : entry.1 = old := by simpa [heq] using hfind
        simp [setFirstIncoming, heq, hfirst, hold]
      · have hrest : (rest.find? (·.2 == block)).map Prod.fst = some old := by
          simpa [heq] using hfind
        simp only [setFirstIncoming, heq, if_false, List.map_cons, ih hrest]

end InstKind

end Operands

section Kinds

variable {F F' : Function} {SE : ScalarEvolution} {outer inner loop other : LoopDescriptor}
  {preOuter preInner preheader : BlockId}

/-- What a use becomes behind two interchanges. -/
def swapTwice (F : Function) (outer inner : LoopDescriptor) (block : BlockId) (user : Inst) :
    Value → Value :=
  swapUse F outer inner block user ∘ swapUse F outer inner block user

/-- The uses of a counter that change twice come back, unless the control of one loop alone
stops them on the way. -/
theorem swapUse_twice_iff (hne : outer.induction ≠ inner.induction) {block : BlockId}
    {user : Inst} {value : Value} :
    swapTwice F outer inner block user value = value ↔
      (value = outer.induction → inner.isControlInst F block user = true →
        outer.isControlInst F block user = true) ∧
      (value = inner.induction → outer.isControlInst F block user = true →
        inner.isControlInst F block user = true) := by
  by_cases houter : value = outer.induction
  · subst houter
    cases hown : outer.isControlInst F block user <;>
      cases hother : inner.isControlInst F block user <;>
      simp [swapTwice, swapUse, hown, hother, hne, hne.symm]
  · by_cases hinner : value = inner.induction
    · subst hinner
      cases hown : outer.isControlInst F block user <;>
        cases hother : inner.isControlInst F block user <;>
        simp [swapTwice, swapUse, hown, hother, hne, hne.symm]
    · simp [swapTwice, swapUse, houter, hinner]

theorem swapUse_again (hskeleton : F'.skeleton = F.skeleton) (block : BlockId) (inst : Inst)
    {kind : InstKind} (hphi : kind.isPhi = inst.kind.isPhi) :
    swapUse F' (outer.withBoundsOf inner) (inner.withBoundsOf outer) block
      { inst with kind } = swapUse F outer inner block inst := by
  have hcontrol : ∀ loop : LoopDescriptor,
      loop.isControlInst F' block { inst with kind } = loop.isControlInst F block inst :=
    fun loop => isControlInst_congr loop (Function.exitBlock_of_skeleton hskeleton _) block rfl hphi
  funext value
  have houter : (outer.withBoundsOf inner).isControlInst F' block { inst with kind } =
      outer.isControlInst F block inst := hcontrol outer
  have hinner : (inner.withBoundsOf outer).isControlInst F' block { inst with kind } =
      inner.isControlInst F block inst := hcontrol inner
  simp only [swapUse, houter, hinner]
  rfl

theorem OneOf.again (h : OneOf outer inner preOuter preInner loop other preheader) :
    OneOf (outer.withBoundsOf inner) (inner.withBoundsOf outer) preOuter preInner
      (loop.withBoundsOf other) (other.withBoundsOf loop) preheader := by
  rcases h with ⟨rfl, rfl, rfl⟩ | ⟨rfl, rfl, rfl⟩
  · exact Or.inl ⟨rfl, rfl, rfl⟩
  · exact Or.inr ⟨rfl, rfl, rfl⟩

theorem controlKind_phi_own (hne : outer.induction ≠ inner.induction)
    (hloop : OneOf outer inner preOuter preInner loop other preheader) {inst : Inst}
    (hvalue : inst.value = loop.induction) {incoming : List (Value × BlockId)}
    (hkind : inst.kind = .phi incoming) : controlKind preOuter preInner outer inner inst =
      .phi (InstKind.setFirstIncoming preheader other.startValue incoming) := by
  rcases hloop with ⟨rfl, rfl, rfl⟩ | ⟨rfl, rfl, rfl⟩
  · simp only [controlKind, hvalue, if_true, if_neg hne, hkind, InstKind.setIncoming,
      InstKind.setBound, ite_self]
  · simp only [controlKind, hvalue, if_true, if_neg hne.symm, hkind, InstKind.setIncoming,
      InstKind.setBound, ite_self]

theorem controlKind_icmp_own (hne : outer.compare ≠ inner.compare)
    (hloop : OneOf outer inner preOuter preInner loop other preheader) {inst : Inst}
    (hvalue : inst.value = loop.compare) {predicate : Predicate} {lhs bound : Value}
    (hkind : inst.kind = .icmp predicate lhs bound) :
    controlKind preOuter preInner outer inner inst = .icmp predicate lhs other.boundValue := by
  rcases hloop with ⟨rfl, rfl, rfl⟩ | ⟨rfl, rfl, rfl⟩
  · simp only [controlKind, hkind, InstKind.setIncoming, ite_self, hvalue, if_true, if_neg hne,
      InstKind.setBound]
  · simp only [controlKind, hkind, InstKind.setIncoming, ite_self, hvalue, if_true,
      if_neg hne.symm, InstKind.setBound]

/-- Neither a PHI node nor a comparison of the two loops. -/
theorem controlKind_other {inst : Inst}
    (h : ∀ loop other preheader, OneOf outer inner preOuter preInner loop other preheader →
      inst.value ≠ loop.induction ∧ inst.value ≠ loop.compare) :
    controlKind preOuter preInner outer inner inst = inst.kind := by
  obtain ⟨hphi, hcompare⟩ := h _ _ _ (Or.inl ⟨rfl, rfl, rfl⟩)
  obtain ⟨hphi', hcompare'⟩ := h _ _ _ (Or.inr ⟨rfl, rfl, rfl⟩)
  simp only [controlKind, if_neg hphi, if_neg hphi', if_neg hcompare, if_neg hcompare']

/-- The PHI node of one of the loops gets its start value back. -/
theorem Exchange.swapKind_twice_phi (h : Exchange F SE outer inner preOuter preInner)
    (hloop : OneOf outer inner preOuter preInner loop other preheader) {block : BlockId}
    {inst : Inst} (hinst : inst ∈ F.insts block) (hvalue : inst.value = loop.induction)
    (hagain : swapUse F' (outer.withBoundsOf inner) (inner.withBoundsOf outer) block
        { inst with kind := swapKind F preOuter preInner outer inner block inst } =
      swapUse F outer inner block inst) :
    swapKind F' preOuter preInner (outer.withBoundsOf inner) (inner.withBoundsOf outer) block
        { inst with kind := swapKind F preOuter preInner outer inner block inst } =
      inst.kind.mapOperands (swapTwice F outer inner block inst) := by
  obtain ⟨latch, _, _, hstart, _, hzero, _⟩ := h.own_edges hloop
  obtain ⟨phi, hmem, heq, incoming, hkind⟩ := (h.one_agrees hloop).1.phi
  obtain rfl := Function.eq_of_value_eq h.distinct.values_nodup (Function.mem_allInsts hinst)
    (Function.mem_allInsts hmem) (hvalue.trans heq.symm)
  rw [← hvalue, incomingValueForBlock_eq h.distinct hinst hkind] at hstart
  have hfirst : swapKind F preOuter preInner outer inner block inst = .phi _ :=
    congrArg _ (controlKind_phi_own h.induction_ne hloop hvalue hkind)
  have hsecond := @controlKind_phi_own (outer.withBoundsOf inner) (inner.withBoundsOf outer) _ _ _ _
    _ h.induction_ne hloop.again
    { inst with kind := swapKind F preOuter preInner outer inner block inst } hvalue _ hfirst
  rw [swapKind, hagain, hsecond, hkind]
  exact congrArg InstKind.phi (InstKind.setFirstIncoming_twice
    (h.swapUse_of_isConst hzero block inst) hstart)

/-- The comparison of one of the loops gets its bound back. -/
theorem Exchange.swapKind_twice_icmp (h : Exchange F SE outer inner preOuter preInner)
    (hloop : OneOf outer inner preOuter preInner loop other preheader)
    (hbound : Outside outer inner loop.boundValue) {block : BlockId} {inst : Inst}
    (hinst : inst ∈ F.insts block) (hvalue : inst.value = loop.compare)
    (hagain : swapUse F' (outer.withBoundsOf inner) (inner.withBoundsOf outer) block
        { inst with kind := swapKind F preOuter preInner outer inner block inst } =
      swapUse F outer inner block inst) :
    swapKind F' preOuter preInner (outer.withBoundsOf inner) (inner.withBoundsOf outer) block
        { inst with kind := swapKind F preOuter preInner outer inner block inst } =
      inst.kind.mapOperands (swapTwice F outer inner block inst) := by
  have hcompares := h.outer_agrees.compare_ne h.inner_agrees h.induction_ne
  obtain ⟨type, hcompare⟩ := (h.one_agrees hloop).1.compare
  have hfound := (Function.inst?_eq_some h.distinct.values_nodup).mpr
    ⟨Function.mem_allInsts hinst, hvalue⟩
  have hkind : inst.kind = .icmp loop.predicate loop.induction loop.boundValue :=
    congrArg Inst.kind (Option.some.inj (hfound.symm.trans hcompare))
  have hfixed : swapUse F outer inner block inst loop.boundValue = loop.boundValue :=
    swapUse_of_ne hbound.1 hbound.2
  have hfirst : swapKind F preOuter preInner outer inner block inst = .icmp _ _ _ :=
    congrArg _ (controlKind_icmp_own hcompares hloop hvalue hkind)
  have hsecond := @controlKind_icmp_own (outer.withBoundsOf inner) (inner.withBoundsOf outer) _ _ _
    _ _ hcompares hloop.again
    { inst with kind := swapKind F preOuter preInner outer inner block inst } hvalue _ _ _ hfirst
  rw [swapKind, hagain, hsecond, hkind]
  refine congrArg (InstKind.icmp _ _) ?_
  change swapUse F outer inner block inst loop.boundValue =
    swapUse F outer inner block inst (swapUse F outer inner block inst loop.boundValue)
  rw [hfixed, hfixed]

/-- An instruction behind two interchanges has its operands renamed twice. -/
theorem Exchange.swapKind_twice (h : Exchange F SE outer inner preOuter preInner)
    (hskeleton : F'.skeleton = F.skeleton) (houter : Outside outer inner outer.boundValue)
    (hinner : Outside outer inner inner.boundValue) {block : BlockId} {inst : Inst}
    (hinst : inst ∈ F.insts block) :
    swapKind F' preOuter preInner (outer.withBoundsOf inner) (inner.withBoundsOf outer) block
        { inst with kind := swapKind F preOuter preInner outer inner block inst } =
      inst.kind.mapOperands (swapTwice F outer inner block inst) := by
  have hphi : (swapKind F preOuter preInner outer inner block inst).isPhi = inst.kind.isPhi := by
    rw [swapKind, InstKind.isPhi_mapOperands, isPhi_controlKind]
  have hagain := @swapUse_again F F' outer inner hskeleton block inst _ hphi
  by_cases hown : ∃ loop other preheader, OneOf outer inner preOuter preInner loop other preheader ∧
      inst.value = loop.induction
  · obtain ⟨loop, other, preheader, hloop, hvalue⟩ := hown
    exact h.swapKind_twice_phi hloop hinst hvalue hagain
  by_cases htest : ∃ loop other preheader,
      OneOf outer inner preOuter preInner loop other preheader ∧ inst.value = loop.compare
  · obtain ⟨loop, other, preheader, hloop, hvalue⟩ := htest
    have hbound : Outside outer inner loop.boundValue := by
      rcases hloop with ⟨rfl, _⟩ | ⟨rfl, _⟩
      · exact houter
      · exact hinner
    exact h.swapKind_twice_icmp hloop hbound hinst hvalue hagain
  have hrest : ∀ loop other preheader, OneOf outer inner preOuter preInner loop other preheader →
      inst.value ≠ loop.induction ∧ inst.value ≠ loop.compare := fun loop other pre hloop =>
    ⟨fun heq => hown ⟨loop, other, pre, hloop, heq⟩,
      fun heq => htest ⟨loop, other, pre, hloop, heq⟩⟩
  have hrest' : ∀ loop other preheader,
      OneOf (outer.withBoundsOf inner) (inner.withBoundsOf outer) preOuter preInner loop other
        preheader → inst.value ≠ loop.induction ∧ inst.value ≠ loop.compare := by
    rintro loop other preheader (⟨rfl, _⟩ | ⟨rfl, _⟩)
    · exact hrest outer inner preOuter (Or.inl ⟨rfl, rfl, rfl⟩)
    · exact hrest inner outer preInner (Or.inr ⟨rfl, rfl, rfl⟩)
  have hsecond : ∀ kind : InstKind, controlKind preOuter preInner (outer.withBoundsOf inner)
      (inner.withBoundsOf outer) { inst with kind } = kind := fun kind =>
    controlKind_other hrest'
  rw [swapKind, hagain, hsecond, swapKind, controlKind_other hrest,
    InstKind.mapOperands_mapOperands]
  rfl

end Kinds

section Twice

variable {F : Function} {SE : ScalarEvolution} {outer inner : LoopDescriptor}
  {preOuter preInner : BlockId}

/-- What is control of one of the loops only does not use the counter of the other. -/
def ControlsApart (F : Function) (outer inner : LoopDescriptor) : Prop :=
  ∀ block, ∀ inst ∈ F.insts block, ∀ operand ∈ inst.kind.operands,
    (operand = outer.induction → inner.isControlInst F block inst = true →
      outer.isControlInst F block inst = true) ∧
    (operand = inner.induction → outer.isControlInst F block inst = true →
      inner.isControlInst F block inst = true)

theorem Exchange.insts_twice_iff (h : Exchange F SE outer inner preOuter preInner)
    (houter : Outside outer inner outer.boundValue) (hinner : Outside outer inner inner.boundValue)
    {F' F'' : Function} {name name' : Value → Option String}
    (hF' : F' = { F.mapInsts (swapKind F preOuter preInner outer inner) with name })
    (hF'' : F'' = { F'.mapInsts (swapKind F' preOuter preInner (outer.withBoundsOf inner)
      (inner.withBoundsOf outer)) with name := name' }) :
    (∀ block, F''.insts block = F.insts block) ↔ ControlsApart F outer inner := by
  have hskeleton : F'.skeleton = F.skeleton := by
    rw [hF']
    exact Function.skeleton_mapInsts (skeleton_swapKind F)
  have hinsts : ∀ block, F''.insts block = (F.insts block).map fun inst =>
      { inst with kind := inst.kind.mapOperands (swapTwice F outer inner block inst) } := by
    intro block
    have hsecond : F''.insts block = (F'.insts block).map fun inst => { inst with
        kind := swapKind F' preOuter preInner (outer.withBoundsOf inner)
          (inner.withBoundsOf outer) block inst } := by
      rw [hF'']
      exact Function.insts_mapInsts block
    have hfirst : F'.insts block = (F.insts block).map fun inst =>
        { inst with kind := swapKind F preOuter preInner outer inner block inst } := by
      rw [hF']
      exact Function.insts_mapInsts block
    rw [hsecond, hfirst, List.map_map]
    apply List.map_congr_left
    intro inst hinst
    exact congrArg (Inst.mk inst.value inst.type)
      (h.swapKind_twice hskeleton houter hinner hinst)
  refine forall_congr' fun block => ?_
  rw [hinsts, map_eq_self_iff]
  refine forall₂_congr fun inst _ => ?_
  have hkind : ({ inst with
      kind := inst.kind.mapOperands (swapTwice F outer inner block inst) } : Inst) = inst ↔
        inst.kind.mapOperands (swapTwice F outer inner block inst) = inst.kind := by
    obtain ⟨value, type, kind⟩ := inst
    simp
  rw [hkind, InstKind.mapOperands_eq_self_iff]
  exact forall₂_congr fun operand _ => swapUse_twice_iff h.induction_ne

variable {nest nest' : LoopNestDescriptor} {idxOuter idxInner : Nat}

/-- The descriptors come back. -/
theorem swapBounds_twice (hne : idxOuter ≠ idxInner) (houter : nest.loops[idxOuter]? = some outer)
    (hinner : nest.loops[idxInner]? = some inner) :
    (nest.swapBounds idxOuter idxInner outer inner).swapBounds idxOuter idxInner
      (outer.withBoundsOf inner) (inner.withBoundsOf outer) = nest := by
  have hplace := getElem?_swapBounds hne houter hinner
  have houter' : (nest.swapBounds idxOuter idxInner outer inner).loops[idxOuter]? =
      some (outer.withBoundsOf inner) := by
    rw [hplace, if_pos rfl]
  have hinner' : (nest.swapBounds idxOuter idxInner outer inner).loops[idxInner]? =
      some (inner.withBoundsOf outer) := by
    rw [hplace, if_neg hne.symm, if_pos rfl]
  have hloops : ((nest.swapBounds idxOuter idxInner outer inner).swapBounds idxOuter idxInner
      (outer.withBoundsOf inner) (inner.withBoundsOf outer)).loops = nest.loops := by
    apply List.ext_getElem?
    intro k
    rw [getElem?_swapBounds hne houter' hinner', hplace]
    split_ifs with hkOuter hkInner
    · rw [hkOuter, houter]
      rfl
    · rw [hkInner, hinner]
      rfl
    · rfl
  exact congrArg (fun loops => { nest with loops }) hloops

/-- The start values are still there to be exchanged. -/
theorem Exchange.startBlock_again {editor editor' : Editor} {loop other : LoopDescriptor}
    {preheader : BlockId} (h : Exchange editor.function SE outer inner preOuter preInner)
    {name : Value → Option String}
    (hfunction : editor'.function = { editor.function.mapInsts
      (swapKind editor.function preOuter preInner outer inner) with name })
    (hloop : OneOf outer inner preOuter preInner loop other preheader) :
    editor'.startBlock (loop.withBoundsOf other) = .ok preheader := by
  have hskeleton : editor'.function.skeleton = editor.function.skeleton := by
    rw [hfunction]
    exact Function.skeleton_mapInsts (skeleton_swapKind editor.function)
  obtain ⟨_, _, _, _, _, _, _, _, hincoming, _⟩ := h.own_edges hloop
  have hsome :
      (editor'.function.incomingValueForBlock loop.induction preheader).isSome = true := by
    rw [hfunction]
    exact Option.isSome_iff_exists.mpr ⟨_, hincoming⟩
  have hpreheader : loop.loopNode.loopPreheader editor'.function = some preheader := by
    rw [Function.loopPreheader_of_skeleton hskeleton]
    exact (h.one_agrees hloop).2.2
  simp only [Editor.startBlock, LoopDescriptor.withBoundsOf, hpreheader, hsome, if_true]

/-- The same interchange can be made again behind one that was made.  The nest is then the one
it was, and so are the instructions just when the controls of the two loops are apart. -/
theorem applyLoopInterchange_twice_iff (SE : ScalarEvolution)
    (renamed : Function → Value → String) (editor editor' : Editor)
    (hF : editor.function.Distinct)
    (hheaders : (nest.loops.map fun loop => loop.loopNode.header).Nodup)
    (hagrees : ∀ loop ∈ nest.loops, Agrees editor.function SE loop)
    (hbounds : ∀ loop ∈ nest.loops, ∀ other ∈ nest.loops, loop.boundValue ≠ other.induction)
    (hne : idxOuter ≠ idxInner) (houter : nest.loops[idxOuter]? = some outer)
    (hinner : nest.loops[idxInner]? = some inner)
    (h : applyLoopInterchange renamed nest idxOuter idxInner editor = .ok (true, nest', editor')) :
    ∃ editor'', applyLoopInterchange renamed nest' idxOuter idxInner editor' =
        .ok (true, nest, editor'') ∧
      ((∀ block, editor''.function.insts block = editor.function.insts block) ↔
        ControlsApart editor.function outer inner) := by
  obtain ⟨first, second, preOuter, preInner, hswap⟩ := applyLoopInterchange_ok h
  obtain rfl := Option.some.inj (hswap.getElem_outer.symm.trans houter)
  obtain rfl := Option.some.inj (hswap.getElem_inner.symm.trans hinner)
  have houterMem := List.mem_of_getElem? houter
  have hinnerMem := List.mem_of_getElem? hinner
  obtain ⟨pre, hpre, hpreheader⟩ := (hagrees first houterMem).startBlock_ok
  obtain ⟨pre', hpre', hpreheader'⟩ := (hagrees second hinnerMem).startBlock_ok
  obtain rfl := Except.ok.inj (hpre.symm.trans hswap.startBlock_outer)
  obtain rfl := Except.ok.inj (hpre'.symm.trans hswap.startBlock_inner)
  have hexchange : Exchange editor.function SE first second pre pre' :=
    ⟨hF, hagrees first houterMem, hagrees second hinnerMem,
      header_ne_of_getElem? hheaders houter hinner hne, hpreheader, hpreheader'⟩
  have hskeleton := (reordered_interchange h).skeleton
  obtain ⟨name, hfunction⟩ := hswap.function_eq
  have hstartOuter := hexchange.startBlock_again hfunction (Or.inl ⟨rfl, rfl, rfl⟩)
  have hstartInner := hexchange.startBlock_again hfunction (Or.inr ⟨rfl, rfl, rfl⟩)
  have hplace := getElem?_swapBounds hne houter hinner
  have happly : ∃ editor'', applyLoopInterchange renamed nest' idxOuter idxInner editor' =
      .ok (true, nest, editor'') := by
    have htype : editor'.function.type (first.withBoundsOf second).induction =
        editor'.function.type (second.withBoundsOf first).induction := by
      rw [Function.type_of_skeleton hskeleton, Function.type_of_skeleton hskeleton]
      exact hswap.type_eq
    rw [hswap.nest_eq]
    simp only [applyLoopInterchange, hplace, if_true, if_neg hne.symm, htype, ne_eq, not_true,
      if_false, hstartOuter, hstartInner, bind, Except.bind, swapBounds_twice hne houter hinner]
    exact ⟨_, rfl⟩
  obtain ⟨editor'', happly⟩ := happly
  refine ⟨editor'', happly, ?_⟩
  -- what the second interchange exchanges are the two descriptors of the first
  obtain ⟨first', second', preOuter', preInner', hswap'⟩ := applyLoopInterchange_ok happly
  have houter' := hswap'.getElem_outer
  have hinner' := hswap'.getElem_inner
  rw [hswap.nest_eq, hplace, if_pos rfl] at houter'
  rw [hswap.nest_eq, hplace, if_neg hne.symm, if_pos rfl] at hinner'
  obtain rfl := Option.some.inj houter'
  obtain rfl := Option.some.inj hinner'
  obtain rfl := Except.ok.inj (hstartOuter.symm.trans hswap'.startBlock_outer)
  obtain rfl := Except.ok.inj (hstartInner.symm.trans hswap'.startBlock_inner)
  obtain ⟨name', hfunction'⟩ := hswap'.function_eq
  have houtside : ∀ loop ∈ nest.loops, Outside first second loop.boundValue := fun loop hloop =>
    ⟨hbounds loop hloop first houterMem, hbounds loop hloop second hinnerMem⟩
  exact hexchange.insts_twice_iff (houtside first houterMem) (houtside second hinnerMem) hfunction
    hfunction'

end Twice

section Program

theorem deepFunction_controlsApart :
    ControlsApart deepFunction (deepDescriptor deepOuter 1 5 11 10 "i" 8)
      (deepDescriptor deepInner 3 7 13 15 "k" 24) := by
  have hall : ∀ block ∈ deepFunction.blocks.map Prod.fst,
      ∀ inst ∈ deepFunction.insts block, ∀ operand ∈ inst.kind.operands,
        (operand = 1 →
          (deepDescriptor deepInner 3 7 13 15 "k" 24).isControlInst deepFunction block inst = true →
          (deepDescriptor deepOuter 1 5 11 10 "i" 8).isControlInst deepFunction block inst =
            true) ∧
        (operand = 3 →
          (deepDescriptor deepOuter 1 5 11 10 "i" 8).isControlInst deepFunction block inst = true →
          (deepDescriptor deepInner 3 7 13 15 "k" 24).isControlInst deepFunction block inst =
            true) := by
    decide
  intro block inst hinst
  obtain ⟨insts, hmem, _⟩ := Function.mem_blocks_of_mem_insts hinst
  exact hall block (List.mem_map_of_mem hmem) inst hinst

/-- The loops over `i` and `k` change places and change back. -/
theorem deepNest_twice : ∃ nest' editor' editor'',
    applyLoopInterchange (fun _ _ => "i") deepNest 0 2 (.ofFunction deepFunction 100) =
        .ok (true, nest', editor') ∧
      applyLoopInterchange (fun _ _ => "i") nest' 0 2 editor' = .ok (true, deepNest, editor'') ∧
      (∃ block, editor'.function.insts block ≠ deepFunction.insts block) ∧
      ∀ block, editor''.function.insts block = deepFunction.insts block := by
  obtain ⟨editor'', hagain, hinsts⟩ := applyLoopInterchange_twice_iff deepEvolution
    (fun _ _ => "i") (.ofFunction deepFunction 100) _
    ⟨by decide, by decide, by decide⟩ (by decide) deepNest_agrees (by decide)
    (by decide : (0 : Nat) ≠ 2) rfl rfl rfl
  exact ⟨_, _, editor'', rfl, hagain, ⟨6, by decide⟩, hinsts.mpr deepFunction_controlsApart⟩

end Program

end PolyhedralPass
