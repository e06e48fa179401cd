/-
A nest inside its function.  Where the rest of the function enters the nest at its header
only and uses none of its values, functions that differ in the nest alone return the same.
-/
import PolyhedralPass.Involution
import PolyhedralPass.Preservation

namespace PolyhedralPass

section Shape

variable (F F' : Function) (home : List BlockId)

/-- The rest of the function enters a nest at its header and uses none of its values. -/
structure Function.Encloses (pre header exit : BlockId) : Prop where
  exit_outside : exit ∉ home
  entered : ∀ block ∉ home, ∀ succ ∈ F.successors block, succ ∈ home →
    block = pre ∧ succ = header
  closed : ∀ block ∉ home, ∀ inst ∈ F.insts block, ∀ operand ∈ inst.kind.operands,
    operand ∉ F.definedIn home
  stays : ∀ block ∈ home, ∀ inst ∈ F.insts block, ∀ value, inst.kind ≠ .ret value

/-- Two functions that differ in the operands of a nest at most. -/
structure DifferInside : Prop where
  skeleton : F'.skeleton = F.skeleton
  insts : ∀ block ∉ home, F'.insts block = F.insts block

variable {κ : Type} [DecidableEq κ] (target : Target κ)

/-- A block that returns a value and leaves a memory. -/
def Function.ReturnsAt (last : Config κ) (result : Option Word) (memory : κ → Word) : Prop :=
  F.TouchesByAccess last.block ∧
    ∃ inst value, F.terminator? last.block = some inst ∧ inst.kind = .ret value ∧
      value.map (F.behind target last).registers = result ∧
      (F.behind target last).memory = memory

/-- What a function that is executed from a configuration on returns. -/
def Function.Returns (config : Config κ) (result : Option Word) (memory : κ → Word) : Prop :=
  ∃ last, F.Steps target config last ∧ F.ReturnsAt target last result memory

end Shape

section Differ

variable {F F' : Function} {home : List BlockId} {pre header exit : BlockId}

theorem DifferInside.symm (h : DifferInside F F' home) : DifferInside F' F home :=
  ⟨h.skeleton.symm, fun block hblock => (h.insts block hblock).symm⟩

theorem successors_of_skeleton (h : F'.skeleton = F.skeleton) (block : BlockId) :
    F'.successors block = F.successors block := by
  rw [← Function.successors_skeleton F', h, Function.successors_skeleton]

theorem Function.Encloses.of_differ (h : F.Encloses home pre header exit)
    (hdiffer : DifferInside F F' home) : F'.Encloses home pre header exit where
  exit_outside := h.exit_outside
  entered := by
    intro block hblock succ hsucc
    rw [successors_of_skeleton hdiffer.skeleton] at hsucc
    exact h.entered block hblock succ hsucc
  closed := by
    intro block hblock inst hinst operand hoperand
    rw [definedIn_of_skeleton hdiffer.skeleton]
    rw [hdiffer.insts block hblock] at hinst
    exact h.closed block hblock inst hinst operand hoperand
  stays := by
    intro block hblock inst' hinst' value hret
    obtain ⟨inst, hinst, _, hkind⟩ := exists_inst_of_skeleton hdiffer.skeleton hinst'
    cases hold : inst.kind with
    | ret value' => exact h.stays block hblock inst hinst value' hold
    | _ =>
        rw [hold, hret] at hkind
        cases value <;> cases hkind

variable {κ : Type} {target : Target κ} {config config' : Config κ}

theorem Alike.symm (h : Alike F home config config') (hskeleton : F'.skeleton = F.skeleton) :
    Alike F' home config' config where
  block := h.block.symm
  pred := h.pred.symm
  memory := h.memory.symm
  registers := by
    intro value hvalue
    rw [definedIn_of_skeleton hskeleton] at hvalue
    exact (h.registers value hvalue).symm

/-- Registers behind the PHI nodes of a block outside. -/
theorem Alike.enter (halike : Alike F home config config') (hdiffer : DifferInside F F' home)
    (hF : F.Distinct) (h : F.Encloses home pre header exit) (hblock : config.block ∉ home)
    {value : Value} (hvalue : value ∉ F.definedIn home) :
    F'.enter config' value = F.enter config value := by
  have hinsts := hdiffer.insts config.block hblock
  have hphis : F'.phis config.block = F.phis config.block := by
    rw [Function.phis, hinsts, Function.phis]
  simp only [Function.enter, halike.block, hphis, halike.registers value hvalue]
  split_ifs with hphi
  · obtain ⟨inst, hinst, hdef, hisPhi⟩ := mem_map_phis.mp hphi
    obtain ⟨incoming, hkind⟩ : ∃ incoming, inst.kind = .phi incoming := by
      cases hkind : inst.kind <;> simp [hkind, InstKind.isPhi] at hisPhi ⊢
    have hF' := Function.distinct_of_skeleton hdiffer.skeleton hF
    rw [← hdef, incomingValueForBlock_eq hF hinst hkind,
      incomingValueForBlock_eq hF' (hinsts ▸ hinst) hkind, halike.pred]
    cases hfind : incoming.find? fun entry => entry.2 == config.pred with
    | none => rfl
    | some entry =>
        have hoperand : entry.1 ∈ inst.kind.operands := by
          rw [hkind]
          exact List.mem_map_of_mem (List.mem_of_find?_eq_some hfind)
        simp only [Option.map_some, Option.getD_some]
        exact halike.registers _ (h.closed _ hblock inst hinst _ hoperand)
  · rfl

variable [DecidableEq κ]

/-- The states behind a block outside. -/
theorem Alike.behind (halike : Alike F home config config') (hdiffer : DifferInside F F' home)
    (hF : F.Distinct) (h : F.Encloses home pre header exit) (hblock : config.block ∉ home) :
    (F'.behind target config').memory = (F.behind target config).memory ∧
      ∀ value, value ∉ F.definedIn home → (F'.behind target config').registers value =
        (F.behind target config).registers value := by
  have hcode : F'.code config.block = F.code config.block := by
    rw [Function.code, hdiffer.insts _ hblock, Function.code]
  rw [Function.behind, Function.behind, halike.block, hcode,
    machine_of_skeleton hdiffer.skeleton]
  refine @Straight.exec_agree _ _ _ _ _ _ _ { value | value ∉ F.definedIn home } ?_ _ _ ?_ ?_
  · intro line hline operand hoperand
    obtain ⟨inst, hinst, _, rfl⟩ := mem_code.mp hline
    rw [Inst.line, InstKind.op_operands] at hoperand
    exact h.closed _ hblock inst hinst operand hoperand
  · exact fun value hvalue => halike.enter hdiffer hF h hblock hvalue
  · exact halike.memory

theorem terminator?_of_insts {block : BlockId} (h : F'.insts block = F.insts block) :
    F'.terminator? block = F.terminator? block := by
  rw [Function.terminator?, h, Function.terminator?]

theorem mem_insts_of_terminator? {block : BlockId} {inst : Inst}
    (h : F.terminator? block = some inst) : inst ∈ F.insts block :=
  List.mem_of_getLast? (Option.filter_eq_some_iff.mp h).1

/-- A step from a block outside. -/
theorem Alike.step (halike : Alike F home config config') (hdiffer : DifferInside F F' home)
    (hF : F.Distinct) (h : F.Encloses home pre header exit) (hblock : config.block ∉ home)
    {next : Config κ} (hstep : F.stepBlock target config = some next) :
    ∃ next', F'.stepBlock target config' = some next' ∧ Alike F home next next' := by
  obtain ⟨hmemory, hregisters⟩ := @Alike.behind F F' home pre header exit κ target _ _ _ halike
    hdiffer hF h hblock
  obtain ⟨htouches, terminator, succ, hterminator, hchosen, rfl⟩ :=
    stepBlock_eq_some_iff.mp hstep
  have hinsts := hdiffer.insts config.block hblock
  refine ⟨⟨succ, config'.block, (F'.behind target config').registers,
    (F'.behind target config').memory⟩, ?_, ⟨rfl, halike.block, hmemory, hregisters⟩⟩
  refine stepBlock_eq_some_iff.mpr ⟨?_, terminator, succ, ?_, ?_, rfl⟩
  · rw [halike.block]
    exact touches_of_skeleton hdiffer.skeleton htouches
  · rw [halike.block, terminator?_of_insts hinsts, hterminator]
  · rw [chosen_congr fun operand hoperand => hregisters operand ?_, hchosen]
    exact h.closed _ hblock _ (mem_insts_of_terminator? hterminator) operand hoperand

/-- A block outside that returns. -/
theorem Alike.returnsAt (halike : Alike F home config config') (hdiffer : DifferInside F F' home)
    (hF : F.Distinct) (h : F.Encloses home pre header exit) (hblock : config.block ∉ home)
    {result : Option Word} {memory : κ → Word}
    (hreturns : F.ReturnsAt target config result memory) :
    F'.ReturnsAt target config' result memory := by
  obtain ⟨hmemory, hregisters⟩ := @Alike.behind F F' home pre header exit κ target _ _ _ halike
    hdiffer hF h hblock
  obtain ⟨htouches, inst, value, hterminator, hkind, hresult, hleft⟩ := hreturns
  refine ⟨?_, inst, value, ?_, hkind, ?_, hmemory.trans hleft⟩
  · rw [halike.block]
    exact touches_of_skeleton hdiffer.skeleton htouches
  · rw [halike.block, terminator?_of_insts (hdiffer.insts _ hblock), hterminator]
  · rw [← hresult]
    cases value with
    | none => rfl
    | some value =>
        have hoperand : value ∈ inst.kind.operands := by
          rw [hkind]
          exact List.mem_singleton_self value
        have hout := h.closed _ hblock inst (mem_insts_of_terminator? hterminator) value hoperand
        rw [Option.map_some, Option.map_some, hregisters value hout]

theorem Function.Encloses.not_mem_of_returnsAt (h : F.Encloses home pre header exit)
    {result : Option Word} {memory : κ → Word}
    (hreturns : F.ReturnsAt target config result memory) : config.block ∉ home := by
  obtain ⟨_, inst, value, hterminator, hkind, _⟩ := hreturns
  intro hmem
  exact h.stays _ hmem inst (mem_insts_of_terminator? hterminator) value hkind

end Differ

section Constants

variable {F : Function} {κ : Type} [DecidableEq κ] {target : Target κ} {config config' : Config κ}

/-- The registers of constants hold them. -/
def HoldsConstants (F : Function) (config : Config κ) : Prop :=
  ∀ value c, F.constant value = some c → config.registers value = c

/-- No step changes a constant. -/
theorem HoldsConstants.step (h : HoldsConstants F config) (hF : F.Distinct)
    (hstep : F.stepBlock target config = some config') : HoldsConstants F config' := by
  obtain ⟨_, terminator, succ, _, _, rfl⟩ := stepBlock_eq_some_iff.mp hstep
  intro value c hc
  have hnot : ∀ inst ∈ F.insts config.block, inst.value ≠ value := by
    rintro inst hinst rfl
    rw [hF.constants inst (Function.mem_allInsts hinst)] at hc
    exact absurd hc (by simp)
  have hphi : value ∉ (F.phis config.block).map Prod.fst := by
    intro hmem
    obtain ⟨inst, hinst, hvalue, _⟩ := mem_map_phis.mp hmem
    exact hnot inst hinst hvalue
  change (F.behind target config).registers value = c
  rw [Function.behind, Straight.exec_of_ne]
  · rw [← h value c hc]
    exact if_neg hphi
  · intro line hline
    obtain ⟨inst, hinst, _, rfl⟩ := mem_code.mp hline
    exact hnot inst hinst

theorem HoldsConstants.steps (h : HoldsConstants F config) (hF : F.Distinct)
    (hsteps : F.Steps target config config') : HoldsConstants F config' := by
  induction hsteps with
  | refl => exact h
  | tail _ hstep ih => exact ih.step hF hstep

end Constants

section Together

variable {F F' : Function} {home : List BlockId} {pre header exit : BlockId} {κ : Type}
  [DecidableEq κ] {target : Target κ} {start config config' : Config κ}

/-- Two executions side by side, outside the nest or where it is entered. -/
structure Together (F : Function) (home : List BlockId) (pre header : BlockId) (target : Target κ)
    (start config config' : Config κ) : Prop where
  reached : F.Steps target start config
  alike : Alike F home config config'
  entered : config.block ∈ home → config.pred = pre ∧ config.block = header

/-- Wherever the first execution enters the nest, both leave it side by side. -/
def PassedTogether (F F' : Function) (home : List BlockId) (pre header exit : BlockId)
    (target : Target κ) (start : Config κ) : Prop :=
  ∀ config config', F.Steps target start config → config.block = header → config.pred = pre →
    Alike F home config config' →
      ∃ left left', F.Passes target home config left ∧ F'.Passes target home config' left' ∧
        left.block = exit ∧ Alike F home left left'

theorem Together.refl (hstart : start.block ∉ home) :
    Together F home pre header target start start start where
  reached := Relation.ReflTransGen.refl
  alike := ⟨rfl, rfl, rfl, fun _ _ => rfl⟩
  entered hmem := absurd hmem hstart

/-- A step outside, of the first execution. -/
theorem Together.next (h : Together F home pre header target start config config')
    (henclosed : F.Encloses home pre header exit) (hblock : config.block ∉ home)
    {next next' : Config κ} (hstep : F.stepBlock target config = some next)
    (halike : Alike F home next next') : Together F home pre header target start next next' where
  reached := Relation.ReflTransGen.tail h.reached hstep
  alike := halike
  entered := by
    intro hmem
    obtain ⟨_, terminator, succ, hterminator, hchosen, rfl⟩ := stepBlock_eq_some_iff.mp hstep
    refine henclosed.entered _ hblock _ ?_ hmem
    rw [Function.successors, hterminator]
    exact mem_successors_of_chosen hchosen

theorem Together.step (h : Together F home pre header target start config config')
    (hdiffer : DifferInside F F' home) (hF : F.Distinct)
    (henclosed : F.Encloses home pre header exit) (hblock : config.block ∉ home)
    {next : Config κ} (hstep : F.stepBlock target config = some next) :
    ∃ next', F'.stepBlock target config' = some next' ∧
      Together F home pre header target start next next' := by
  obtain ⟨next', hstep', halike⟩ := h.alike.step hdiffer hF henclosed hblock hstep
  exact ⟨next', hstep', h.next henclosed hblock hstep halike⟩

/-- A step outside, of the second execution. -/
theorem Together.step' (h : Together F home pre header target start config config')
    (hdiffer : DifferInside F F' home) (hF : F.Distinct)
    (henclosed : F.Encloses home pre header exit) (hblock : config.block ∉ home)
    {next' : Config κ} (hstep' : F'.stepBlock target config' = some next') :
    ∃ next, F.stepBlock target config = some next ∧
      Together F home pre header target start next next' := by
  obtain ⟨next, hstep, halike⟩ := (h.alike.symm hdiffer.skeleton).step hdiffer.symm
    (Function.distinct_of_skeleton hdiffer.skeleton hF) (henclosed.of_differ hdiffer)
    (h.alike.block ▸ hblock) hstep'
  exact ⟨next, hstep, h.next henclosed hblock hstep (halike.symm hdiffer.skeleton.symm)⟩

/-- The nest is passed by both. -/
theorem Together.pass (h : Together F home pre header target start config config')
    (henclosed : F.Encloses home pre header exit)
    (hpass : PassedTogether F F' home pre header exit target start) (hblock : config.block ∈ home) :
    ∃ left left', F.Passes target home config left ∧ F'.Passes target home config' left' ∧
      left.block ∉ home ∧ left'.block ∉ home ∧
      Together F home pre header target start left left' := by
  obtain ⟨hpred, hheader⟩ := h.entered hblock
  obtain ⟨left, left', hsteps, hsteps', hexit, halike⟩ :=
    hpass config config' h.reached hheader hpred h.alike
  have hleft : left.block ∉ home := hexit ▸ henclosed.exit_outside
  have hleft' : left'.block ∉ home := halike.block ▸ hleft
  exact ⟨left, left', hsteps, hsteps', hleft, hleft',
    ⟨h.reached.trans hsteps.reaches, halike, fun hmem => absurd hmem hleft⟩⟩

theorem exists_steps_of_passedTogether (hdiffer : DifferInside F F' home) (hF : F.Distinct)
    (henclosed : F.Encloses home pre header exit) (hstart : start.block ∉ home)
    (hpass : PassedTogether F F' home pre header exit target start) {last : Config κ}
    (hlast : last.block ∉ home) (hsteps : F.Steps target start last) :
    ∃ last', F'.Steps target start last' ∧
      Together F home pre header target start last last' := by
  refine @Flow.exists_reaches_of_detours _ _ _ (·.block ∈ home)
    (Together F home pre header target start) ?_ ?_ _ _ _ hstart (.refl hstart) hsteps hlast
  · intro _ _ _ hblock h hstep
    exact h.step hdiffer hF henclosed hblock hstep
  · intro _ _ hblock h
    obtain ⟨left, left', hpasses, hpasses', hleft, _, hleaves⟩ := h.pass henclosed hpass hblock
    exact ⟨left, left', hpasses, hleft, hpasses'.reaches, hleaves⟩

theorem exists_steps_of_passedTogether' (hdiffer : DifferInside F F' home) (hF : F.Distinct)
    (henclosed : F.Encloses home pre header exit) (hstart : start.block ∉ home)
    (hpass : PassedTogether F F' home pre header exit target start) {last' : Config κ}
    (hlast' : last'.block ∉ home) (hsteps' : F'.Steps target start last') :
    ∃ last, F.Steps target start last ∧
      Together F home pre header target start last last' := by
  refine @Flow.exists_reaches_of_detours _ _ _ (·.block ∈ home)
    (fun config' config => Together F home pre header target start config config') ?_ ?_ _ _ _
      hstart (.refl hstart) hsteps' hlast'
  · intro _ _ _ hblock h hstep'
    exact h.step' hdiffer hF henclosed (h.alike.block ▸ hblock) hstep'
  · intro _ _ hblock h
    obtain ⟨left, left', hpasses, hpasses', _, hleft', hleaves⟩ :=
      h.pass henclosed hpass (h.alike.block ▸ hblock)
    exact ⟨left', left, hpasses', hleft', hpasses.reaches, hleaves⟩

/-- Functions that differ in a nest which both pass side by side return the same. -/
theorem returns_iff_of_passedTogether (hdiffer : DifferInside F F' home) (hF : F.Distinct)
    (henclosed : F.Encloses home pre header exit) (hstart : start.block ∉ home)
    (hpass : PassedTogether F F' home pre header exit target start) (result : Option Word)
    (memory : κ → Word) :
    F.Returns target start result memory ↔ F'.Returns target start result memory := by
  constructor
  · rintro ⟨last, hsteps, hreturns⟩
    have hlast := henclosed.not_mem_of_returnsAt hreturns
    obtain ⟨last', hsteps', htogether⟩ :=
      exists_steps_of_passedTogether hdiffer hF henclosed hstart hpass hlast hsteps
    exact ⟨last', hsteps', htogether.alike.returnsAt hdiffer hF henclosed hlast hreturns⟩
  · rintro ⟨last', hsteps', hreturns⟩
    have henclosed' := henclosed.of_differ hdiffer
    have hlast' := henclosed'.not_mem_of_returnsAt hreturns
    obtain ⟨last, hsteps, htogether⟩ :=
      exists_steps_of_passedTogether' hdiffer hF henclosed hstart hpass hlast' hsteps'
    exact ⟨last, hsteps, (htogether.alike.symm hdiffer.skeleton).returnsAt hdiffer.symm
      (Function.distinct_of_skeleton hdiffer.skeleton hF) henclosed' hlast' hreturns⟩

end Together

section Order

variable {F : Function} {home : List BlockId} {nest nest' : LoopNestDescriptor} {w : Nat}
  {pre header exit : BlockId}

theorem mem_definedIn {block : BlockId} {inst : Inst} (hblock : block ∈ home)
    (hinst : inst ∈ F.insts block) : inst.value ∈ F.definedIn home :=
  List.mem_flatMap.mpr ⟨block, hblock, List.mem_map_of_mem hinst⟩

/-- A value is defined in one block. -/
theorem not_mem_definedIn_of_outside (hF : F.Distinct) {block : BlockId} (hblock : block ∉ home)
    {inst : Inst} (hinst : inst ∈ F.insts block) : inst.value ∉ F.definedIn home := by
  intro hmem
  obtain ⟨other, hother, hvalue⟩ := List.mem_flatMap.mp hmem
  obtain ⟨found, hfound, heq⟩ := List.mem_map.mp hvalue
  obtain ⟨i, _, hi⟩ := Function.exists_definedAt hinst
  obtain ⟨j, _, hj⟩ := Function.exists_definedAt hfound
  rw [heq] at hj
  exact hblock ((hF.definedAt_unique hi hj).1 ▸ hother)

/-- The control of the loops stands in the nest. -/
theorem Tower.control_mem {loops : List LoopDescriptor} (h : Tower F home loops pre exit) :
    ∀ loop ∈ loops, ∀ value ∈ [loop.induction, loop.nextValue, loop.compare],
      value ∈ F.definedIn home := by
  have hcontrol : ∀ {loop : LoopDescriptor} {inside outside dest latch : BlockId}
      {blocks : List BlockId}, loop.TestedAtTop F home inside outside → F.Lane home dest blocks →
      blocks.getLast? = some latch → (∃ inst ∈ F.insts latch, inst.value = loop.nextValue) →
      ∀ value ∈ [loop.induction, loop.nextValue, loop.compare], value ∈ F.definedIn home := by
    intro loop inside outside dest latch blocks tested lane last next value hvalue
    simp only [List.mem_cons, List.not_mem_nil, or_false] at hvalue
    rcases hvalue with rfl | rfl | rfl
    · exact IsIndex.mem_definedIn ⟨tested.home, tested.phis⟩
    · obtain ⟨inst, hinst, heq⟩ := next
      exact heq ▸ mem_definedIn (mem_of_lane lane (List.mem_of_getLast? last)).1 hinst
    · obtain ⟨inst, hinst, heq⟩ := tested.compare
      exact heq ▸ mem_definedIn tested.home hinst
  induction h with
  | innermost tested preheader latch_eq lane last next =>
      intro loop hloop
      rw [List.mem_singleton.mp hloop]
      exact hcontrol tested lane last next
  | around tested preheader latch_eq front_lane front_last inside back_lane back_head back_last
      quiet next ih =>
      intro loop hloop
      rcases List.mem_cons.mp hloop with rfl | hloop
      · exact hcontrol tested back_lane back_last next
      · exact ih loop hloop

/-- An interchange of two loops of a nest differs in the nest only. -/
theorem differInside_swap (hF : F.Distinct) (hstructured : nest.Structured F home w pre exit)
    (h : F.Encloses home pre header exit) {outer inner : LoopDescriptor}
    (houter : outer ∈ nest.loops) (hinner : inner ∈ nest.loops) (preOuter preInner : BlockId)
    (name : Value → Option String) :
    DifferInside F { F.mapInsts (swapKind F preOuter preInner outer inner) with name } home where
  skeleton := Function.skeleton_mapInsts (skeleton_swapKind F)
  insts := by
    intro block hblock
    have hinsts : Function.insts { F.mapInsts (swapKind F preOuter preInner outer inner) with
        name } block = (F.insts block).map fun inst =>
          { inst with kind := swapKind F preOuter preInner outer inner block inst } :=
      Function.insts_mapInsts block
    have hcontrol := hstructured.tower.control_mem
    rw [hinsts]
    refine map_eq_self_iff.mpr fun inst hinst => ?_
    have hvalue := not_mem_definedIn_of_outside hF hblock hinst
    have hcontrols : inst.value ∉ outer.controls inner := by
      intro hmem
      rcases List.mem_append.mp (show inst.value ∈ [outer.induction, outer.nextValue,
        outer.compare] ++ [inner.induction, inner.nextValue, inner.compare] from hmem) with
        hmem | hmem
      · exact hvalue (hcontrol outer houter _ hmem)
      · exact hvalue (hcontrol inner hinner _ hmem)
    have hkind : swapKind F preOuter preInner outer inner block inst = inst.kind := by
      rw [swapKind, controlKind_of_not_mem hcontrols]
      refine InstKind.mapOperands_eq_self fun operand hoperand => ?_
      have hout := h.closed block hblock inst hinst operand hoperand
      apply swapUse_of_ne
      · rintro rfl
        exact hout (hcontrol outer houter _ List.mem_cons_self)
      · rintro rfl
        exact hout (hcontrol inner hinner _ List.mem_cons_self)
    rw [hkind]

end Order

section Run

variable {κ : Type} [DecidableEq κ] {target : Target κ} {start : Config κ} {env : Environment}
  {root : Loop} {editor editor' : Editor}

/-- A nest that is executed as it is described, in a function that leaves it to itself. -/
structure SelfContained (env : Environment) (target : Target κ) (start : Config κ) (F : Function)
    (root : Loop) (nest : LoopNestDescriptor) (home : List BlockId) (w : Nat)
    (pre exit : BlockId) : Prop where
  width : 1 < w
  sound : env.SE.Sound F (linearizePerfectNest root)
  analysed : analyzeLoopNest F env.SE root = some nest
  box : nest.Box F
  structured : nest.Structured F home w pre exit
  enclosed : F.Encloses home pre root.header exit
  outside : start.block ∉ home
  understood : ∀ config, F.Steps target start config → config.block = root.header →
    config.pred = pre → Understood F env.SE nest (F.interpretation target w config.registers)

/-- The first stage of an accepted nest keeps what the function returns. -/
theorem SelfContained.returns_iff {renamed : Function → Value → String} {address : Value → Nat}
    {nest nest' : LoopNestDescriptor} {home : List BlockId} {w : Nat} {pre exit : BlockId}
    {changed : Bool} (h : SelfContained env target start editor.function root nest home w pre exit)
    (hF : editor.function.Distinct) (hconstants : HoldsConstants editor.function start)
    (hlegal : isTilingLegal true nest (getDependencies true editor.function nest) = true)
    (horder : optimizeLoopOrder renamed address nest editor = .ok (changed, nest', editor'))
    (result : Option Word) (memory : κ → Word) :
    editor.function.Returns target start result memory ↔
      editor'.function.Returns target start result memory := by
  obtain ⟨outermost, rest, hloops, hdescribes⟩ := analyzeLoopNest_head h.analysed
  have hhead : nest.loops.head?.map (·.loopNode.header) = some root.header := by
    rw [hloops, List.head?_cons, Option.map_some, hdescribes.loopNode]
  have hdiffer : DifferInside editor.function editor'.function home := by
    cases changed with
    | false =>
        obtain ⟨_, rfl⟩ := optimizeLoopOrder_unchanged horder
        exact ⟨rfl, fun _ _ => rfl⟩
    | true =>
        obtain ⟨idxOuter, idxInner, _, hinterchange⟩ := optimizeLoopOrder_moved horder
        obtain ⟨outer, inner, preOuter, preInner, hswap⟩ := applyLoopInterchange_ok hinterchange
        obtain ⟨name, hfunction⟩ := hswap.function_eq
        rw [hfunction]
        exact differInside_swap hF h.structured h.enclosed
          (List.mem_of_getElem? hswap.getElem_outer) (List.mem_of_getElem? hswap.getElem_inner)
          preOuter preInner name
  refine returns_iff_of_passedTogether hdiffer hF h.enclosed h.outside ?_ result memory
  intro config config' hsteps hblock hpred halike
  obtain ⟨hstructured', hheads, hsame⟩ := h.structured.order h.width hF h.sound h.analysed h.box
    hlegal (h.understood config hsteps hblock hpred) horder
  exact exists_passes hF hdiffer.skeleton h.structured hstructured' hheads hsame
    (hconstants.steps hF hsteps) halike (hblock ▸ hhead) hpred

/-- So does a visit that tiles nothing. -/
theorem reorderNest_returns_iff (hF : editor.function.Distinct)
    (hconstants : HoldsConstants editor.function start)
    (hvisit : Selected (env.linked true) editor.function root → ∃ nest home w pre exit,
      SelfContained env target start editor.function root nest home w pre exit)
    (result : Option Word) (memory : κ → Word) :
    editor.function.Returns target start result memory ↔
      (reorderNest (env.linked true) root editor).2.function.Returns target start result
        memory := by
  by_cases hselected : Selected (env.linked true) editor.function root
  · obtain ⟨nest, home, w, pre, exit, hcontained⟩ := hvisit hselected
    obtain ⟨accepted, haccepted, hrectangular, hlegal⟩ := hselected
    obtain rfl := Option.some.inj (hcontained.analysed.symm.trans haccepted)
    obtain ⟨other, interchanged, nest', editor', hother, hinterchange, _, heq, _⟩ :=
      runNest_of_selected ⟨nest, haccepted, hrectangular, hlegal⟩
    obtain rfl := Option.some.inj (haccepted.symm.trans hother)
    rw [heq]
    unfold interchangeNest at hinterchange
    split_ifs at hinterchange
    · exact hcontained.returns_iff hF hconstants hlegal hinterchange result memory
    · obtain ⟨_, hrest⟩ := Prod.mk.inj (Except.ok.inj hinterchange)
      rw [(Prod.mk.inj hrest).2]
  · rw [reorderNest, runNest_of_not_selected hselected]

theorem reorderNests_returns_iff {roots : List Loop} (hF : editor.function.Distinct)
    (hconstants : HoldsConstants editor.function start)
    (hvisits : ∀ visit ∈ visits (env.linked true) roots editor,
      Selected (env.linked true) visit.2.function visit.1 → ∃ nest home w pre exit,
        SelfContained env target start visit.2.function visit.1 nest home w pre exit)
    (result : Option Word) (memory : κ → Word) :
    editor.function.Returns target start result memory ↔
      (reorderNests (env.linked true) roots editor).2.function.Returns target start result
        memory := by
  induction roots generalizing editor with
  | nil => exact Iff.rfl
  | cons root rest ih =>
      have hskeleton := (reorderNest_keeps (env.linked true) root editor).1
      have hfirst := reorderNest_returns_iff hF hconstants
        (hvisits (root, editor) List.mem_cons_self) result memory
      refine hfirst.trans (ih (Function.distinct_of_skeleton hskeleton hF) ?_
        fun visit hvisit => ?_)
      · intro value c hc
        rw [constant_of_skeleton hskeleton] at hc
        exact hconstants value c hc
      · exact hvisits visit (List.mem_cons_of_mem _ hvisit)

/-- A run that completes keeps what the function returns, and the memory it leaves, where the
nests that it interchanges are executed as the pass describes them. -/
theorem run_keepsReturns (env : Environment) (eqEq : Bool) (forest : List Loop)
    (editor editor' : Editor) (report : PreservedAnalyses) (target : Target κ) (start : Config κ)
    (hF : editor.function.Distinct) (hconstants : HoldsConstants editor.function start)
    (hvisits : ∀ visit ∈ visits (env.linked eqEq) (collectSubLoops forest) editor,
      Selected (env.linked eqEq) visit.2.function visit.1 → ∃ nest home w pre exit,
        SelfContained env target start visit.2.function visit.1 nest home w pre exit)
    (h : run (env.linked eqEq) forest editor = .ok (report, editor')) (result : Option Word)
    (memory : κ → Word) :
    editor.function.Returns target start result memory ↔
      editor'.function.Returns target start result memory := by
  have heditor : editor' = (reorderNests (env.linked eqEq) (collectSubLoops forest) editor).2 :=
    congrArg Prod.snd (run_ok h)
  rw [heditor]
  cases eqEq with
  | false => rw [reorderNests_linked]
  | true => exact reorderNests_returns_iff hF hconstants hvisits result memory

end Run

section Program

/-- Without tiling. -/
def orderEnvironment : Environment where
  options := { enableBlocking := false }
  SE := exampleEvolution
  legal _ _ := false
  address := id
  renamed _ _ := "i"

/-- The arguments of the example hold zero. -/
def exampleStart : Config (String × List Int) := ⟨0, 0, exampleRegisters, fun _ => ⟨32, 0⟩⟩

theorem exampleStart_constants : HoldsConstants updateFunction exampleStart := by
  intro value c h
  have hconstant : exampleConstant value = some c := h
  simp [exampleStart, exampleRegisters, hconstant]

theorem updateFunction_encloses : updateFunction.Encloses [1, 2, 3, 4, 5] 0 1 6 where
  exit_outside := by decide
  entered := by
    have hall : ∀ block ∈ updateFunction.blocks.map Prod.fst, block ∉ [1, 2, 3, 4, 5] →
        ∀ succ ∈ updateFunction.successors block, succ ∈ [1, 2, 3, 4, 5] →
          block = 0 ∧ succ = 1 := by decide
    intro block hblock succ hsucc
    exact hall block (Function.mem_blocks_of_mem_successors hsucc) hblock succ hsucc
  closed := by
    have hall : ∀ block ∈ updateFunction.blocks.map Prod.fst, block ∉ [1, 2, 3, 4, 5] →
        ∀ inst ∈ updateFunction.insts block, ∀ operand ∈ inst.kind.operands,
          operand ∉ updateFunction.definedIn [1, 2, 3, 4, 5] := by decide
    intro block hblock inst hinst
    obtain ⟨insts, hmem, _⟩ := Function.mem_blocks_of_mem_insts hinst
    exact hall block (List.mem_map_of_mem hmem) hblock inst hinst
  stays := by
    have hall : ∀ block ∈ [1, 2, 3, 4, 5], ∀ inst ∈ updateFunction.insts block,
        inst.kind.isTerminator = true → inst.kind.successors ≠ [] := by decide
    intro block hblock inst hinst value hkind
    refine hall block hblock inst hinst ?_ ?_ <;> rw [hkind] <;> rfl

theorem updateFunction_selfContained : SelfContained orderEnvironment elementTarget exampleStart
    updateFunction exampleOuter updateNest [1, 2, 3, 4, 5] 32 0 6 where
  width := by decide
  sound := exampleEvolution_sound rfl rfl rfl
  analysed := analyze_updateFunction
  box := updateNest_box
  structured := (structured_of_analyzeLoopNest ⟨by decide, by decide, by decide⟩
    (exampleEvolution_sound rfl rfl rfl) (by decide) analyze_updateFunction updateFunction_nested
    (by decide) updateNest_reads).1
  enclosed := updateFunction_encloses
  outside := by decide
  understood config _ _ _ := updateFunction_understood config.registers

/-- A chain of one loop is no nest. -/
theorem not_selected_exampleInner :
    ¬ Selected (orderEnvironment.linked true) updateFunction exampleInner := by
  rintro ⟨nest, hnest, _⟩
  have hnone : analyzeLoopNest updateFunction exampleEvolution exampleInner = none := rfl
  exact absurd (hnest.symm.trans hnone) (by simp)

theorem selected_updateFunction :
    Selected (orderEnvironment.linked true) updateFunction exampleOuter :=
  ⟨updateNest, analyze_updateFunction, rfl, updateNest_legal⟩

theorem collect_exampleOuter : collectSubLoops [exampleOuter] = [exampleInner, exampleOuter] := rfl

/-- The visit of the inner loop leaves the function to that of the outer one. -/
theorem reorderNest_exampleInner : reorderNest (orderEnvironment.linked true) exampleInner
    (.ofFunction updateFunction 100) = (false, .ofFunction updateFunction 100) := by
  rw [reorderNest, runNest_of_not_selected not_selected_exampleInner]

theorem reorder_updateFunction : (reorder (orderEnvironment.linked true) [exampleOuter]
    (.ofFunction updateFunction 100)).1 = .none := by
  obtain ⟨nest, interchanged, nest', editor', hnest, hinterchange, _, heq, _⟩ :=
    @runNest_of_selected (orderEnvironment.linked true) exampleOuter
      (.ofFunction updateFunction 100) selected_updateFunction
  obtain rfl : updateNest = nest := Option.some.inj (analyze_updateFunction.symm.trans hnest)
  have hmoved : ∃ moved left,
      interchangeNest (orderEnvironment.linked true) updateNest (.ofFunction updateFunction 100) =
        .ok (true, moved, left) := ⟨_, _, rfl⟩
  obtain ⟨moved, left, hmoved⟩ := hmoved
  obtain ⟨rfl, _⟩ := Prod.mk.inj (Except.ok.inj (hmoved.symm.trans hinterchange))
  simp [reorder, collect_exampleOuter, reorderNests, reorderNest_exampleInner, heq]

theorem updateFunction_run_keepsReturns : ∃ editor',
    run (orderEnvironment.linked true) [exampleOuter] (.ofFunction updateFunction 100) =
        .ok (.none, editor') ∧
      ∀ result memory, updateFunction.Returns elementTarget exampleStart result memory ↔
        editor'.function.Returns elementTarget exampleStart result memory := by
  have hcompletes := @run_of_not_tiled (orderEnvironment.linked true) [exampleOuter]
    (.ofFunction updateFunction 100) (by rintro ⟨_, _, hblocking, _⟩; cases hblocking)
  have hreport : reorder (orderEnvironment.linked true) [exampleOuter]
      (.ofFunction updateFunction 100) = (.none, _) := Prod.ext reorder_updateFunction rfl
  rw [hreport] at hcompletes
  refine ⟨_, hcompletes, fun result memory => run_keepsReturns orderEnvironment true
    [exampleOuter] (.ofFunction updateFunction 100) _ _ elementTarget exampleStart
    ⟨by decide, by decide, by decide⟩ exampleStart_constants ?_ hcompletes result memory⟩
  intro visit hvisit hselected
  rw [collect_exampleOuter, visits, visits, visits, reorderNest_exampleInner] at hvisit
  rcases List.mem_pair.mp hvisit with rfl | rfl
  · exact absurd hselected not_selected_exampleInner
  · exact ⟨updateNest, [1, 2, 3, 4, 5], 32, 0, 6, updateFunction_selfContained⟩

end Program

end PolyhedralPass
