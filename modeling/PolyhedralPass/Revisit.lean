/-
Loops that belong to several nests of a run.  The pass visits every loop with the
chain below it, inner loops first, and ScalarEvolution keeps its answers for the
whole run.  Tiling takes the canonical induction variables away, so that a tiled loop
is not analysed again; an interchange leaves them.
-/
import PolyhedralPass.Pass
import PolyhedralPass.Placement

namespace PolyhedralPass

section Forest

mutual

/-- The chain below a collected loop is collected. -/
theorem chain_subset_collectLoops : ∀ L : Loop, ∀ root ∈ collectLoopsRecursively L,
    linearizePerfectNest root ⊆ collectLoopsRecursively L
  | .mk header blocks subLoops => by
      intro root hroot
      rw [collectLoopsRecursively] at hroot ⊢
      rcases List.mem_append.mp hroot with hroot | hroot
      · exact List.subset_append_of_subset_left _ (chain_subset_collectSubLoops subLoops root hroot)
      · obtain rfl := List.mem_singleton.mp hroot
        rw [linearizePerfectNest]
        refine List.cons_subset.mpr ⟨by simp, ?_⟩
        exact List.subset_append_of_subset_left _ (onlyChild_subset_collectSubLoops subLoops)

theorem chain_subset_collectSubLoops : ∀ loops : List Loop, ∀ root ∈ collectSubLoops loops,
    linearizePerfectNest root ⊆ collectSubLoops loops
  | [] => by simp [collectSubLoops]
  | loop :: rest => by
      intro root hroot
      rw [collectSubLoops] at hroot ⊢
      rcases List.mem_append.mp hroot with hroot | hroot
      · exact List.subset_append_of_subset_left _ (chain_subset_collectLoops loop root hroot)
      · exact List.subset_append_of_subset_right _ (chain_subset_collectSubLoops rest root hroot)

theorem onlyChild_subset_collectSubLoops : ∀ loops : List Loop,
    linearizeOnlyChild loops ⊆ collectSubLoops loops
  | [] => by simp [linearizeOnlyChild]
  | [.mk header blocks subLoops] => by
      have hchild := onlyChild_subset_collectSubLoops subLoops
      simp only [linearizeOnlyChild, linearizePerfectNest, collectSubLoops, collectLoopsRecursively,
        List.append_nil]
      exact List.cons_subset.mpr ⟨by simp, List.subset_append_of_subset_left _ hchild⟩
  | _ :: _ :: _ => by simp [linearizeOnlyChild]

end

end Forest

section Tiled

variable (F : Function) (L : Loop) (iv : Value)

/-- The loop is left by a test of a PHI node of its header. -/
structure Tests : Prop where
  phi : ∃ inst ∈ F.insts L.header, inst.value = iv ∧ ∃ incoming, inst.kind = .phi incoming
  test : ∃ exiting value type cond ifTrue ifFalse, L.exitingBlock F = some exiting ∧
    F.terminator? exiting = some ⟨value, type, .condBr cond ifTrue ifFalse⟩ ∧
    ∃ inst ∈ F.allInsts, inst.value = cond ∧ ∃ predicate bound, inst.kind = .icmp predicate iv bound

/-- A loop whose tested PHI node is not entered with a constant, as the point loops
of a tiled nest are. -/
def Tiled : Prop :=
  ∃ iv, Tests F L iv ∧ ∀ block ∉ L.blocks, ∀ start,
    F.incomingValueForBlock iv block = some start → F.constant start = none

variable {F L iv}

theorem Describes.tests {SE : ScalarEvolution} {loop : LoopDescriptor} (hF : F.Distinct)
    (h : Describes F SE L loop) : Tests F L loop.induction where
  phi := h.phi
  test := by
    obtain ⟨exiting, hexiting, value, type, cond, ifTrue, ifFalse, hterminator, type', hcond⟩ :=
      h.exit
    obtain ⟨hmem, hvalue⟩ := (Function.inst?_eq_some hF.values_nodup).mp hcond
    exact ⟨exiting, value, type, cond, ifTrue, ifFalse, hexiting, hterminator, _, hmem, hvalue,
      _, _, rfl⟩

/-- The test of a loop has one induction variable. -/
theorem Tests.unique {iv' : Value} (hF : F.Distinct) (h : Tests F L iv) (h' : Tests F L iv') :
    iv = iv' := by
  obtain ⟨exiting, _, _, cond, _, _, hexiting, hterminator, inst, hinst, hvalue, _, _, hkind⟩ :=
    h.test
  obtain ⟨exiting', _, _, cond', _, _, hexiting', hterminator', inst', hinst', hvalue', _, _,
    hkind'⟩ := h'.test
  obtain rfl : exiting = exiting' := Option.some.inj (hexiting.symm.trans hexiting')
  have hsame := Option.some.inj (hterminator.symm.trans hterminator')
  obtain ⟨_, _, hbr⟩ := Inst.mk.inj hsame
  obtain ⟨rfl, _, _⟩ := InstKind.condBr.inj hbr
  obtain rfl := Function.eq_of_value_eq hF.values_nodup hinst hinst' (hvalue.trans hvalue'.symm)
  exact (InstKind.icmp.inj (hkind.symm.trans hkind')).2.1

/-- A tiled loop is not described again. -/
theorem Tiled.not_describes {SE : ScalarEvolution} {loop : LoopDescriptor} (hF : F.Distinct)
    (h : Tiled F L) : ¬ Describes F SE L loop := by
  intro hdescribes
  obtain ⟨iv, htests, hstart⟩ := h
  obtain rfl := htests.unique hF (hdescribes.tests hF)
  obtain ⟨preheader, hpreheader, hincoming⟩ := hdescribes.preheader
  obtain ⟨c, hc⟩ := hdescribes.start_next.1
  rw [hstart preheader (loopPreheader_spec hpreheader).2.1 _ hincoming] at hc
  exact absurd hc (by simp)

end Tiled

section Swap

variable {F : Function} {SE : ScalarEvolution} {L : Loop} {iv : Value}
  {outer inner : LoopDescriptor} {preOuter preInner : BlockId}

/-- A comparison is no induction variable. -/
theorem Describes.induction_ne_compare {loop : LoopDescriptor} (hF : F.Distinct)
    (h : Describes F SE L loop) {inst : Inst} (hinst : inst ∈ F.allInsts) {predicate : Predicate}
    {lhs rhs : Value} (hkind : inst.kind = .icmp predicate lhs rhs) :
    inst.value ≠ loop.induction := by
  intro heq
  obtain ⟨found, hfound, hvalue, incoming, hphi⟩ := h.phi
  have hsame := Function.eq_of_value_eq hF.values_nodup hinst (Function.mem_allInsts hfound)
    (heq.trans hvalue.symm)
  rw [hsame, hphi] at hkind
  exact absurd hkind (by simp)

/-- The test of a described loop is its comparison. -/
theorem Describes.compare_of_tests {loop : LoopDescriptor} (h : Describes F SE loop.loopNode loop)
    {exiting : BlockId} {value cond : Value} {type : IRType} {ifTrue ifFalse : BlockId}
    (hexiting : loop.loopNode.exitingBlock F = some exiting)
    (hterminator : F.terminator? exiting = some ⟨value, type, .condBr cond ifTrue ifFalse⟩) :
    cond = loop.compare := by
  obtain ⟨exiting', hexiting', _, _, cond', _, _, hterminator', _, hcond⟩ := h.exit
  obtain rfl : exiting = exiting' := Option.some.inj (hexiting.symm.trans hexiting')
  obtain ⟨_, _, hbr⟩ := Inst.mk.inj (Option.some.inj (hterminator.symm.trans hterminator'))
  obtain ⟨rfl, _, _⟩ := InstKind.condBr.inj hbr
  have hvalue := List.find?_some hcond
  exact (beq_iff_eq.mp hvalue).symm

/-- The tests of the loops are what they were behind an interchange. -/
theorem Tests.swap (hF : F.Distinct) (houter : Describes F SE outer.loopNode outer)
    (hinner : Describes F SE inner.loopNode inner) (h : Tests F L iv)
    (hivOuter : iv = outer.induction → L = outer.loopNode)
    (hivInner : iv = inner.induction → L = inner.loopNode) :
    Tests (F.mapInsts (swapKind F preOuter preInner outer inner)) L iv where
  phi := by
    obtain ⟨inst, hinst, hvalue, incoming, hkind⟩ := h.phi
    obtain ⟨incoming', hphi⟩ := exists_controlKind_phi preOuter preInner outer inner hkind
    refine ⟨_, mem_insts_mapInsts hinst, hvalue, incoming'.map fun entry =>
      (swapUse F outer inner L.header inst entry.1, entry.2), ?_⟩
    rw [swapKind, hphi, InstKind.mapOperands]
  test := by
    obtain ⟨exiting, value, type, cond, ifTrue, ifFalse, hexiting, hterminator, inst, hinst, hvalue,
      predicate, bound, hkind⟩ := h.test
    obtain ⟨block, hblock⟩ := Function.exists_block_of_mem hF.blocks_nodup hinst
    obtain ⟨bound', hicmp⟩ := controlKind_icmp preOuter preInner outer inner hkind
    have hcond : swapUse F outer inner exiting ⟨value, type, .condBr cond ifTrue ifFalse⟩ cond =
        cond :=
      swapUse_of_ne (hvalue ▸ houter.induction_ne_compare hF hinst hkind)
        (hvalue ▸ hinner.induction_ne_compare hF hinst hkind)
    -- an induction variable stays in the test of its own loop
    have hiv : swapUse F outer inner block inst iv = iv := by
      rw [swapUse]
      split_ifs with hout hcontrol hin hcontrol
      · rfl
      · obtain rfl := hivOuter hout
        rw [houter.compare_of_tests hexiting hterminator] at hvalue
        exact absurd (by simp [LoopDescriptor.isControlInst, hvalue]) hcontrol
      · rfl
      · obtain rfl := hivInner hin
        rw [hinner.compare_of_tests hexiting hterminator] at hvalue
        exact absurd (by simp [LoopDescriptor.isControlInst, hvalue]) hcontrol
      · rfl
    refine ⟨exiting, value, type, cond, ifTrue, ifFalse, ?_, ?_, _,
      Function.mem_allInsts (mem_insts_mapInsts hblock), hvalue, predicate,
      swapUse F outer inner block inst bound', ?_⟩
    · rw [keepsBranches_swapKind.exitingBlock_eq, hexiting]
    · rw [keepsBranches_swapKind.terminator, hterminator, Option.map_some, swapKind,
        controlKind_condBr preOuter preInner outer inner rfl, InstKind.mapOperands, hcond]
    · rw [swapKind, hicmp, InstKind.mapOperands, hiv]

theorem constant_swapUse (hF : F.Distinct) (houter : Describes F SE outer.loopNode outer)
    (hinner : Describes F SE inner.loopNode inner) {value : Value}
    (hvalue : F.constant value = none) (block : BlockId) (inst : Inst) :
    F.constant (swapUse F outer inner block inst value) = none := by
  have hinduction : ∀ loop : LoopDescriptor, Describes F SE loop.loopNode loop →
      F.constant loop.induction = none := by
    intro loop hloop
    obtain ⟨phi, hphi, heq, _⟩ := hloop.phi
    exact heq ▸ hF.constants phi (Function.mem_allInsts hphi)
  rw [swapUse]
  split_ifs
  · exact hvalue
  · exact hinduction inner hinner
  · exact hvalue
  · exact hinduction outer houter
  · exact hvalue

/-- A tiled loop stays tiled when other loops are interchanged. -/
theorem Tiled.swap (hF : F.Distinct) (houter : Describes F SE outer.loopNode outer)
    (hinner : Describes F SE inner.loopNode inner) (h : Tiled F L)
    (hheaderOuter : L.header ≠ outer.loopNode.header)
    (hheaderInner : L.header ≠ inner.loopNode.header) :
    Tiled (F.mapInsts (swapKind F preOuter preInner outer inner)) L := by
  obtain ⟨iv, htests, hstart⟩ := h
  obtain ⟨inst, hinst, rfl, incoming, hkind⟩ := htests.phi
  have hneOuter : inst.value ≠ outer.induction := by
    intro heq
    exact hheaderOuter (houter.induction_kind hF hinst heq).1
  have hneInner : inst.value ≠ inner.induction := by
    intro heq
    exact hheaderInner (hinner.induction_kind hF hinst heq).1
  refine ⟨inst.value, htests.swap hF houter hinner (fun heq => absurd heq hneOuter)
    (fun heq => absurd heq hneInner), ?_⟩
  intro block hblock start hincoming
  have hmapped := mem_insts_mapInsts (f := swapKind F preOuter preInner outer inner) hinst
  have hkind' : swapKind F preOuter preInner outer inner L.header inst = .phi
      (incoming.map fun entry => (swapUse F outer inner L.header inst entry.1, entry.2)) := by
    rw [swapKind, controlKind_phi preOuter preInner outer inner hkind hneOuter hneInner,
      InstKind.mapOperands]
  have hnew := incomingValueForBlock_eq hF.mapInsts hmapped hkind' block
  rw [hnew, List.find?_map, Option.map_map] at hincoming
  obtain ⟨entry, hentry, rfl⟩ := Option.map_eq_some_iff.mp hincoming
  refine constant_swapUse hF houter hinner (hstart block hblock entry.1 ?_) L.header inst
  rw [incomingValueForBlock_eq hF hinst hkind]
  exact Option.map_eq_some_iff.mpr ⟨entry, hentry, rfl⟩

end Swap

section Stages

variable {env : Environment} {root : Loop} {nest nest' : LoopNestDescriptor}
  {editor editor' : Editor}

theorem optimizeLoopOrder_changed {renamed : Function → Value → String} {address : Value → Nat}
    (h : optimizeLoopOrder renamed address nest editor = .ok (true, nest', editor')) :
    ∃ idxOuter idxInner,
      applyLoopInterchange renamed nest idxOuter idxInner editor = .ok (true, nest', editor') := by
  unfold optimizeLoopOrder at h
  split_ifs at h with hdepth
  · exact absurd (Prod.mk.inj (Except.ok.inj h)).1 (by simp)
  · split at h
    · exact absurd (Prod.mk.inj (Except.ok.inj h)).1 (by simp)
    · simp only at h
      split_ifs at h with hinnermost
      · exact ⟨_, _, h⟩
      · exact absurd (Prod.mk.inj (Except.ok.inj h)).1 (by simp)

/-- The choice between the loops prefers none, or the one that is the innermost already. -/
def LoopNestDescriptor.InOrder (address : Value → Nat) (nest : LoopNestDescriptor) : Prop :=
  ∀ best, bestIV address nest = some best → bestIdx nest best = nest.depth - 1

theorem optimizeLoopOrder_not_inOrder {renamed : Function → Value → String}
    {address : Value → Nat}
    (h : optimizeLoopOrder renamed address nest editor = .ok (true, nest', editor')) :
    ¬ nest.InOrder address := by
  intro horder
  have hkept : optimizeLoopOrder renamed address nest editor = .ok (false, nest, editor) := by
    unfold optimizeLoopOrder
    split_ifs with hdepth
    · rfl
    · cases hbest : bestIV address nest with
      | none => rfl
      | some best => simp only [horder best hbest, ne_eq, not_true, if_false]
  rw [hkept] at h
  exact absurd (Prod.mk.inj (Except.ok.inj h)).1 (by simp)

/-- What the stage in front of tiling leaves behind. -/
structure Prepared (root : Loop) (nest' : LoopNestDescriptor) (editor editor' : Editor) : Prop where
  distinct : editor'.function.Distinct
  nodes : nest'.loops.map LoopDescriptor.loopNode = linearizePerfectNest root
  tests : ∀ loop ∈ nest'.loops, Tests editor'.function loop.loopNode loop.induction
  keeps : ∀ L, (∀ L' ∈ linearizePerfectNest root, L.header ≠ L'.header) →
    Tiled editor.function L → Tiled editor'.function L
  preheader : root.loopPreheader editor'.function = root.loopPreheader editor.function
  exit : root.exitBlock editor'.function = root.exitBlock editor.function

theorem Prepared.exists_outermost (h : Prepared root nest' editor editor') :
    ∃ outermost rest, nest'.loops = outermost :: rest ∧ outermost.loopNode = root := by
  have hnodes := h.nodes
  cases root with
  | mk header blocks subLoops =>
      rw [linearizePerfectNest] at hnodes
      obtain ⟨outermost, rest, hloops, hnode, _⟩ := List.map_eq_cons_iff.mp hnodes
      exact ⟨outermost, rest, hloops, hnode⟩

theorem Tests.named {F : Function} {L : Loop} {iv : Value} (h : Tests F L iv)
    (name : Value → Option String) : Tests { F with name } L iv := ⟨h.phi, h.test⟩

theorem Tiled.named {F : Function} {L : Loop} (h : Tiled F L) (name : Value → Option String) :
    Tiled { F with name } L := by
  obtain ⟨iv, htests, hstart⟩ := h
  exact ⟨iv, htests.named name, hstart⟩

theorem Function.Distinct.named {F : Function} (h : F.Distinct) (name : Value → Option String) :
    ({ F with name } : Function).Distinct := ⟨h.blocks_nodup, h.values_nodup, h.constants⟩

/-- A nest that is left as it is. -/
theorem prepared_self (hF : editor.function.Distinct)
    (hnest : analyzeLoopNest editor.function env.SE root = some nest) :
    Prepared root nest editor editor := by
  obtain ⟨_, hforall, _⟩ := describes_of_analyzeLoopNest hnest
  refine ⟨hF, map_loopNode hforall, ?_, fun _ _ h => h, rfl, rfl⟩
  intro loop hloop
  obtain ⟨k, hk⟩ := List.getElem?_of_mem hloop
  exact (describes_of_getElem? hforall hk).2.tests hF

/-- A nest of which two loops are interchanged. -/
theorem prepared_interchange {renamed : Function → Value → String} {idxOuter idxInner : Nat}
    (hF : editor.function.Distinct)
    (hheaders : ∀ L ∈ linearizePerfectNest root, ∀ L' ∈ linearizePerfectNest root,
      L.header = L'.header → L = L')
    (hnest : analyzeLoopNest editor.function env.SE root = some nest)
    (h : applyLoopInterchange renamed nest idxOuter idxInner editor = .ok (true, nest', editor')) :
    Prepared root nest' editor editor' := by
  obtain ⟨_, hforall, _⟩ := describes_of_analyzeLoopNest hnest
  obtain ⟨outer, inner, preOuter, preInner, hswap⟩ := applyLoopInterchange_ok h
  obtain ⟨houterMem, houter⟩ := describes_of_getElem? hforall hswap.getElem_outer
  obtain ⟨hinnerMem, hinner⟩ := describes_of_getElem? hforall hswap.getElem_inner
  obtain ⟨name, hfunction⟩ := hswap.function_eq
  have hf : Function.KeepsBranches (swapKind editor.function preOuter preInner outer inner) :=
    keepsBranches_swapKind
  have hself := prepared_self hF hnest
  -- the loop of an induction variable is known by its header
  have hnode : ∀ loop ∈ nest.loops, ∀ other : LoopDescriptor,
      other.loopNode ∈ linearizePerfectNest root →
      Describes editor.function env.SE other.loopNode other →
      loop.induction = other.induction → loop.loopNode = other.loopNode := by
    intro loop hloop other hmem hother heq
    obtain ⟨inst, hinst, hvalue, _⟩ := (hself.tests loop hloop).phi
    refine hheaders _ ?_ _ hmem (hother.induction_kind hF hinst (hvalue.trans heq)).1
    rw [← hself.nodes]
    exact List.mem_map_of_mem hloop
  have hinductions : nest'.loops.map (fun loop => (loop.loopNode, loop.induction)) =
      nest.loops.map fun loop => (loop.loopNode, loop.induction) := by
    rw [hswap.nest_eq]
    exact map_swapBounds (fun _ _ => rfl) hswap.getElem_outer hswap.getElem_inner
  refine ⟨?_, ?_, ?_, ?_, ?_, ?_⟩
  · rw [hfunction]
    exact hF.mapInsts.named name
  · rw [hswap.nest_eq, map_swapBounds (fun _ _ => rfl) hswap.getElem_outer hswap.getElem_inner,
      hself.nodes]
  · intro loop hloop
    have hmem := List.mem_map_of_mem
      (f := fun loop : LoopDescriptor => (loop.loopNode, loop.induction)) hloop
    rw [hinductions] at hmem
    obtain ⟨old, hold, heq⟩ := List.mem_map.mp hmem
    obtain ⟨hsameNode, hsameIV⟩ := Prod.mk.inj heq
    rw [← hsameNode, ← hsameIV, hfunction]
    refine ((hself.tests old hold).swap hF houter hinner ?_ ?_).named name
    · exact hnode old hold outer (List.mem_of_getElem? houterMem) houter
    · exact hnode old hold inner (List.mem_of_getElem? hinnerMem) hinner
  · intro L hL htiled
    rw [hfunction]
    exact (htiled.swap hF houter hinner (hL _ (List.mem_of_getElem? houterMem))
      (hL _ (List.mem_of_getElem? hinnerMem))).named name
  · rw [hfunction]
    exact hf.loopPreheader_eq root
  · rw [hfunction]
    exact hf.exitBlock_eq root

end Stages

section Run

variable (env : Environment) (tile : LoopNestDescriptor → Editor → Except Fault (Bool × Editor))

/-- What tiling is taken for: it completes on every nest with a preheader and an exit,
and starts each point loop with the induction variable of its tile loop. -/
structure CompletesTiling (options : Options) : Prop where
  unchanged : ∀ nest editor editor', tile nest editor = .ok (false, editor') → editor' = editor
  completes : ∀ nest editor outermost rest preheader exit, options.enableBlocking = true →
    2 ≤ nest.depth → nest.loops = outermost :: rest →
    outermost.loopNode.loopPreheader editor.function = some preheader →
    outermost.loopNode.exitBlock editor.function = some exit →
    ∃ editor', tile nest editor = .ok (true, editor')
  distinct : ∀ nest editor editor', editor.function.Distinct →
    tile nest editor = .ok (true, editor') → editor'.function.Distinct
  tiled : ∀ nest editor editor', editor.function.Distinct →
    (∀ loop ∈ nest.loops, Tests editor.function loop.loopNode loop.induction) →
    tile nest editor = .ok (true, editor') → ∀ loop ∈ nest.loops,
      Tiled editor'.function loop.loopNode
  keeps : ∀ nest editor editor', editor.function.Distinct →
    (∀ loop ∈ nest.loops, Tests editor.function loop.loopNode loop.induction) →
    tile nest editor = .ok (true, editor') →
    ∀ L, Tiled editor.function L → Tiled editor'.function L

/-- The nest below a loop goes through the transformations. -/
def Selected (F : Function) (root : Loop) : Prop :=
  ∃ nest, analyzeLoopNest F env.SE root = some nest ∧ isRectangularNest nest = true ∧
    env.legal F nest = true

/-- Interchange is on, and the order of the loops of the nest below the loop is not the one
that is chosen. -/
def Reorders (F : Function) (root : Loop) : Prop :=
  env.options.enableInterchange = true ∧
    ∃ nest, analyzeLoopNest F env.SE root = some nest ∧ ¬ nest.InOrder env.address

/-- A nest that goes through the transformations is not reordered, or is tiled, or has no
loop in common with the chains below the loops that are visited later; and of these chains
only such as share a loop with it lie around it.  Chains of one loop are no nests; the other
ones count whether they go through the transformations or not. -/
structure StandsAlone (later : List Loop) (root : Loop) (F : Function) : Prop where
  apart : ¬ Reorders env F root ∨
    (env.options.enableBlocking = true ∧ (root.exitBlock F).isSome) ∨
    ∀ other ∈ later, 2 ≤ (linearizePerfectNest other).length →
      ∀ L ∈ linearizePerfectNest root, L ∉ linearizePerfectNest other
  inside : ∀ other ∈ later, root.header ∈ other.blocks → 2 ≤ (linearizePerfectNest other).length →
    ∃ L ∈ linearizePerfectNest root, L ∈ linearizePerfectNest other

/-- Each nest that goes through the transformations stands alone when it is visited. -/
def RunMeets : List Loop → Editor → Prop
  | [], _ => True
  | root :: rest, editor =>
      (Selected env editor.function root → StandsAlone env rest root editor.function) ∧
        ∀ changed editor', runNest env tile root editor = .ok (changed, editor') →
          RunMeets rest editor'

/-- No loop is in two rewritten nests, and no nest is rewritten around one that was
rewritten before. -/
def AnalysedFresh (changes : List (Loop × Bool)) : Prop :=
  changes.Pairwise fun first second => first.2 = true → second.2 = true →
    (∀ L ∈ linearizePerfectNest first.1, L ∉ linearizePerfectNest second.1) ∧
      first.1.header ∉ second.1.blocks

/-- What one round of the pass does. -/
structure Round (root : Loop) (changed : Bool) (editor editor' : Editor) : Prop where
  distinct : editor'.function.Distinct
  keeps : ∀ L, (∀ L' ∈ linearizePerfectNest root, L ≠ L' → L.header ≠ L'.header) →
    Tiled editor.function L → Tiled editor'.function L
  selected : changed = true → Selected env editor.function root
  tiled_or_not : changed = true → (∀ L ∈ linearizePerfectNest root, Tiled editor'.function L) ∨
    (Reorders env editor.function root ∧
      ¬ (env.options.enableBlocking = true ∧ (root.exitBlock editor.function).isSome))

variable {env tile} {root : Loop} {editor editor' : Editor} {changed : Bool}

/-- A selected nest has no tiled loop. -/
theorem Selected.not_tiled {F : Function} (hF : F.Distinct) (h : Selected env F root) :
    2 ≤ (linearizePerfectNest root).length ∧ ∀ L ∈ linearizePerfectNest root, ¬ Tiled F L := by
  obtain ⟨nest, hnest, _⟩ := h
  obtain ⟨hdepth, hforall, _⟩ := describes_of_analyzeLoopNest hnest
  refine ⟨hforall.length_eq ▸ hdepth, ?_⟩
  intro L hL htiled
  rw [← map_loopNode hforall] at hL
  obtain ⟨loop, hloop, rfl⟩ := List.mem_map.mp hL
  obtain ⟨k, hk⟩ := List.getElem?_of_mem hloop
  exact htiled.not_describes hF (describes_of_getElem? hforall hk).2

theorem prepared_interchangeNest {nest nest' : LoopNestDescriptor} {interchanged : Bool}
    (hF : editor.function.Distinct)
    (hheaders : ∀ L ∈ linearizePerfectNest root, ∀ L' ∈ linearizePerfectNest root,
      L.header = L'.header → L = L')
    (hnest : analyzeLoopNest editor.function env.SE root = some nest)
    (h : interchangeNest env nest editor = .ok (interchanged, nest', editor')) :
    Prepared root nest' editor editor' ∧
      (interchanged = true → Reorders env editor.function root) := by
  unfold interchangeNest at h
  split_ifs at h with henabled
  · cases interchanged with
    | false =>
        obtain ⟨rfl, rfl⟩ := optimizeLoopOrder_unchanged h
        exact ⟨prepared_self hF hnest, fun hfalse => absurd hfalse (by simp)⟩
    | true =>
        obtain ⟨idxOuter, idxInner, happly⟩ := optimizeLoopOrder_changed h
        exact ⟨prepared_interchange hF hheaders hnest happly,
          fun _ => ⟨henabled, nest, hnest, optimizeLoopOrder_not_inOrder h⟩⟩
  · obtain ⟨rfl, hrest⟩ := Prod.mk.inj (Except.ok.inj h)
    obtain ⟨rfl, rfl⟩ := Prod.mk.inj hrest
    exact ⟨prepared_self hF hnest, fun hfalse => absurd hfalse (by simp)⟩

theorem round_transformNest {nest : LoopNestDescriptor}
    (htile : CompletesTiling tile env.options) (hF : editor.function.Distinct)
    (hheaders : ∀ L ∈ linearizePerfectNest root, ∀ L' ∈ linearizePerfectNest root,
      L.header = L'.header → L = L')
    (hnest : analyzeLoopNest editor.function env.SE root = some nest)
    (hselected : Selected env editor.function root)
    (h : transformNest env tile nest editor = .ok (changed, editor')) :
    Round env root changed editor editor' := by
  obtain ⟨⟨interchanged, nest', edited⟩, hinterchange, h⟩ := bind_eq_ok h
  obtain ⟨⟨tiled, final⟩, hfinal, h⟩ := bind_eq_ok h
  obtain ⟨rfl, rfl⟩ := Prod.mk.inj (Except.ok.inj h)
  obtain ⟨hprepared, hreorders⟩ := prepared_interchangeNest hF hheaders hnest hinterchange
  have hkeeps : ∀ L, (∀ L' ∈ linearizePerfectNest root, L ≠ L' → L.header ≠ L'.header) →
      Tiled editor.function L → Tiled edited.function L := by
    intro L hL htiled
    refine hprepared.keeps L (fun L' hL' => hL L' hL' ?_) htiled
    rintro rfl
    exact (hselected.not_tiled hF).2 L hL' htiled
  cases tiled with
  | true =>
      refine ⟨htile.distinct nest' edited final hprepared.distinct hfinal, ?_, fun _ => hselected,
        fun _ => Or.inl ?_⟩
      · intro L hL htiled
        exact htile.keeps nest' edited final hprepared.distinct hprepared.tests hfinal L
          (hkeeps L hL htiled)
      · intro L hL
        rw [← hprepared.nodes] at hL
        obtain ⟨loop, hloop, rfl⟩ := List.mem_map.mp hL
        exact htile.tiled nest' edited final hprepared.distinct hprepared.tests hfinal loop hloop
  | false =>
      obtain rfl := htile.unchanged nest' edited final hfinal
      refine ⟨hprepared.distinct, hkeeps, fun _ => hselected, fun hchanged => Or.inr ?_⟩
      refine ⟨hreorders (by simpa using hchanged), ?_⟩
      rintro ⟨hblocking, hexit⟩
      -- tiling would have completed
      obtain ⟨exit, hexit⟩ := Option.isSome_iff_exists.mp hexit
      obtain ⟨_, _, _, hdescribes⟩ := analyzeLoopNest_head hnest
      obtain ⟨preheader, hpreheader, _⟩ := hdescribes.preheader
      rw [← hprepared.preheader] at hpreheader
      rw [← hprepared.exit] at hexit
      obtain ⟨outermost, rest, hloops, rfl⟩ := hprepared.exists_outermost
      have hdepth : 2 ≤ nest'.depth := by
        have hlength := congrArg List.length hprepared.nodes
        rw [List.length_map] at hlength
        rw [LoopNestDescriptor.depth, hlength]
        exact (hselected.not_tiled hF).1
      obtain ⟨tiled, htiled⟩ := htile.completes nest' final outermost rest preheader exit hblocking
        hdepth hloops hpreheader hexit
      rw [htiled] at hfinal
      exact absurd (Prod.mk.inj (Except.ok.inj hfinal)).1 (by simp)

theorem round_runNest (htile : CompletesTiling tile env.options) (hF : editor.function.Distinct)
    (hheaders : ∀ L ∈ linearizePerfectNest root, ∀ L' ∈ linearizePerfectNest root,
      L.header = L'.header → L = L')
    (h : runNest env tile root editor = .ok (changed, editor')) :
    Round env root changed editor editor' := by
  have hstop : (.ok (false, editor) : Except Fault _) = .ok (changed, editor') →
      Round env root changed editor editor' := by
    intro heq
    obtain ⟨rfl, rfl⟩ := Prod.mk.inj (Except.ok.inj heq)
    exact ⟨hF, fun _ _ h => h, fun hfalse => absurd hfalse (by simp),
      fun hfalse => absurd hfalse (by simp)⟩
  unfold runNest at h
  split at h
  · exact hstop h
  · rename_i nest hnest
    split_ifs at h with hrectangular hlegal
    · exact hstop h
    · exact hstop h
    · refine round_transformNest htile hF hheaders hnest ⟨nest, hnest, ?_, ?_⟩ h
      · simpa using hrectangular
      · simpa using hlegal

/-- What holds of the rest of a run: no loop that is tiled already is in a nest that is
rewritten. -/
theorem runNests_fresh (htile : CompletesTiling tile env.options) {loops : List Loop}
    (hchains : ∀ root ∈ loops, linearizePerfectNest root ⊆ loops)
    (hheaders : ∀ L ∈ loops, ∀ L' ∈ loops, L.header = L'.header → L = L') {roots : List Loop}
    (hroots : roots ⊆ loops) {changes : List (Loop × Bool)}
    (hF : editor.function.Distinct) (hmeets : RunMeets env tile roots editor)
    (h : runNests env tile roots editor = .ok (changes, editor')) :
    AnalysedFresh changes ∧ (∀ change ∈ changes, change.1 ∈ roots) ∧
      ∀ change ∈ changes, change.2 = true → 2 ≤ (linearizePerfectNest change.1).length ∧
        ∀ L ∈ loops, Tiled editor.function L → L ∉ linearizePerfectNest change.1 := by
  induction roots generalizing editor changes with
  | nil =>
      obtain ⟨rfl, _⟩ := Prod.mk.inj (Except.ok.inj h)
      exact ⟨List.Pairwise.nil, by simp, by simp⟩
  | cons root rest ih =>
      obtain ⟨⟨changed, edited⟩, hroot, h⟩ := bind_eq_ok h
      obtain ⟨⟨later, final⟩, hrest, h⟩ := bind_eq_ok h
      obtain ⟨rfl, rfl⟩ := Prod.mk.inj (Except.ok.inj h)
      obtain ⟨hmem, hrestMem⟩ := List.cons_subset.mp hroots
      have hheadersRoot : ∀ L ∈ linearizePerfectNest root, ∀ L' ∈ linearizePerfectNest root,
          L.header = L'.header → L = L' :=
        fun L hL L' hL' => hheaders L (hchains root hmem hL) L' (hchains root hmem hL')
      have hround := round_runNest htile hF hheadersRoot hroot
      obtain ⟨hfresh, hlaterMem, hlater⟩ := ih hrestMem hround.distinct
        (hmeets.2 changed edited hroot) hrest
      have hkeeps : ∀ L ∈ loops, Tiled editor.function L → Tiled edited.function L := by
        intro L hL
        refine hround.keeps L fun L' hL' hne heq => hne ?_
        exact hheaders L hL L' (hchains root hmem hL') heq
      refine ⟨List.pairwise_cons.mpr ⟨?_, hfresh⟩, ?_, ?_⟩
      · intro change hchange hfirst hsecond
        obtain ⟨hlength, hnotTiled⟩ := hlater change hchange hsecond
        have hother := hlaterMem change hchange
        have halone := hmeets.1 (hround.selected hfirst)
        have hdisjoint : ∀ L ∈ linearizePerfectNest root, L ∉ linearizePerfectNest change.1 := by
          rcases hround.tiled_or_not hfirst with htiled | ⟨hreorders, hnot⟩
          · exact fun L hL => hnotTiled L (hchains root hmem hL) (htiled L hL)
          · rcases halone.apart with hordered | htiling | hapart
            · exact absurd hreorders hordered
            · exact absurd htiling hnot
            · exact hapart change.1 hother hlength
        refine ⟨hdisjoint, fun hinside => ?_⟩
        obtain ⟨L, hL, hshared⟩ := halone.inside change.1 hother hinside hlength
        exact hdisjoint L hL hshared
      · intro change hchange
        rcases List.mem_cons.mp hchange with rfl | hchange
        · exact List.mem_cons_self
        · exact List.mem_cons_of_mem root (hlaterMem change hchange)
      · intro change hchange hchanged
        rcases List.mem_cons.mp hchange with rfl | hchange
        · obtain ⟨hlength, hnotTiled⟩ := (hround.selected hchanged).not_tiled hF
          exact ⟨hlength, fun L _ htiled hL => hnotTiled L hL htiled⟩
        · obtain ⟨hlength, hnotTiled⟩ := hlater change hchange hchanged
          exact ⟨hlength, fun L hL htiled => hnotTiled L hL (hkeeps L hL htiled)⟩

/-- A run in which each rewritten nest stands alone analyses nothing it has rewritten. -/
theorem analysedFresh (env : Environment)
    (tile : LoopNestDescriptor → Editor → Except Fault (Bool × Editor))
    (htile : CompletesTiling tile env.options) (forest : List Loop)
    (hforest : ((collectSubLoops forest).map Loop.header).Nodup) (editor editor' : Editor)
    (hF : editor.function.Distinct)
    (hmeets : RunMeets env tile (collectSubLoops forest) editor)
    (changes : List (Loop × Bool))
    (hrun : runNests env tile (collectSubLoops forest) editor = .ok (changes, editor')) :
    AnalysedFresh changes :=
  (runNests_fresh htile (chain_subset_collectSubLoops forest)
    (fun _ hL _ hL' heq => List.inj_on_of_nodup_map hforest hL hL' heq) (List.Subset.refl _)
    hF hmeets hrun).1

end Run

section Program

/-- An induction variable of the nest that is entered from outside its loop takes a value
that is no constant, here itself in place of the variable of a tile loop. -/
def restartValue (nest : LoopNestDescriptor) (phi : Value) (entry : Value × BlockId) : Value :=
  if nest.loops.any fun loop => loop.induction == phi && !loop.loopNode.contains entry.2 then phi
  else entry.1

def restartKind (nest : LoopNestDescriptor) (inst : Inst) : InstKind :=
  match inst.kind with
  | .phi incoming => .phi (incoming.map fun entry => (restartValue nest inst.value entry, entry.2))
  | kind => kind

/-- A tile stage that completes and does no more than start the loops anew. -/
def restartLoops (options : Options) (nest : LoopNestDescriptor) (editor : Editor) :
    Except Fault (Bool × Editor) :=
  if options.enableBlocking then .ok (true, editor.mapInsts fun _ => restartKind nest)
  else .ok (false, editor)

theorem keepsBranches_restartKind (nest : LoopNestDescriptor) :
    Function.KeepsBranches fun _ => restartKind nest where
  isTerminator _ inst := by
    rw [restartKind]
    split
    · rename_i hkind
      rw [hkind]
      rfl
    · rfl
  successors _ inst := by
    rw [restartKind]
    split
    · rename_i hkind
      rw [hkind]
      rfl
    · rfl

/-- A loop of which no start is a constant that stays is tiled behind the stage. -/
theorem Tests.restart {F : Function} {L : Loop} {iv : Value} (hF : F.Distinct)
    (h : Tests F L iv) {nest : LoopNestDescriptor}
    (hstart : ∀ block ∉ L.blocks, ∀ start, F.incomingValueForBlock iv block = some start →
      F.constant start = none ∨ ∃ loop ∈ nest.loops, loop.induction = iv ∧ loop.loopNode = L) :
    Tiled (F.mapInsts fun _ => restartKind nest) L := by
  obtain ⟨phi, hphi, rfl, incoming, hkind⟩ := h.phi
  have hkind' : restartKind nest phi =
      .phi (incoming.map fun entry => (restartValue nest phi.value entry, entry.2)) := by
    rw [restartKind, hkind]
  have hmapped := mem_insts_mapInsts (f := fun _ => restartKind nest) hphi
  refine ⟨phi.value, ⟨⟨_, hmapped, rfl, _, hkind'⟩, ?_⟩, ?_⟩
  · obtain ⟨exiting, value, type, cond, ifTrue, ifFalse, hexiting, hterminator, inst, hinst, hvalue,
      predicate, bound, hicmp⟩ := h.test
    obtain ⟨block, hblock⟩ := Function.exists_block_of_mem hF.blocks_nodup hinst
    refine ⟨exiting, value, type, cond, ifTrue, ifFalse, ?_, ?_, _,
      Function.mem_allInsts (mem_insts_mapInsts hblock), hvalue, predicate, bound, ?_⟩
    · rw [(keepsBranches_restartKind nest).exitingBlock_eq, hexiting]
    · rw [(keepsBranches_restartKind nest).terminator, hterminator]
      rfl
    · rw [restartKind, hicmp]
  · intro block hblock start hincoming
    have hnew := incomingValueForBlock_eq hF.mapInsts hmapped hkind' block
    rw [hnew, List.find?_map, Option.map_map] at hincoming
    obtain ⟨entry, hentry, rfl⟩ := Option.map_eq_some_iff.mp hincoming
    have hconstant : F.constant phi.value = none :=
      hF.constants phi (Function.mem_allInsts hphi)
    have hold : F.incomingValueForBlock phi.value block = some entry.1 := by
      rw [incomingValueForBlock_eq hF hphi hkind]
      exact Option.map_eq_some_iff.mpr ⟨entry, hentry, rfl⟩
    obtain rfl : entry.2 = block := by simpa using List.find?_some hentry
    show F.constant (restartValue nest phi.value entry) = none
    rw [restartValue]
    split_ifs with hany
    · exact hconstant
    · refine (hstart entry.2 hblock entry.1 hold).resolve_right ?_
      rintro ⟨loop, hloop, hiv, rfl⟩
      refine hany (List.any_eq_true.mpr ⟨loop, hloop, ?_⟩)
      simp [hiv, Loop.contains, hblock]

/-- The stage is one that tiling is taken for. -/
theorem completesTiling_restartLoops (options : Options) :
    CompletesTiling (restartLoops options) options := by
  have htrue : ∀ {nest : LoopNestDescriptor} {editor editor' : Editor},
      restartLoops options nest editor = .ok (true, editor') →
      editor' = editor.mapInsts fun _ => restartKind nest := by
    intro nest editor editor' h
    rw [restartLoops] at h
    split_ifs at h
    · exact (Prod.mk.inj (Except.ok.inj h)).2.symm
    · exact absurd (Prod.mk.inj (Except.ok.inj h)).1 (by simp)
  constructor
  · intro nest editor editor' h
    rw [restartLoops] at h
    split_ifs at h
    · exact absurd (Prod.mk.inj (Except.ok.inj h)).1 (by simp)
    · exact (Prod.mk.inj (Except.ok.inj h)).2.symm
  · intro nest editor _ _ _ _ hblocking _ _ _ _
    exact ⟨_, by rw [restartLoops, if_pos hblocking]⟩
  · intro nest editor editor' hF h
    rw [htrue h]
    exact hF.mapInsts (f := fun _ => restartKind nest)
  · intro nest editor editor' hF htests h loop hloop
    rw [htrue h]
    exact (htests loop hloop).restart hF fun _ _ _ _ => Or.inr ⟨loop, hloop, rfl, rfl⟩
  · intro nest editor editor' hF _ h L htiled
    rw [htrue h]
    obtain ⟨iv, htests, hstart⟩ := htiled
    exact htests.restart hF fun block hblock start hincoming =>
      Or.inl (hstart block hblock start hincoming)

/-- Without blocking, tiling leaves every nest as it is. -/
theorem completesTiling_of_not_blocking {options : Options}
    (h : options.enableBlocking = false) :
    CompletesTiling (applyPolyhedralTiling options) options := by
  have htile : ∀ nest editor, applyPolyhedralTiling options nest editor = .ok (false, editor) := by
    intro nest editor
    unfold applyPolyhedralTiling
    split
    · rfl
    · rw [if_pos (by simp [h])]
  have hnever : ∀ nest editor editor', applyPolyhedralTiling options nest editor ≠
      .ok (true, editor') := by
    intro nest editor editor' htrue
    rw [htile] at htrue
    exact absurd (Prod.mk.inj (Except.ok.inj htrue)).1 (by simp)
  constructor
  · exact fun _ _ _ hsame => applyPolyhedralTiling_unchanged hsame
  · intro _ _ _ _ _ _ hblocking
    rw [h] at hblocking
    exact absurd hblocking (by simp)
  · exact fun nest editor editor' _ htrue => absurd htrue (hnever nest editor editor')
  · exact fun nest editor editor' _ _ htrue => absurd htrue (hnever nest editor editor')
  · exact fun nest editor editor' _ _ htrue => absurd htrue (hnever nest editor editor')

/-- A run with interchange alone. -/
def deepEnvironment (legal : Function → LoopNestDescriptor → Bool) : Environment where
  options := { enableBlocking := false }
  SE := deepEvolution
  legal := legal
  address := id
  renamed _ _ := ""

def deepEditor : Editor := .ofFunction deepFunction 50

theorem deepFunction_distinct : deepFunction.Distinct where
  blocks_nodup := by decide
  values_nodup := by decide
  constants := by decide

/-- A legality that accepts nests of three loops selects no other chain. -/
theorem length_of_selected {F : Function} {root : Loop}
    (h : Selected (deepEnvironment fun _ nest => nest.depth == 3) F root) :
    (linearizePerfectNest root).length = 3 := by
  obtain ⟨nest, hnest, _, hlegal⟩ := h
  obtain ⟨_, hforall, _⟩ := describes_of_analyzeLoopNest hnest
  rw [hforall.length_eq]
  exact beq_iff_eq.mp hlegal

/-- A run with interchange and tiling in which every nest is legal. -/
def tilingEnvironment : Environment := { deepEnvironment fun _ _ => true with options := {} }

theorem tilingEnvironment_meets :
    RunMeets tilingEnvironment (restartLoops {}) [deepInner, deepMiddle, deepOuter]
      deepEditor := by
  refine ⟨fun h => absurd (h.not_tiled deepFunction_distinct).1 (by decide), ?_⟩
  intro changed edited hinner
  obtain ⟨rfl, rfl⟩ : false = changed ∧ deepEditor = edited :=
    Prod.mk.inj (Except.ok.inj hinner)
  refine ⟨fun _ => ⟨Or.inr (Or.inl ⟨rfl, by decide⟩), ?_⟩, fun _ _ _ => ⟨fun _ => ?_, ?_⟩⟩
  · intro other hother _ _
    obtain rfl := List.mem_singleton.mp hother
    exact ⟨deepMiddle, List.mem_cons_self, List.mem_cons_of_mem _ List.mem_cons_self⟩
  · exact ⟨Or.inr (Or.inr (by simp)), by simp⟩
  · exact fun _ _ _ => trivial

theorem deepEnvironment_meets :
    RunMeets (deepEnvironment fun _ nest => nest.depth == 3)
      (applyPolyhedralTiling { enableBlocking := false }) [deepInner, deepMiddle, deepOuter]
      deepEditor := by
  refine ⟨fun h => absurd (length_of_selected h) (by decide), ?_⟩
  intro changed edited hinner
  obtain ⟨rfl, rfl⟩ : false = changed ∧ deepEditor = edited :=
    Prod.mk.inj (Except.ok.inj hinner)
  refine ⟨fun h => absurd (length_of_selected h) (by decide), ?_⟩
  intro changed edited hmiddle
  obtain ⟨rfl, rfl⟩ : false = changed ∧ deepEditor = edited :=
    Prod.mk.inj (Except.ok.inj hmiddle)
  exact ⟨fun _ => ⟨Or.inr (Or.inr (by simp)), by simp⟩, fun _ _ _ => trivial⟩

/-- Without tiling the outermost chain is rewritten when the one inside it is refused; with
tiling the chain inside it is, and the outermost one is not analysed again. -/
theorem deepOuter_analysedFresh :
    (∃ changes editor', runNests (deepEnvironment fun _ nest => nest.depth == 3)
      (applyPolyhedralTiling { enableBlocking := false }) (collectSubLoops [deepOuter])
      deepEditor = .ok (changes, editor') ∧
      changes.map Prod.snd = [false, false, true] ∧ AnalysedFresh changes) ∧
    ∃ changes editor', runNests tilingEnvironment (restartLoops {}) (collectSubLoops [deepOuter])
      deepEditor = .ok (changes, editor') ∧
      changes.map Prod.snd = [false, true, false] ∧ AnalysedFresh changes := by
  constructor
  · refine ⟨[(deepInner, false), (deepMiddle, false), (deepOuter, true)], _, rfl, rfl, ?_⟩
    exact analysedFresh (deepEnvironment fun _ nest => nest.depth == 3)
      (applyPolyhedralTiling { enableBlocking := false }) (completesTiling_of_not_blocking rfl)
      [deepOuter] (by decide) deepEditor _ deepFunction_distinct deepEnvironment_meets _ rfl
  · refine ⟨[(deepInner, false), (deepMiddle, true), (deepOuter, false)], _, rfl, rfl, ?_⟩
    exact analysedFresh tilingEnvironment (restartLoops {}) (completesTiling_restartLoops {})
      [deepOuter] (by decide) deepEditor _ deepFunction_distinct tilingEnvironment_meets _ rfl

/-- Both chains are rewritten, and the inner two loops are interchanged twice. -/
theorem not_forall_analysedFresh : ¬ ∀ (env : Environment)
    (tile : LoopNestDescriptor → Editor → Except Fault (Bool × Editor)),
    CompletesTiling tile env.options → ∀ (forest : List Loop),
    ((collectSubLoops forest).map Loop.header).Nodup → ∀ editor editor' : Editor,
    editor.function.Distinct → ∀ changes : List (Loop × Bool),
    runNests env tile (collectSubLoops forest) editor = .ok (changes, editor') →
    AnalysedFresh changes := by
  intro hall
  have hfresh := hall (deepEnvironment fun _ _ => true)
    (applyPolyhedralTiling { enableBlocking := false }) (completesTiling_of_not_blocking rfl)
    [deepOuter] (by decide) deepEditor _ deepFunction_distinct
    [(deepInner, false), (deepMiddle, true), (deepOuter, true)] rfl
  obtain ⟨_, hrest⟩ := List.pairwise_cons.mp hfresh
  obtain ⟨hdisjoint, _⟩ :=
    (List.pairwise_cons.mp hrest).1 (deepOuter, true) List.mem_cons_self rfl rfl
  refine hdisjoint deepMiddle ?_ ?_
  · simp only [deepMiddle, linearizePerfectNest]
    exact List.mem_cons_self
  · simp only [deepOuter, deepMiddle, linearizePerfectNest, linearizeOnlyChild]
    exact List.mem_cons_of_mem _ List.mem_cons_self

end Program

end PolyhedralPass
