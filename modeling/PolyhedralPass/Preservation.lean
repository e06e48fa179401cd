/-
Executions across an interchange.  The blocks of a structured nest that the test accepts
are passed from the preheader to the exit with the memory they leave without it.
-/
import PolyhedralPass.Passage

namespace PolyhedralPass

section Skeleton

theorem InstKind.touchesMemory_skeleton (kind : InstKind) :
    kind.skeleton.touchesMemory = kind.touchesMemory := by
  cases kind <;> rfl

theorem InstKind.isTerminator_skeleton (kind : InstKind) :
    kind.skeleton.isTerminator = kind.isTerminator :=
  isTerminator_mapOperands _ kind

theorem InstKind.exists_op_compute_iff (kind : InstKind) :
    (∃ operands, kind.op = .compute operands) ↔ kind.isLoadOrStore = false := by
  cases kind <;> simp [op, isLoadOrStore]

variable {F F' : Function} (h : F'.skeleton = F.skeleton)
include h

theorem insts_of_skeleton (block : BlockId) :
    (F'.insts block).map (fun inst => { inst with kind := inst.kind.skeleton }) =
      (F.insts block).map fun inst => { inst with kind := inst.kind.skeleton } := by
  rw [← Function.insts_skeleton, h, Function.insts_skeleton]

/-- The instruction at the place of another one. -/
theorem exists_inst_of_skeleton {block : BlockId} {inst' : Inst} (hinst : inst' ∈ F'.insts block) :
    ∃ inst ∈ F.insts block, inst.value = inst'.value ∧
      inst.kind.skeleton = inst'.kind.skeleton := by
  have hmem := List.mem_map_of_mem (f := fun inst : Inst =>
    { inst with kind := inst.kind.skeleton }) hinst
  rw [insts_of_skeleton h] at hmem
  obtain ⟨inst, hinst, heq⟩ := List.mem_map.mp hmem
  obtain ⟨hvalue, _, hkind⟩ := Inst.mk.inj heq
  exact ⟨inst, hinst, hvalue, hkind⟩

theorem definedIn_of_skeleton (home : List BlockId) : F'.definedIn home = F.definedIn home := by
  apply List.flatMap_congr
  intro block _
  have hvalues := congrArg (List.map Inst.value) (insts_of_skeleton h block)
  rwa [List.map_map, List.map_map] at hvalues

theorem map_phis_of_skeleton (block : BlockId) :
    (F'.phis block).map Prod.fst = (F.phis block).map Prod.fst := by
  have hphis : ∀ G : Function, ((G.insts block).map fun inst => { inst with
      kind := inst.kind.skeleton }).filter (·.kind.isPhi) =
        ((G.insts block).filter (·.kind.isPhi)).map fun inst => { inst with
          kind := inst.kind.skeleton } := by
    intro G
    rw [List.filter_map]
    simp only [Function.comp_def, InstKind.isPhi_skeleton]
  have hfiltered := congrArg (List.filter (·.kind.isPhi)) (insts_of_skeleton h block)
  rw [hphis, hphis] at hfiltered
  have hvalues := congrArg (List.map Inst.value) hfiltered
  rw [List.map_map, List.map_map] at hvalues
  rwa [map_phis, map_phis]

theorem touches_of_skeleton {block : BlockId} (htouches : F.TouchesByAccess block) :
    F'.TouchesByAccess block := by
  intro inst' hinst' hmemory
  obtain ⟨inst, hinst, _, hkind⟩ := exists_inst_of_skeleton h hinst'
  rw [← InstKind.touchesMemory_skeleton, ← hkind, InstKind.touchesMemory_skeleton] at hmemory
  rw [← InstKind.isLoadOrStore_skeleton, ← hkind, InstKind.isLoadOrStore_skeleton]
  exact htouches inst hinst hmemory

theorem quiet_of_skeleton {block : BlockId} (hquiet : F.Quiet block) : F'.Quiet block := by
  intro line hline
  obtain ⟨inst', hinst', ⟨hphi, hterminator⟩, rfl⟩ := mem_code.mp hline
  obtain ⟨inst, hinst, _, hkind⟩ := exists_inst_of_skeleton h hinst'
  rw [← InstKind.isPhi_skeleton, ← hkind, InstKind.isPhi_skeleton] at hphi
  rw [← InstKind.isTerminator_skeleton, ← hkind, InstKind.isTerminator_skeleton] at hterminator
  have hcompute := hquiet inst.line (mem_code.mpr ⟨inst, hinst, ⟨hphi, hterminator⟩, rfl⟩)
  rw [Inst.line, InstKind.exists_op_compute_iff] at hcompute ⊢
  rwa [← InstKind.isLoadOrStore_skeleton, ← hkind, InstKind.isLoadOrStore_skeleton]

/-- A branch without a condition stays what it is. -/
theorem br_of_skeleton {block dest : BlockId} {value : Value} {type : IRType}
    (hbr : F.terminator? block = some ⟨value, type, .br dest⟩) :
    F'.terminator? block = some ⟨value, type, .br dest⟩ := by
  have hterminator : ∀ G : Function, G.skeleton.terminator? block =
      (G.terminator? block).map fun inst => { inst with kind := inst.kind.skeleton } :=
    fun G => Function.keepsBranches_skeleton.terminator block
  have hsame := hterminator F
  rw [← h, hterminator F', hbr, Option.map_some, Option.map_eq_some_iff] at hsame
  obtain ⟨⟨value', type', kind⟩, hterminator', heq⟩ := hsame
  obtain ⟨rfl, rfl, hkind⟩ := Inst.mk.inj heq
  rw [hterminator']
  cases kind with
  | br dest' =>
      cases hkind
      rfl
  | _ => cases hkind

theorem lane_of_skeleton {home : List BlockId} {dest : BlockId} {blocks : List BlockId}
    (hlane : F.Lane home dest blocks) : F'.Lane home dest blocks := by
  induction blocks with
  | nil => trivial
  | cons block rest ih =>
      obtain ⟨hhome, hphis, htouches, ⟨value, type, hbr⟩, hrest⟩ := hlane
      refine ⟨hhome, ?_, touches_of_skeleton h htouches, ⟨value, type, br_of_skeleton h hbr⟩,
        ih hrest⟩
      have hnone := map_phis_of_skeleton h block
      rw [hphis, List.map_nil] at hnone
      exact List.map_eq_nil_iff.mp hnone

/-- Instructions compute the same from other operands. -/
theorem machine_of_skeleton {κ : Type} (target : Target κ) :
    F'.machine target = F.machine target := by
  have hresult : ∀ (G : Function) (dest : Value) (operands : List Word),
      (G.machine target).result dest operands =
        (G.skeleton.machine target).result dest operands := by
    intro G dest operands
    simp only [Function.machine, Function.inst?_skeleton, Option.map_map]
    cases G.inst? dest with
    | none => rfl
    | some inst =>
        obtain ⟨value, type, kind⟩ := inst
        cases kind with
        | add | icmp | select => rcases operands with _ | ⟨a, _ | ⟨b, _ | ⟨c, _ | _⟩⟩⟩ <;> rfl
        | _ => rfl
  have hsame : (F'.machine target).result = (F.machine target).result := by
    funext dest operands
    rw [hresult F', h, ← hresult F]
  exact congrArg (fun result => (⟨result, target.address⟩ : Straight.Machine Value κ Word)) hsame

theorem constant_of_skeleton : F'.constant = F.constant := by
  have hconstant := congrArg Function.constant h
  exact hconstant

theorem interpretation_of_skeleton {κ : Type} (target : Target κ) (w : Nat)
    (start : Value → Word) :
    F'.interpretation target w start = F.interpretation target w start := by
  rw [Function.interpretation, Function.interpretation, machine_of_skeleton h]

end Skeleton

section Control

variable {F F' : Function} {home : List BlockId}

/-- Two descriptors of one loop with one counter, their bounds apart. -/
structure SameControl (loop loop' : LoopDescriptor) : Prop where
  loopNode : loop'.loopNode = loop.loopNode
  induction : loop'.induction = loop.induction
  nextValue : loop'.nextValue = loop.nextValue
  compare : loop'.compare = loop.compare

theorem LoopDescriptor.TestedAtTop.of_skeleton (h : F'.skeleton = F.skeleton)
    {loop loop' : LoopDescriptor} {inside exit : BlockId} (hloop : SameControl loop loop')
    (hterminator : F'.terminator? loop.loopNode.header = F.terminator? loop.loopNode.header)
    (htested : loop.TestedAtTop F home inside exit) : loop'.TestedAtTop F' home inside exit := by
  obtain ⟨hhome, hphis, htouches, hquiet, ⟨inst, hinst, hvalue⟩, hbranch⟩ := htested
  have hinst' : ∃ inst' ∈ F'.insts loop.loopNode.header, inst'.value = loop.compare := by
    obtain ⟨inst', hinst', heq, _⟩ := exists_inst_of_skeleton h.symm hinst
    exact ⟨inst', hinst', heq.trans hvalue⟩
  constructor
  · rwa [hloop.loopNode]
  · rwa [hloop.loopNode, hloop.induction, map_phis_of_skeleton h]
  · rw [hloop.loopNode]
    exact touches_of_skeleton h htouches
  · rw [hloop.loopNode]
    exact quiet_of_skeleton h hquiet
  · rwa [hloop.loopNode, hloop.compare]
  · rwa [hloop.loopNode, hloop.compare, hterminator]

theorem exists_next_of_skeleton (h : F'.skeleton = F.skeleton) {loop loop' : LoopDescriptor}
    (hloop : SameControl loop loop') {latch : BlockId}
    (hnext : ∃ inst ∈ F.insts latch, inst.value = loop.nextValue) :
    ∃ inst ∈ F'.insts latch, inst.value = loop'.nextValue := by
  obtain ⟨inst, hinst, hvalue⟩ := hnext
  obtain ⟨inst', hinst', heq, _⟩ := exists_inst_of_skeleton h.symm hinst
  exact ⟨inst', hinst', by rw [heq, hvalue, hloop.nextValue]⟩

/-- The blocks of a nest stand as they stood, as long as the loops keep their tests. -/
theorem Tower.of_skeleton (h : F'.skeleton = F.skeleton) {loops loops' : List LoopDescriptor}
    {pre exit : BlockId} (htower : Tower F home loops pre exit)
    (hloops : List.Forall₂ SameControl loops loops')
    (hterminator : ∀ loop ∈ loops,
      F'.terminator? loop.loopNode.header = F.terminator? loop.loopNode.header) :
    Tower F' home loops' pre exit := by
  induction htower generalizing loops' with
  | @innermost loop pre latch exit blocks tested preheader latch_eq lane last next blocks_eq =>
      cases hloops with
      | @cons _ loop' _ _ hloop hrest =>
          cases hrest
          have hheader := hterminator loop List.mem_cons_self
          refine @Tower.innermost _ _ loop' pre latch exit blocks ?_ ?_ ?_ ?_ last
            (exists_next_of_skeleton h hloop next) ?_
          · rw [hloop.loopNode]
            exact tested.of_skeleton h hloop hheader
          · rwa [hloop.loopNode, Function.loopPreheader_of_skeleton h]
          · rwa [hloop.loopNode, Function.loopLatch_of_skeleton h]
          · rw [hloop.loopNode]
            exact lane_of_skeleton h lane
          · rwa [hloop.loopNode]
  | @around loop inner rest pre latch exit pre' exit' front back tested preheader latch_eq
      front_lane front_last inside back_lane back_head back_last quiet next ih =>
      cases hloops with
      | @cons _ loop' _ loops' hloop hrest =>
          have hinside := ih hrest fun loop hloop => hterminator loop (List.mem_cons_of_mem _ hloop)
          cases hrest with
          | @cons _ inner' _ rest' hinner hrest =>
              have hheader := hterminator loop List.mem_cons_self
              refine @Tower.around _ _ loop' inner' rest' pre latch exit pre' exit' front back
                ?_ ?_ ?_ ?_ front_last hinside ?_ back_head back_last
                (fun block hblock => quiet_of_skeleton h (quiet block hblock))
                (exists_next_of_skeleton h hloop next)
              · rw [hinner.loopNode]
                exact tested.of_skeleton h hloop hheader
              · rwa [hloop.loopNode, Function.loopPreheader_of_skeleton h]
              · rwa [hloop.loopNode, Function.loopLatch_of_skeleton h]
              · rw [hinner.loopNode]
                exact lane_of_skeleton h front_lane
              · rw [hloop.loopNode]
                exact lane_of_skeleton h back_lane

end Control

section Counters

variable {F : Function} {SE : ScalarEvolution} {outer inner loop other : LoopDescriptor}
  {preOuter preInner preheader : BlockId} {w : Nat}

/-- A bound of a loop that counts is a constant and no induction variable. -/
theorem LoopDescriptor.Counts.outside (hcounts : loop.Counts F w)
    (h : Exchange F SE outer inner preOuter preInner) : Outside outer inner loop.boundValue := by
  obtain ⟨bits, hbits, _⟩ := hcounts.bound
  have houter := h.outer_agrees.constant_induction h.distinct
  have hinner := h.inner_agrees.constant_induction h.distinct
  constructor <;> intro heq <;> simp [heq, houter, hinner] at hbits

/-- Each of the two loops counts to the bound of the other one. -/
theorem Exchange.counts_own (h : Exchange F SE outer inner preOuter preInner)
    (hloop : OneOf outer inner preOuter preInner loop other preheader) (hcounts : loop.Counts F w)
    (hother : other.Counts F w) :
    (loop.withBoundsOf other).Counts
      (F.mapInsts (swapKind F preOuter preInner outer inner)) w := by
  obtain ⟨hagrees, hagrees', hpreheader⟩ := h.one_agrees hloop
  obtain ⟨latch, _, hlatch, _, _, _, _, _, hstart, hnext⟩ := h.own_edges hloop
  constructor
  · obtain ⟨pre, startValue, hpre, hincoming, hzero⟩ := hother.start
    obtain ⟨pre', hpre', hincoming'⟩ := hagrees'.start
    obtain rfl := Option.some.inj (hpre.symm.trans hpre')
    obtain rfl := Option.some.inj (hincoming.symm.trans hincoming')
    refine ⟨preheader, other.startValue, ?_, hstart, hzero⟩
    rw [keepsBranches_swapKind.loopPreheader_eq]
    exact hpreheader
  · refine ⟨latch, ?_, hnext⟩
    rw [keepsBranches_swapKind.loopLatch_eq]
    exact hlatch
  · obtain ⟨type, one, hadd, hone⟩ := hcounts.step
    refine ⟨type, one, h.inst?_next hagrees hadd ?_, hone⟩
    intro block user huser
    exact swapUse_own h.induction_ne (hloop.imp And.left And.left)
      (by simp [LoopDescriptor.isControlInst, huser])
  · obtain ⟨type, htest⟩ := hcounts.test
    obtain ⟨type', hcompare⟩ := hagrees.compare
    have hpredicate : loop.predicate = .slt := by
      have hkind := congrArg Inst.kind (Option.some.inj (hcompare.symm.trans htest))
      exact (InstKind.icmp.inj hkind).1
    have hown := h.inst?_compare_own hloop (hother.outside h)
    rwa [hpredicate] at hown
  · exact hother.bound

/-- A third loop counts as it did. -/
theorem ControlKept.counts {F' : Function} (hkept : ControlKept F F' loop)
    (hagrees : Agrees F SE loop) (hcounts : loop.Counts F w) (hconstant : F'.constant = F.constant)
    (hpreheader : loop.loopNode.loopPreheader F' = loop.loopNode.loopPreheader F)
    (hlatch : loop.loopNode.loopLatch F' = loop.loopNode.loopLatch F) : loop.Counts F' w := by
  obtain ⟨pre, latch, hedges, hpre, hback, _⟩ := hagrees.edges
  have hpreds : pre ∈ F.predecessors loop.loopNode.header ∧
      latch ∈ F.predecessors loop.loopNode.header := by
    rcases (predecessors_of_incomingAndBackEdge hedges).2 with hpreds | hpreds <;> simp [hpreds]
  constructor
  · obtain ⟨pre', startValue, hpre', hincoming, hzero⟩ := hcounts.start
    obtain rfl := Option.some.inj (hpre.symm.trans hpre')
    exact ⟨pre, startValue, by rw [hpreheader, hpre], by rw [hkept.edges pre hpreds.1, hincoming],
      by rw [hconstant, hzero]⟩
  · obtain ⟨latch', hback', hincoming⟩ := hcounts.next
    obtain rfl := Option.some.inj (hback.symm.trans hback')
    exact ⟨latch, by rw [hlatch, hback], by rw [hkept.edges latch hpreds.2, hincoming]⟩
  · obtain ⟨type, one, hadd, hone⟩ := hcounts.step
    exact ⟨type, one, by rw [hkept.next, hadd], by rw [hconstant, hone]⟩
  · obtain ⟨type, htest⟩ := hcounts.test
    exact ⟨type, by rw [hkept.compare, htest]⟩
  · obtain ⟨bits, hbits, hupper⟩ := hcounts.bound
    exact ⟨bits, by rw [hconstant, hbits], hupper⟩

end Counters

section Nest

variable {F : Function} {SE : ScalarEvolution} {nest : LoopNestDescriptor} {root : Loop}
  {home : List BlockId} {w : Nat} {pre exit : BlockId}

theorem Describes.typed_of_counts {L : Loop} {loop : LoopDescriptor} (h : Describes F SE L loop)
    (hcounts : loop.Counts F w) (hw : 0 < w) : loop.Typed F w := by
  obtain rfl := h.loopNode
  refine ⟨hw, ?_, ?_⟩
  · obtain ⟨pre, startValue, hpre, hincoming, hzero⟩ := hcounts.start
    obtain ⟨pre', hpre', hincoming'⟩ := h.preheader
    obtain rfl := Option.some.inj (hpre.symm.trans hpre')
    obtain rfl := Option.some.inj (hincoming.symm.trans hincoming')
    intro c hc
    obtain rfl := Option.some.inj (hc.symm.trans hzero)
    rfl
  · obtain ⟨type, one, hadd, hone⟩ := hcounts.step
    intro value type' lhs rhs hinst c hc
    obtain ⟨_, _, hkind⟩ := Inst.mk.inj (Option.some.inj (hadd.symm.trans hinst))
    obtain ⟨_, rfl⟩ := InstKind.add.inj hkind
    obtain rfl := Option.some.inj (hc.symm.trans hone)
    rfl

/-- Of an analysed nest that counts, the descriptors say what the instructions do. -/
theorem LoopNestDescriptor.Structured.agrees (h : nest.Structured F home w pre exit)
    (hnest : analyzeLoopNest F SE root = some nest) (hSE : SE.Sound F (linearizePerfectNest root))
    (hw : 1 < w) : ∀ loop ∈ nest.loops, Agrees F SE loop := by
  intro loop hloop
  obtain ⟨L, hL, hdescribes⟩ := exists_describes hnest hloop
  exact hdescribes.agrees hSE hL (hdescribes.typed_of_counts (h.counts loop hloop) h.width_pos) hw

theorem Tower.condBr {loops : List LoopDescriptor} (h : Tower F home loops pre exit) :
    ∀ loop ∈ loops, ∃ value type inside outside, F.terminator? loop.loopNode.header =
      some ⟨value, type, .condBr loop.compare inside outside⟩ := by
  induction h with
  | innermost tested =>
      intro loop hloop
      obtain ⟨value, type, hterminator⟩ := tested.terminator
      rw [List.mem_singleton.mp hloop]
      exact ⟨value, type, _, _, hterminator⟩
  | around tested preheader latch_eq front_lane front_last inside back_lane back_head back_last
      quiet next ih =>
      intro loop hloop
      obtain ⟨value, type, hterminator⟩ := tested.terminator
      rcases List.mem_cons.mp hloop with rfl | hloop
      · exact ⟨value, type, _, _, hterminator⟩
      · exact ih loop hloop

variable {outer inner : LoopDescriptor} {preOuter preInner : BlockId} {idxOuter idxInner : Nat}

/-- The tests of the loops stay where they are. -/
theorem Exchange.terminator_eq (h : Exchange F SE outer inner preOuter preInner)
    {loop : LoopDescriptor} (hagrees : Agrees F SE loop) {value : Value} {type : IRType}
    {inside outside : BlockId} (hterminator : F.terminator? loop.loopNode.header =
      some ⟨value, type, .condBr loop.compare inside outside⟩) :
    (F.mapInsts (swapKind F preOuter preInner outer inner)).terminator? loop.loopNode.header =
      F.terminator? loop.loopNode.header := by
  rw [keepsBranches_swapKind.terminator, hterminator, Option.map_some]
  rw [swapKind, controlKind_condBr preOuter preInner outer inner rfl, InstKind.mapOperands,
    h.swapUse_of_not_phi hagrees.compare_not_phi]

theorem sameControl_swapBounds (houter : nest.loops[idxOuter]? = some outer)
    (hinner : nest.loops[idxInner]? = some inner) :
    List.Forall₂ SameControl nest.loops
      (nest.swapBounds idxOuter idxInner outer inner).loops := by
  have hmap := map_swapBounds (f := fun loop =>
    (loop.loopNode, loop.induction, loop.nextValue, loop.compare)) (fun _ _ => rfl) houter hinner
  rw [← List.forall₂_eq_eq_eq, List.forall₂_map_left_iff, List.forall₂_map_right_iff] at hmap
  refine hmap.flip.imp ?_
  rintro loop loop' heq
  simp only [Prod.mk.injEq] at heq
  exact ⟨heq.1, heq.2.1, heq.2.2.1, heq.2.2.2⟩

theorem induction_ne_of_getElem? (hinductions : (nest.loops.map LoopDescriptor.induction).Nodup)
    {i j : Nat} {loop other : LoopDescriptor} (hloop : nest.loops[i]? = some loop)
    (hother : nest.loops[j]? = some other) (hne : i ≠ j) : loop.induction ≠ other.induction := by
  intro heq
  have hlt : i < (nest.loops.map LoopDescriptor.induction).length := by
    rw [List.length_map]
    exact (List.getElem?_eq_some_iff.mp hloop).1
  refine hne ((List.getElem?_inj hlt hinductions).mp ?_)
  rw [List.getElem?_map, List.getElem?_map, hloop, hother, Option.map_some, heq, Option.map_some]

theorem Interchanged.exchange {nest' : LoopNestDescriptor} {editor editor' : Editor}
    (h : Interchanged nest nest' idxOuter idxInner editor editor' outer inner preOuter preInner)
    (hF : editor.function.Distinct)
    (hagrees : ∀ loop ∈ nest.loops, Agrees editor.function SE loop)
    (hindices : ∀ loop ∈ nest.loops, IsIndex editor.function home loop)
    (hinductions : (nest.loops.map LoopDescriptor.induction).Nodup) (hne : idxOuter ≠ idxInner) :
    Exchange editor.function SE outer inner preOuter preInner := by
  have houter := hagrees outer (List.mem_of_getElem? h.getElem_outer)
  have hinner := hagrees inner (List.mem_of_getElem? h.getElem_inner)
  obtain ⟨pre, hpre, hpreheader⟩ := houter.startBlock_ok
  obtain ⟨pre', hpre', hpreheader'⟩ := hinner.startBlock_ok
  obtain rfl := Except.ok.inj (hpre.symm.trans h.startBlock_outer)
  obtain rfl := Except.ok.inj (hpre'.symm.trans h.startBlock_inner)
  refine ⟨hF, houter, hinner, ?_, hpreheader, hpreheader'⟩
  intro hheader
  -- a header has one PHI node
  have hphi := (hindices outer (List.mem_of_getElem? h.getElem_outer)).phis
  rw [hheader, (hindices inner (List.mem_of_getElem? h.getElem_inner)).phis] at hphi
  exact induction_ne_of_getElem? hinductions h.getElem_outer h.getElem_inner hne
    (List.cons.inj hphi).1.symm

/-- All loops count behind an interchange of two of them. -/
theorem Exchange.counts_swapBounds (h : Exchange F SE outer inner preOuter preInner)
    (houter : nest.loops[idxOuter]? = some outer) (hinner : nest.loops[idxInner]? = some inner)
    (hne : idxOuter ≠ idxInner) (hagrees : ∀ loop ∈ nest.loops, Agrees F SE loop)
    (hcounts : ∀ loop ∈ nest.loops, loop.Counts F w)
    (hinductions : (nest.loops.map LoopDescriptor.induction).Nodup) :
    ∀ loop ∈ (nest.swapBounds idxOuter idxInner outer inner).loops,
      loop.Counts (F.mapInsts (swapKind F preOuter preInner outer inner)) w := by
  have hcountsOuter := hcounts outer (List.mem_of_getElem? houter)
  have hcountsInner := hcounts inner (List.mem_of_getElem? hinner)
  intro loop hloop
  obtain ⟨k, hk⟩ := List.getElem?_of_mem hloop
  rw [getElem?_swapBounds hne houter hinner] at hk
  split_ifs at hk with hkOuter hkInner
  · obtain rfl := Option.some.inj hk
    exact h.counts_own (Or.inl ⟨rfl, rfl, rfl⟩) hcountsOuter hcountsInner
  · obtain rfl := Option.some.inj hk
    exact h.counts_own (Or.inr ⟨rfl, rfl, rfl⟩) hcountsInner hcountsOuter
  · have hmem := List.mem_of_getElem? hk
    have hkept := h.controlKept_other (hagrees loop hmem)
      ⟨induction_ne_of_getElem? hinductions hk houter hkOuter,
        induction_ne_of_getElem? hinductions hk hinner hkInner⟩ ((hcounts loop hmem).outside h)
    exact hkept.counts (hagrees loop hmem) (hcounts loop hmem) rfl
      (keepsBranches_swapKind.loopPreheader_eq _) (keepsBranches_swapKind.loopLatch_eq _)

/-- What an iteration may read is what it was. -/
theorem live_swapBounds {F' : Function} (h : F'.skeleton = F.skeleton)
    (houter : nest.loops[idxOuter]? = some outer) (hinner : nest.loops[idxInner]? = some inner) :
    (nest.swapBounds idxOuter idxInner outer inner).live F' home = nest.live F home := by
  have hinductions : (nest.swapBounds idxOuter idxInner outer inner).loops.map
      LoopDescriptor.induction = nest.loops.map LoopDescriptor.induction :=
    map_swapBounds (fun _ _ => rfl) houter hinner
  ext value
  simp only [LoopNestDescriptor.live, definedIn_of_skeleton h, Set.mem_ofPred_eq, ← List.mem_map,
    hinductions]

/-- Increments and tests read the induction variable and a constant. -/
theorem live_of_steering (hF : F.Distinct) (hcounts : ∀ loop ∈ nest.loops, loop.Counts F w)
    {inst : Inst} (hinst : inst ∈ F.allInsts) (hsteering : inst.value ∈ nest.steering) :
    ∀ operand ∈ inst.kind.operands, operand ∈ nest.live F home := by
  have hfound := (Function.inst?_eq_some hF.values_nodup).mpr ⟨hinst, rfl⟩
  obtain ⟨loop, hloop, hvalue⟩ := List.mem_flatMap.mp hsteering
  have hpair : ∃ other c, inst.kind.operands = [loop.induction, other] ∧
      F.constant other = some c := by
    rcases List.mem_pair.mp hvalue with heq | heq
    · obtain ⟨type, one, hadd, hone⟩ := (hcounts loop hloop).step
      rw [heq, hadd] at hfound
      exact ⟨one, _, by rw [← Option.some.inj hfound]; rfl, hone⟩
    · obtain ⟨type, htest⟩ := (hcounts loop hloop).test
      obtain ⟨bits, hbits, _⟩ := (hcounts loop hloop).bound
      rw [heq, htest] at hfound
      exact ⟨loop.boundValue, _, by rw [← Option.some.inj hfound]; rfl, hbits⟩
  obtain ⟨other, c, hoperands, hconstant⟩ := hpair
  intro operand hoperand
  rw [hoperands] at hoperand
  rcases List.mem_pair.mp hoperand with rfl | rfl
  · exact Or.inr ⟨loop, hloop, rfl⟩
  · exact Or.inl (not_mem_definedIn_of_constant hF hconstant)

variable {κ ω : Type} {I : Interpretation κ ω}

/-- The body of the nest still reads nothing but what it may. -/
theorem readsOnly_swapBounds (hF : F.Distinct) (hnest : analyzeLoopNest F SE root = some nest)
    [DecidableEq κ] (hunderstood : Understood F SE nest I)
    (houter : nest.loops[idxOuter]? = some outer) (hinner : nest.loops[idxInner]? = some inner)
    (name : Value → Option String)
    (hcounts : ∀ loop ∈ (nest.swapBounds idxOuter idxInner outer inner).loops,
      loop.Counts { F.mapInsts (swapKind F preOuter preInner outer inner) with name } w)
    (hreads : Straight.ReadsOnly (nest.live F home) ((nest.body F).map Inst.line)) :
    Straight.ReadsOnly ((nest.swapBounds idxOuter idxInner outer inner).live
        { F.mapInsts (swapKind F preOuter preInner outer inner) with name } home)
      (((nest.swapBounds idxOuter idxInner outer inner).body
        { F.mapInsts (swapKind F preOuter preInner outer inner) with name }).map Inst.line) := by
  have hskeleton : ({ F.mapInsts (swapKind F preOuter preInner outer inner) with
      name } : Function).skeleton = F.skeleton :=
    Function.skeleton_mapInsts (skeleton_swapKind F)
  have hsteering : (nest.swapBounds idxOuter idxInner outer inner).steering = nest.steering :=
    congrArg List.flatten (map_swapBounds (f := fun loop => [loop.nextValue, loop.compare])
      (fun _ _ => rfl) houter hinner)
  refine hreads.renamed (lines_swapBounds hF hnest hunderstood houter hinner name) ?_ ?_
  · intro register hregister _
    rw [live_swapBounds hskeleton houter hinner, Equiv.swap_apply_def]
    split_ifs
    · exact Or.inr ⟨inner, List.mem_of_getElem? hinner, rfl⟩
    · exact Or.inr ⟨outer, List.mem_of_getElem? houter, rfl⟩
    · exact hregister
  · intro line hline hdest operand hoperand
    obtain ⟨inst, hinst, rfl⟩ := List.mem_map.mp hline
    rw [Inst.line, InstKind.op_operands] at hoperand
    refine live_of_steering (Function.distinct_of_skeleton hskeleton hF) hcounts
      (mem_allInsts_of_mem_body hinst) ?_ operand hoperand
    rwa [hsteering]

/-- A structured nest is one behind an interchange. -/
theorem LoopNestDescriptor.Structured.swapBounds (hstructured : nest.Structured F home w pre exit)
    (h : Exchange F SE outer inner preOuter preInner)
    (hnest : analyzeLoopNest F SE root = some nest) [DecidableEq κ]
    (hunderstood : Understood F SE nest I) (houter : nest.loops[idxOuter]? = some outer)
    (hinner : nest.loops[idxInner]? = some inner) (hne : idxOuter ≠ idxInner)
    (hagrees : ∀ loop ∈ nest.loops, Agrees F SE loop) (name : Value → Option String) :
    (nest.swapBounds idxOuter idxInner outer inner).Structured
      { F.mapInsts (swapKind F preOuter preInner outer inner) with name } home w pre exit := by
  have hskeleton : ({ F.mapInsts (swapKind F preOuter preInner outer inner) with
      name } : Function).skeleton = F.skeleton :=
    Function.skeleton_mapInsts (skeleton_swapKind F)
  have hcounts : ∀ loop ∈ (nest.swapBounds idxOuter idxInner outer inner).loops,
      loop.Counts { F.mapInsts (swapKind F preOuter preInner outer inner) with name } w := by
    intro loop hloop
    obtain ⟨hstart, hnext, hstep, htest, hbound⟩ := h.counts_swapBounds houter hinner hne hagrees
      hstructured.counts hstructured.inductions loop hloop
    exact ⟨hstart, hnext, hstep, htest, hbound⟩
  constructor
  · exact hstructured.width_pos
  · refine hstructured.tower.of_skeleton hskeleton (sameControl_swapBounds houter hinner) ?_
    intro loop hloop
    obtain ⟨value, type, inside, outside, hterminator⟩ := hstructured.tower.condBr loop hloop
    exact h.terminator_eq (hagrees loop hloop) hterminator
  · exact hcounts
  · rw [map_swapBounds (fun _ _ => rfl) houter hinner]
    exact hstructured.inductions
  · exact readsOnly_swapBounds h.distinct hnest hunderstood houter hinner name hcounts
      hstructured.reads

end Nest

section Order

variable {F F' : Function} {SE : ScalarEvolution} {nest nest' : LoopNestDescriptor} {root : Loop}
  {home : List BlockId} {w : Nat} {pre exit : BlockId} {κ : Type} [DecidableEq κ]
  {target : Target κ} {config config' : Config κ}

/-- Two configurations at one place, that differ in what the nest defines at most. -/
structure Alike (F : Function) (home : List BlockId) (config config' : Config κ) : Prop where
  block : config'.block = config.block
  pred : config'.pred = config.pred
  memory : config'.memory = config.memory
  registers : ∀ value, value ∉ F.definedIn home → config'.registers value = config.registers value

/-- Two structured nests of the same blocks, whose bodies have the same effect, are passed side
by side. -/
theorem exists_passes (hF : F.Distinct) (hskeleton : F'.skeleton = F.skeleton)
    (hstructured : nest.Structured F home w pre exit)
    (hstructured' : nest'.Structured F' home w pre exit)
    (hheads : nest'.loops.head?.map (·.loopNode.header) =
      nest.loops.head?.map (·.loopNode.header))
    (hsame : ∀ memory,
      nest'.execute F' (F.interpretation target w config.registers) memory =
        nest.execute F (F.interpretation target w config.registers) memory)
    (hconstants : ∀ value c, F.constant value = some c → config.registers value = c)
    (halike : Alike F home config config')
    (hblock : nest.loops.head?.map (·.loopNode.header) = some config.block)
    (hpred : config.pred = pre) :
    ∃ left left', F.Passes target home config left ∧ F'.Passes target home config' left' ∧
      left.block = exit ∧ Alike F home left left' := by
  obtain ⟨left, hsteps, hexit, hleft, horder, hmemory⟩ :=
    hstructured.tower.steps (hstructured.runnable hF hconstants) (List.nil_append _).symm hblock
      hpred (InOrder.nil config.registers)
  have hdefined := definedIn_of_skeleton hskeleton home
  have hconstants' : ∀ value c, F'.constant value = some c → config.registers value = c := by
    rw [constant_of_skeleton hskeleton]
    exact hconstants
  -- the registers the second one starts with are those of the first as far as they matter
  have hentry : InOrder F' home w config.registers [] config'.registers := by
    refine ⟨fun value hvalue => halike.registers value ?_, fun round hround => ?_⟩
    · rwa [← hdefined]
    · exact absurd hround List.not_mem_nil
  obtain ⟨left', hsteps', hexit', hleft', horder', hmemory'⟩ :=
    hstructured'.tower.steps (hstructured'.runnable
      (Function.distinct_of_skeleton hskeleton hF) hconstants') (List.nil_append _).symm
      (by rw [hheads, hblock, halike.block]) (by rw [halike.pred, hpred]) hentry
  refine ⟨left, left', hsteps, hsteps', hexit, ⟨hexit'.trans hexit.symm, ?_, ?_, ?_⟩⟩
  · rw [hheads, hleft] at hleft'
    exact (Option.some.inj hleft').symm
  · rw [hmemory', hmemory, LoopNestDescriptor.executeInside,
      interpretation_of_skeleton hskeleton, halike.memory]
    exact hsame config.memory
  · intro value hvalue
    rw [horder.outside value hvalue]
    apply horder'.outside
    rwa [hdefined]

/-- What the first stage leaves of a structured nest that the test accepts. -/
theorem LoopNestDescriptor.Structured.order {renamed : Function → Value → String}
    {address : Value → Nat} {editor editor' : Editor} {changed : Bool} (hw : 1 < w)
    (hF : editor.function.Distinct)
    (hSE : SE.Sound editor.function (linearizePerfectNest root))
    (hnest : analyzeLoopNest editor.function SE root = some nest)
    (hbox : nest.Box editor.function)
    (hlegal : isTilingLegal true nest (getDependencies true editor.function nest) = true)
    (hunderstood : Understood editor.function SE nest
      (editor.function.interpretation target w config.registers))
    (hstructured : nest.Structured editor.function home w pre exit)
    (h : optimizeLoopOrder renamed address nest editor = .ok (changed, nest', editor')) :
    nest'.Structured editor'.function home w pre exit ∧
      nest'.loops.head?.map (·.loopNode.header) = nest.loops.head?.map (·.loopNode.header) ∧
      ∀ memory, nest'.execute editor'.function
          (editor.function.interpretation target w config.registers) memory =
        nest.execute editor.function
          (editor.function.interpretation target w config.registers) memory := by
  cases changed with
  | false =>
      obtain ⟨rfl, rfl⟩ := optimizeLoopOrder_unchanged h
      exact ⟨hstructured, rfl, fun _ => rfl⟩
  | true =>
      obtain ⟨idxOuter, idxInner, hne, hinterchange⟩ := optimizeLoopOrder_moved h
      have hlower : ∀ loop ∈ nest.loops, loop.bounds.lower = .ofConstant 0 := by
        intro loop hloop
        obtain ⟨L, hL, hdescribes⟩ := exists_describes hnest hloop
        exact hdescribes.lower_eq hSE hL
      have hsame := execute_interchange hF hnest hbox hlower hlegal hunderstood hne hinterchange
      obtain ⟨outer, inner, preOuter, preInner, hswap⟩ := applyLoopInterchange_ok hinterchange
      have hagrees := hstructured.agrees hnest hSE hw
      have hexchange := hswap.exchange hF hagrees hstructured.tower.isIndex
        hstructured.inductions hne
      obtain ⟨houter, hinner, _, _, _, rfl, ⟨name, hfunction⟩, _⟩ := hswap
      rw [hfunction] at hsame ⊢
      have hheads := congrArg List.head? (map_swapBounds (f := fun loop => loop.loopNode.header)
        (fun _ _ => rfl) houter hinner)
      rw [List.head?_map, List.head?_map] at hheads
      exact ⟨hstructured.swapBounds hexchange hnest hunderstood houter hinner hne hagrees name,
        hheads, hsame⟩

/-- The first stage keeps the skeleton of the function. -/
theorem skeleton_optimizeLoopOrder {renamed : Function → Value → String} {address : Value → Nat}
    {editor editor' : Editor} {changed : Bool}
    (h : optimizeLoopOrder renamed address nest editor = .ok (changed, nest', editor')) :
    editor'.function.skeleton = editor.function.skeleton := by
  cases changed with
  | false => rw [(optimizeLoopOrder_unchanged h).2]
  | true =>
      obtain ⟨idxOuter, idxInner, _, hinterchange⟩ := optimizeLoopOrder_moved h
      obtain ⟨outer, inner, preOuter, preInner, hswap⟩ := applyLoopInterchange_ok hinterchange
      obtain ⟨name, hfunction⟩ := hswap.function_eq
      rw [hfunction]
      exact Function.skeleton_mapInsts (skeleton_swapKind editor.function)

/-- A nest that the test accepts is passed alike before and behind the first stage. -/
theorem optimizeLoopOrder_passes (renamed : Function → Value → String) (address : Value → Nat)
    (SE : ScalarEvolution) (target : Target κ) (root : Loop) (nest nest' : LoopNestDescriptor)
    (editor editor' : Editor) (changed : Bool) (home : List BlockId) (w : Nat)
    (pre exit : BlockId) (hF : editor.function.Distinct)
    (hSE : SE.Sound editor.function (linearizePerfectNest root)) (hw : 1 < w ∧ w ≤ 64)
    (hnest : analyzeLoopNest editor.function SE root = some nest)
    (hnested : Loop.Nested editor.function home w (linearizePerfectNest root) pre exit)
    (hheaders : ((linearizePerfectNest root).map Loop.header).Nodup)
    (hreads : Straight.ReadsOnly (nest.live editor.function home)
      ((nest.body editor.function).map Inst.line))
    (hbox : nest.Box editor.function)
    (hlegal : isTilingLegal true nest (getDependencies true editor.function nest) = true)
    (h : optimizeLoopOrder renamed address nest editor = .ok (changed, nest', editor'))
    (config : Config κ)
    (hconstants : ∀ value c, editor.function.constant value = some c →
      config.registers value = c)
    (hblock : config.block = root.header) (hpred : config.pred = pre)
    (hunderstood : Understood editor.function SE nest
      (editor.function.interpretation target w config.registers)) :
    ∃ left left', editor.function.Passes target home config left ∧
      editor'.function.Passes target home config left' ∧
      left.block = exit ∧ left'.block = exit ∧ left'.memory = left.memory ∧
      ∀ value, value ∉ editor.function.definedIn home →
        left'.registers value = left.registers value := by
  obtain ⟨hstructured, hhead⟩ := structured_of_analyzeLoopNest hF hSE ⟨by omega, hw.2⟩ hnest
    hnested hheaders hreads
  have hskeleton := skeleton_optimizeLoopOrder h
  obtain ⟨hstructured', hheads, hsame⟩ :=
    hstructured.order hw.1 hF hSE hnest hbox hlegal hunderstood h
  have halike : Alike editor.function home config config := ⟨rfl, rfl, rfl, fun _ _ => rfl⟩
  obtain ⟨left, left', hpasses, hpasses', hexit, hleft⟩ :=
    exists_passes hF hskeleton hstructured hstructured' hheads hsame hconstants halike
      (hblock ▸ hhead) hpred
  exact ⟨left, left', hpasses, hpasses', hexit, hleft.block.trans hexit, hleft.memory,
    hleft.registers⟩

end Order

section Program

theorem toNat_wordOf {n : Int} (hlow : 0 ≤ n) (hhigh : n < 8) :
    ((wordOf 32 n).bits.toNat : Int) = n := by
  change ((BitVec.ofInt 32 n).toNat : Int) = n
  rw [BitVec.toNat_ofInt]
  omega

/-- The pointer of an iteration goes to the element its access names. -/
theorem elementTarget_address {u v : Int} (hu : 0 ≤ u ∧ u < 8) (hv : 0 ≤ v ∧ v < 8) (base : Word) :
    elementTarget.address (elementTarget.compute 40 [base, wordOf 32 v, wordOf 32 u]) =
      ("A", [v, u]) := by
  have hv' := toNat_wordOf hv.1 hv.2
  have hu' := toNat_wordOf hu.1 hu.2
  simp only [elementTarget, BitVec.toNat_ofNat, Prod.mk.injEq, List.cons.injEq, true_and, and_true]
  omega

theorem updateFunction_understood (registers : Value → Word) :
    Understood updateFunction exampleEvolution updateNest
      (updateFunction.interpretation elementTarget 32 registers) where
  notPhi := by decide
  touches := by decide
  operands := by decide
  follows := by
    intro x hx memory
    have hlower : ∀ loop ∈ updateNest.loops, loop.bounds.lower = .ofConstant 0 := by decide
    have hbounds := (inBox_uppers hlower).mpr hx
    obtain ⟨u, v, rfl⟩ : ∃ u v, x = [u, v] :=
      List.length_eq_two.mp (updateNest.length_of_mem_box hx)
    obtain ⟨hu, hv⟩ : (0 ≤ u ∧ u < 8) ∧ 0 ≤ v ∧ v < 8 := by
      have huppers : updateNest.uppers = [8, 8] := rfl
      rw [huppers] at hbounds
      simpa [Schedule.InBox] using hbounds
    have hlines : (updateNest.body updateFunction).map Inst.line =
        [⟨4, .compute [2, 10]⟩, ⟨40, .compute [30, 2, 1]⟩, ⟨41, .load 40⟩, ⟨42, .compute [41]⟩,
          ⟨43, .store 42 40⟩, ⟨6, .compute [2, 9]⟩] := rfl
    have hload : updateNest.cellAt updateFunction exampleEvolution
        (updateFunction.interpretation elementTarget 32 registers) [u, v] 41 =
          ("A", updateNest.cell ⟨.load, 41, 30, "A", [makeUnknownExpr 2, makeUnknownExpr 1]⟩
            [u, v]) := rfl
    have hstore : updateNest.cellAt updateFunction exampleEvolution
        (updateFunction.interpretation elementTarget 32 registers) [u, v] 43 =
          ("A", updateNest.cell ⟨.store, 43, 30, "A", [makeUnknownExpr 2, makeUnknownExpr 1]⟩
            [u, v]) := rfl
    rw [updateNest_cell List.mem_cons_self] at hload
    rw [updateNest_cell (List.mem_cons_of_mem _ List.mem_cons_self)] at hstore
    have hi : updateNest.entry
        (updateFunction.interpretation elementTarget 32 registers) [u, v] 1 =
          wordOf 32 u := rfl
    have hj : updateNest.entry
        (updateFunction.interpretation elementTarget 32 registers) [u, v] 2 =
          wordOf 32 v := rfl
    have hresult : ∀ base, (updateFunction.machine elementTarget).result 40
        [base, wordOf 32 v, wordOf 32 u] =
          elementTarget.compute 40 [base, wordOf 32 v, wordOf 32 u] := fun _ => rfl
    have haddress : (updateFunction.machine elementTarget).address = elementTarget.address := rfl
    have hmachine : (updateFunction.interpretation elementTarget 32 registers).machine =
        updateFunction.machine elementTarget := rfl
    rw [hlines]
    simp [Straight.Follows, Straight.Line.exec, Straight.Op.pointer?, hload, hstore, hi, hj,
      hmachine, hresult, haddress, elementTarget_address hu hv]

/-- The two loops of the example change places. -/
theorem updateFunction_passes : ∃ nest' editor' left left',
    optimizeLoopOrder (fun _ _ => "i") id updateNest (.ofFunction updateFunction 100) =
        .ok (true, nest', editor') ∧
      updateFunction.Passes elementTarget [1, 2, 3, 4, 5]
        ⟨1, 0, exampleRegisters, fun _ => ⟨32, 0⟩⟩ left ∧
      editor'.function.Passes elementTarget [1, 2, 3, 4, 5]
        ⟨1, 0, exampleRegisters, fun _ => ⟨32, 0⟩⟩ left' ∧
      left.block = 6 ∧ left'.block = 6 ∧ left'.memory = left.memory ∧
      ∀ value, value ∉ updateFunction.definedIn [1, 2, 3, 4, 5] →
        left'.registers value = left.registers value := by
  obtain ⟨left, left', h⟩ := optimizeLoopOrder_passes (fun _ _ => "i") id exampleEvolution
    elementTarget exampleOuter updateNest _ (.ofFunction updateFunction 100) _ true
    [1, 2, 3, 4, 5] 32 0 6 ⟨by decide, by decide, by decide⟩ (exampleEvolution_sound rfl rfl rfl)
    (by decide) rfl updateFunction_nested (by decide) updateNest_reads updateNest_box
    updateNest_legal rfl ⟨1, 0, exampleRegisters, fun _ => ⟨32, 0⟩⟩
    (fun value c h => by
      have hconstant : exampleConstant value = some c := h
      simp [exampleRegisters, hconstant]) rfl rfl (updateFunction_understood exampleRegisters)
  exact ⟨_, _, left, left', rfl, h⟩

end Program

end PolyhedralPass
