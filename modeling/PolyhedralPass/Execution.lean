/-
The body of a nest as code.  In every iteration the instructions of the innermost loop
are executed one after the other; what an interchange leaves of them has the same effect
on memory, as long as the test accepts the nest and the accesses are what they touch.
-/
import PolyhedralPass.Collection
import PolyhedralPass.Course
import PolyhedralPass.Permutability
import PolyhedralPass.Renaming
import PolyhedralPass.Straight

namespace PolyhedralPass

open Schedule

section Code

/-- An instruction that is neither a load nor a store computes from its operands. -/
def InstKind.op : InstKind → Straight.Op Value
  | load pointer => .load pointer
  | store value pointer => .store value pointer
  | kind => .compute kind.operands

def Inst.line (inst : Inst) : Straight.Line Value := ⟨inst.value, inst.kind.op⟩

/-- The instructions of the innermost loop besides the branches and the PHI node of the
induction variable. -/
def LoopNestDescriptor.body (F : Function) (nest : LoopNestDescriptor) : List Inst :=
  match nest.loops.getLast? with
  | none => []
  | some innermost => innermost.loopNode.blocks.flatMap fun block =>
      (F.insts block).filter fun inst =>
        inst.value != innermost.induction && !inst.kind.isTerminator

/-- The increments and the comparisons of the loops. -/
def LoopNestDescriptor.steering (nest : LoopNestDescriptor) : List Value :=
  nest.loops.flatMap fun loop => [loop.nextValue, loop.compare]

/-- What the instructions compute, the values of the induction variables and of what is
defined outside, and the place of an array element in memory. -/
structure Interpretation (κ ω : Type) where
  machine : Straight.Machine Value κ ω
  index : Int → ω
  outside : Value → ω
  place : String × List Int → κ
  place_injective : Function.Injective place

variable {κ ω : Type} [DecidableEq κ] (F : Function) (SE : ScalarEvolution)
  (nest : LoopNestDescriptor) (I : Interpretation κ ω)

/-- The values an iteration starts with, as far as the blocks between the headers compute
nothing: the induction variables have those of the iteration, all else is as in front of the
nest. -/
def LoopNestDescriptor.entry (x : List Int) (value : Value) : ω :=
  if nest.loops.any (·.induction == value) then I.index (nest.valuation x value)
  else I.outside value

def LoopNestDescriptor.executeBody (x : List Int) (memory : κ → ω) : κ → ω :=
  (Straight.exec I.machine ((nest.body F).map Inst.line) ⟨nest.entry I x, memory⟩).memory

/-- The memory behind all iterations of a nest whose loops count from zero. -/
def LoopNestDescriptor.execute (memory : κ → ω) : κ → ω :=
  Schedule.run (nest.executeBody F I) (boxPoints nest.uppers) memory

/-- The place of the array element that the access of an instruction names. -/
def LoopNestDescriptor.cellAt (x : List Int) (value : Value) : κ :=
  match (F.inst? value).bind (accessOf F SE) with
  | some access => I.place (sanitizeISLName access.baseName, nest.cell access x)
  | none => I.place ("", [])

/-- The body is straight-line code without scalars of its own, it leaves the steering of the
loops to itself, and its loads and stores go where its accesses say. -/
structure Understood : Prop where
  notPhi : ∀ inst ∈ nest.body F, inst.kind.isPhi = false
  touches : ∀ inst ∈ nest.body F, inst.kind.touchesMemory = true → inst.kind.isLoadOrStore = true
  operands : ∀ inst ∈ nest.body F, inst.value ∉ nest.steering →
    ∀ operand ∈ inst.kind.operands, operand ∉ nest.steering
  follows : ∀ x ∈ nest.box, ∀ memory, Straight.Follows I.machine (nest.cellAt F SE I x)
    ((nest.body F).map Inst.line) ⟨nest.entry I x, memory⟩

end Code

section Lines

theorem InstKind.op_mapOperands (f : Value → Value) (kind : InstKind) :
    (kind.mapOperands f).op = kind.op.rename f := by
  have hcompute : ∀ kind : InstKind,
      (kind.mapOperands f).op = .compute (kind.mapOperands f).operands →
      kind.op = .compute kind.operands → (kind.mapOperands f).op = kind.op.rename f := by
    intro kind hmapped hkind
    rw [hmapped, hkind, operands_mapOperands]
    rfl
  cases kind with
  | load pointer => rfl
  | store value pointer => rfl
  | _ => exact hcompute _ rfl rfl

theorem InstKind.op_operands (kind : InstKind) : kind.op.operands = kind.operands := by
  cases kind <;> rfl

variable {F : Function} {SE : ScalarEvolution} {nest : LoopNestDescriptor} {root : Loop}

theorem mem_body {inst : Inst} : inst ∈ nest.body F ↔ ∃ innermost,
    nest.loops.getLast? = some innermost ∧ ∃ block ∈ innermost.loopNode.blocks,
      inst ∈ F.insts block ∧ inst.value ≠ innermost.induction ∧ inst.kind.isTerminator = false := by
  unfold LoopNestDescriptor.body
  cases nest.loops.getLast? with
  | none => simp
  | some innermost => simp

theorem mem_allInsts_of_mem_body {inst : Inst} (h : inst ∈ nest.body F) : inst ∈ F.allInsts := by
  obtain ⟨_, _, _, _, hinst, _⟩ := mem_body.mp h
  exact Function.mem_allInsts hinst

/-- The access of an instruction of the body is one of the nest. -/
theorem mem_accesses_of_mem_body (hnest : analyzeLoopNest F SE root = some nest) {inst : Inst}
    (hinst : inst ∈ nest.body F) {access : MemoryAccess} (h : accessOf F SE inst = some access) :
    access ∈ nest.accesses := by
  obtain ⟨innermost, hinnermost, block, hblock, hmem, _⟩ := mem_body.mp hinst
  rw [(describes_of_analyzeLoopNest hnest).2.2, collectMemoryAccesses, hinnermost]
  exact List.mem_flatMap.mpr ⟨block, hblock, List.mem_filterMap.mpr ⟨inst, hmem, h⟩⟩

variable {κ ω : Type} {I : Interpretation κ ω}

/-- What an iteration loads from, or stores to, is touched by an access of that kind. -/
theorem exists_access (hF : F.Distinct) (hnest : analyzeLoopNest F SE root = some nest)
    {kind : AccessKind} {inst : Inst} (hinst : inst ∈ nest.body F) {access : MemoryAccess}
    (haccess : accessOf F SE inst = some access) (hkind : access.accessKind = kind) (x : List Int) :
    ∃ a ∈ nest.accesses, a.accessKind = kind ∧ nest.cellAt F SE I x inst.value =
      I.place (sanitizeISLName a.baseName, nest.cell a x) := by
  have hvalue : F.inst? inst.value = some inst :=
    (Function.inst?_eq_some hF.values_nodup).mpr ⟨mem_allInsts_of_mem_body hinst, rfl⟩
  refine ⟨access, mem_accesses_of_mem_body hnest hinst haccess, hkind, ?_⟩
  rw [LoopNestDescriptor.cellAt, hvalue, Option.bind_some, haccess]

theorem mem_reads (hF : F.Distinct) (hnest : analyzeLoopNest F SE root = some nest) {x : List Int}
    {c : κ} (h : c ∈ Straight.reads (nest.cellAt F SE I x) ((nest.body F).map Inst.line)) :
    ∃ a ∈ nest.accesses, a.accessKind = .load ∧
      c = I.place (sanitizeISLName a.baseName, nest.cell a x) := by
  obtain ⟨line, hline, pointer, hop, rfl⟩ := h
  obtain ⟨⟨value, type, kind⟩, hinst, rfl⟩ := List.mem_map.mp hline
  cases kind with
  | load _ => exact exists_access hF hnest hinst rfl rfl x
  | _ => cases hop

theorem mem_writes (hF : F.Distinct) (hnest : analyzeLoopNest F SE root = some nest) {x : List Int}
    {c : κ} (h : c ∈ Straight.writes (nest.cellAt F SE I x) ((nest.body F).map Inst.line)) :
    ∃ a ∈ nest.accesses, a.accessKind = .store ∧
      c = I.place (sanitizeISLName a.baseName, nest.cell a x) := by
  obtain ⟨line, hline, value, pointer, hop, rfl⟩ := h
  obtain ⟨⟨value, type, kind⟩, hinst, rfl⟩ := List.mem_map.mp hline
  cases kind with
  | store _ _ => exact exists_access hF hnest hinst rfl rfl x
  | _ => cases hop

end Lines

section Order

variable {F : Function} {SE : ScalarEvolution} {nest : LoopNestDescriptor} {root : Loop}
  {κ ω : Type} [DecidableEq κ] {I : Interpretation κ ω}

theorem conflict_of_effects (hF : F.Distinct) (hnest : analyzeLoopNest F SE root = some nest)
    (h : Understood F SE nest I) {x y : List Int}
    (hconflict : (Straight.effects I.machine ((nest.body F).map Inst.line) (nest.entry I)
      (nest.cellAt F SE I) (· ∈ nest.box) h.follows).Conflicts x y) : nest.Conflict x y := by
  have hsame : ∀ {a b : MemoryAccess} {c : κ},
      c = I.place (sanitizeISLName a.baseName, nest.cell a x) →
      c = I.place (sanitizeISLName b.baseName, nest.cell b y) →
      sanitizeISLName a.baseName = sanitizeISLName b.baseName ∧ nest.cell a x = nest.cell b y := by
    intro a b c ha hb
    exact Prod.mk.inj (I.place_injective (ha.symm.trans hb))
  obtain ⟨c, ⟨⟨_, hx⟩, ⟨_, hy⟩⟩ | ⟨⟨_, hx⟩, ⟨_, hy⟩⟩ | ⟨⟨_, hx⟩, ⟨_, hy⟩⟩⟩ := hconflict
  · obtain ⟨a, ha, hkind, hc⟩ := mem_writes hF hnest hx
    obtain ⟨b, hb, _, hc'⟩ := mem_writes hF hnest hy
    exact ⟨a, ha, b, hb, Or.inl hkind, hsame hc hc'⟩
  · obtain ⟨a, ha, hkind, hc⟩ := mem_writes hF hnest hx
    obtain ⟨b, hb, _, hc'⟩ := mem_reads hF hnest hy
    exact ⟨a, ha, b, hb, Or.inl hkind, hsame hc hc'⟩
  · obtain ⟨a, ha, _, hc⟩ := mem_reads hF hnest hx
    obtain ⟨b, hb, hkind, hc'⟩ := mem_writes hF hnest hy
    exact ⟨a, ha, b, hb, Or.inr hkind, hsame hc hc'⟩

/-- The loops of an accepted nest in the order behind an interchange of two of them. -/
theorem run_exchanged (hF : F.Distinct) (hnest : analyzeLoopNest F SE root = some nest)
    (hbox : nest.Box F) (hlower : ∀ loop ∈ nest.loops, loop.bounds.lower = .ofConstant 0)
    (hlegal : isTilingLegal true nest (getDependencies true F nest) = true)
    (h : Understood F SE nest I) {i j : Nat} (hi : i < nest.depth) (hj : j < nest.depth)
    (memory : κ → ω) :
    Schedule.run (fun x => nest.executeBody F I (exchange i j x))
      (boxPoints (exchange i j nest.uppers)) memory = nest.execute F I memory := by
  have hlength : nest.uppers.length = nest.depth := List.length_map _
  let effects := Straight.effects I.machine ((nest.body F).map Inst.line) (nest.entry I)
    (nest.cellAt F SE I) (· ∈ nest.box) h.follows
  have hforward : ∀ x y, InBox nest.uppers x → InBox nest.uppers y → List.Lex (· < ·) x y →
      effects.Conflicts x y → List.Forall₂ (· ≤ ·) x y := by
    intro x y hx hy hlex hconflict
    rw [inBox_uppers hlower] at hx hy
    exact (tilingVerdict_iff_forward hbox).mp hlegal x y ⟨hx, hy, hlex, conflict_of_effects hF hnest
      h hconflict⟩
  -- one tile holds all iterations of every loop
  obtain ⟨size, hsize, hle⟩ := exists_size (exchange i j nest.uppers)
  have hrun := run_tiledPoints hsize (hlength ▸ hi) (hlength ▸ hj) hforward memory
  rw [tiledPoints, blockedPoints_of_le hle] at hrun
  have hstep : ∀ x ∈ nest.box, effects.step x = nest.executeBody F I x := by
    intro x hx
    funext memory
    exact if_pos hx
  have hexchanged : ∀ x ∈ (boxPoints (exchange i j nest.uppers)).map (exchange i j),
      x ∈ nest.box := by
    intro x hx
    rw [← blockedPoints_of_le hle] at hx
    exact (inBox_uppers hlower).mp ((mem_tiledPoints hsize (hlength ▸ hi) (hlength ▸ hj)).mp hx)
  rw [run_congr fun x hx => hstep x (hexchanged x hx), run_map] at hrun
  rw [hrun, LoopNestDescriptor.execute]
  exact run_congr (fun x hx => hstep x ((inBox_uppers hlower).mp (mem_boxPoints.mp hx))) memory

end Order

section Steering

variable {F : Function} {SE : ScalarEvolution} {nest : LoopNestDescriptor} {root : Loop}

/-- Increments and comparisons are neither PHI nodes nor accesses. -/
theorem steering_kind (hF : F.Distinct) (hnest : analyzeLoopNest F SE root = some nest)
    {inst : Inst} (hinst : inst ∈ F.allInsts) (h : inst.value ∈ nest.steering) :
    inst.kind.isPhi = false ∧ inst.kind.isLoadOrStore = false := by
  obtain ⟨loop, hloop, hvalue⟩ := List.mem_flatMap.mp h
  obtain ⟨L, _, hdescribes⟩ := exists_describes hnest hloop
  rcases List.mem_pair.mp hvalue with hvalue | hvalue
  · obtain ⟨value, type, lhs, rhs, hfind⟩ := hdescribes.start_next.2
    obtain ⟨hmem, hval⟩ := (Function.inst?_eq_some hF.values_nodup).mp hfind
    rw [Function.eq_of_value_eq hF.values_nodup hinst hmem (hvalue.trans hval.symm)]
    exact ⟨rfl, rfl⟩
  · rw [hdescribes.compare_kind hF hinst hvalue]
    exact ⟨rfl, rfl⟩

theorem induction_not_steering (hF : F.Distinct) (hnest : analyzeLoopNest F SE root = some nest)
    {loop : LoopDescriptor} (hloop : loop ∈ nest.loops) : loop.induction ∉ nest.steering := by
  intro hsteering
  obtain ⟨L, _, hdescribes⟩ := exists_describes hnest hloop
  obtain ⟨inst, hinst, hvalue, incoming, hkind⟩ := hdescribes.phi
  have hphi := (steering_kind hF hnest (Function.mem_allInsts hinst) (hvalue ▸ hsteering)).1
  rw [hkind] at hphi
  exact absurd hphi (by simp [InstKind.isPhi])

/-- The body has no induction variable in it. -/
theorem body_ne_induction (hF : F.Distinct) (hnest : analyzeLoopNest F SE root = some nest)
    (hphi : ∀ inst ∈ nest.body F, inst.kind.isPhi = false) {loop : LoopDescriptor}
    (hloop : loop ∈ nest.loops) {inst : Inst} (hinst : inst ∈ nest.body F) :
    inst.value ≠ loop.induction := by
  intro heq
  obtain ⟨L, _, hdescribes⟩ := exists_describes hnest hloop
  obtain ⟨_, _, _, _, hmem, _⟩ := mem_body.mp hinst
  obtain ⟨_, incoming, hkind⟩ := hdescribes.induction_kind hF hmem heq
  have hnot := hphi inst hinst
  rw [hkind] at hnot
  exact absurd hnot (by simp [InstKind.isPhi])

theorem InstKind.isLoadOrStore_skeleton (kind : InstKind) :
    kind.skeleton.isLoadOrStore = kind.isLoadOrStore := by
  cases kind <;> rfl

theorem InstKind.op_of_not_isLoadOrStore {kind : InstKind} (h : kind.isLoadOrStore = false) :
    kind.op = .compute kind.operands := by
  cases kind with
  | load _ | store _ _ => exact absurd h (by simp [isLoadOrStore])
  | _ => rfl

end Steering

section Interchange

variable {F : Function} {SE : ScalarEvolution} {nest : LoopNestDescriptor} {root : Loop}
  {idxOuter idxInner : Nat} {outer inner : LoopDescriptor} {preOuter preInner : BlockId}
  {κ ω : Type} [DecidableEq κ] {I : Interpretation κ ω}

theorem uppers_swapBounds (hne : idxOuter ≠ idxInner) (houter : nest.loops[idxOuter]? = some outer)
    (hinner : nest.loops[idxInner]? = some inner) :
    (nest.swapBounds idxOuter idxInner outer inner).uppers =
      exchange idxOuter idxInner nest.uppers := by
  have hlength : nest.uppers.length = nest.loops.length := List.length_map _
  have hi := (List.getElem?_eq_some_iff.mp houter).1
  have hj := (List.getElem?_eq_some_iff.mp hinner).1
  apply List.ext_getElem?
  intro k
  rw [getElem?_exchange (hlength ▸ hi) (hlength ▸ hj)]
  simp only [LoopNestDescriptor.uppers, List.getElem?_map, getElem?_swapBounds hne houter hinner,
    houter, hinner]
  by_cases hkInner : k = idxInner
  · rw [if_pos hkInner, if_neg (hkInner ▸ hne.symm), if_pos hkInner]
    rfl
  · by_cases hkOuter : k = idxOuter
    · rw [if_pos hkOuter, if_neg hkInner, if_pos hkOuter]
      rfl
    · rw [if_neg hkOuter, if_neg hkInner, if_neg hkInner, if_neg hkOuter]

/-- Behind an exchange of two loops the two induction variables have each other's values. -/
theorem valuation_exchange (hbox : nest.Box F) (houter : nest.loops[idxOuter]? = some outer)
    (hinner : nest.loops[idxInner]? = some inner) {y : List Int} (hy : y.length = nest.depth)
    (value : Value) :
    nest.valuation y (Equiv.swap outer.induction inner.induction value) =
      nest.valuation (exchange idxOuter idxInner y) value := by
  obtain ⟨hi, rfl⟩ := List.getElem?_eq_some_iff.mp houter
  obtain ⟨hj, rfl⟩ := List.getElem?_eq_some_iff.mp hinner
  have hexchanged := getElem?_exchange (l := y) (i := idxOuter) (j := idxInner) (hy ▸ hi) (hy ▸ hj)
  have hy' : (exchange idxOuter idxInner y).length = nest.depth := by rw [length_exchange, hy]
  have hat : ∀ {x : List Int}, x.length = nest.depth → ∀ {k : Nat} (hk : k < nest.loops.length),
      x[k]? = some (nest.valuation x nest.loops[k].induction) := by
    intro x hx k hk
    rw [hbox.valuation_induction hk (hx ▸ hk), List.getElem?_eq_getElem]
  by_cases hvalueInner : value = nest.loops[idxInner].induction
  · have hplace := hexchanged idxInner
    rw [if_pos rfl, hat hy' hj, hat hy hi] at hplace
    rw [hvalueInner, Equiv.swap_apply_right]
    exact (Option.some.inj hplace).symm
  · by_cases hvalueOuter : value = nest.loops[idxOuter].induction
    · have hne : idxOuter ≠ idxInner := fun heq => hvalueInner (by simp only [hvalueOuter, heq])
      have hplace := hexchanged idxOuter
      rw [if_neg hne, if_pos rfl, hat hy' hi, hat hy hj] at hplace
      rw [hvalueOuter, Equiv.swap_apply_left]
      exact (Option.some.inj hplace).symm
    · rw [Equiv.swap_apply_of_ne_of_ne hvalueOuter hvalueInner]
      by_cases hvalue : ∃ loop ∈ nest.loops, loop.induction = value
      · obtain ⟨loop, hloop, rfl⟩ := hvalue
        obtain ⟨k, hk, rfl⟩ := List.getElem_of_mem hloop
        have hkInner : k ≠ idxInner := fun heq => hvalueInner (by simp only [heq])
        have hkOuter : k ≠ idxOuter := fun heq => hvalueOuter (by simp only [heq])
        have hplace := hexchanged k
        rw [if_neg hkInner, if_neg hkOuter, hat hy' hk, hat hy hk] at hplace
        exact (Option.some.inj hplace).symm
      · have hnone : ∀ loop ∈ nest.loops, loop.induction ≠ value :=
          fun loop hloop heq => hvalue ⟨loop, hloop, heq⟩
        rw [valuation_eq_zero hy hnone, valuation_eq_zero hy' hnone]

theorem any_induction {loops : List LoopDescriptor} {value : Value} :
    loops.any (·.induction == value) = true ↔ value ∈ loops.map LoopDescriptor.induction := by
  simp

omit [DecidableEq κ] in
theorem entry_exchange (hbox : nest.Box F) (houter : nest.loops[idxOuter]? = some outer)
    (hinner : nest.loops[idxInner]? = some inner) {y : List Int} (hy : y.length = nest.depth)
    (value : Value) :
    (nest.swapBounds idxOuter idxInner outer inner).entry I y
        (Equiv.swap outer.induction inner.induction value) =
      nest.entry I (exchange idxOuter idxInner y) value := by
  have hinductions : (nest.swapBounds idxOuter idxInner outer inner).loops.map
      LoopDescriptor.induction = nest.loops.map LoopDescriptor.induction :=
    map_swapBounds (fun _ _ => rfl) houter hinner
  have hmemOuter : outer.induction ∈ nest.loops.map LoopDescriptor.induction :=
    List.mem_map_of_mem (List.mem_of_getElem? houter)
  have hmemInner : inner.induction ∈ nest.loops.map LoopDescriptor.induction :=
    List.mem_map_of_mem (List.mem_of_getElem? hinner)
  simp only [LoopNestDescriptor.entry, any_induction, hinductions, valuation_congr hinductions,
    valuation_exchange hbox houter hinner hy]
  by_cases hvalueOuter : value = outer.induction
  · rw [hvalueOuter, Equiv.swap_apply_left, if_pos hmemInner, if_pos hmemOuter]
  · by_cases hvalueInner : value = inner.induction
    · rw [hvalueInner, Equiv.swap_apply_right, if_pos hmemOuter, if_pos hmemInner]
    · rw [Equiv.swap_apply_of_ne_of_ne hvalueOuter hvalueInner]

/-- An instruction of the body behind an interchange. -/
theorem renamed_line (hF : F.Distinct) (hnest : analyzeLoopNest F SE root = some nest)
    (h : Understood F SE nest I) (houter : outer ∈ nest.loops) (hinner : inner ∈ nest.loops)
    {block : BlockId} {inst : Inst} (hinst : inst ∈ nest.body F) :
    Straight.Renamed (Equiv.swap outer.induction inner.induction) { v | v ∈ nest.steering }
      inst.line
      (Inst.line { inst with kind := swapKind F preOuter preInner outer inner block inst }) := by
  by_cases hsteering : inst.value ∈ nest.steering
  · have hkind := (steering_kind hF hnest (mem_allInsts_of_mem_body hinst) hsteering).2
    have hkind' : (swapKind F preOuter preInner outer inner block inst).isLoadOrStore = false := by
      rw [← InstKind.isLoadOrStore_skeleton, skeleton_swapKind, InstKind.isLoadOrStore_skeleton,
        hkind]
    rw [Inst.line, Inst.line, InstKind.op_of_not_isLoadOrStore hkind,
      InstKind.op_of_not_isLoadOrStore hkind']
    exact .control hsteering
  · have hne : ∀ loop ∈ nest.loops, inst.value ≠ loop.induction := fun loop hloop =>
      body_ne_induction hF hnest h.notPhi hloop hinst
    have hnot : ∀ loop ∈ nest.loops, inst.value ≠ loop.nextValue ∧ inst.value ≠ loop.compare := by
      intro loop hloop
      exact ⟨fun heq => hsteering (List.mem_flatMap.mpr ⟨loop, hloop, by simp [heq]⟩),
        fun heq => hsteering (List.mem_flatMap.mpr ⟨loop, hloop, by simp [heq]⟩)⟩
    have hfree : ∀ loop ∈ nest.loops, loop.isControlInst F block inst = false := by
      intro loop hloop
      simp [LoopDescriptor.isControlInst, hnot loop hloop, h.notPhi inst hinst]
    have hcontrols : inst.value ∉ outer.controls inner := by
      simp [LoopDescriptor.controls, hne outer houter, hne inner hinner, hnot outer houter,
        hnot inner hinner]
    have huse : swapUse F outer inner block inst =
        Equiv.swap outer.induction inner.induction := by
      funext value
      rw [swapUse, Equiv.swap_apply_def, hfree outer houter, hfree inner hinner]
      rfl
    rw [Inst.line, Inst.line, swapKind, controlKind_of_not_mem hcontrols, huse,
      InstKind.op_mapOperands]
    refine .payload hsteering ?_ ?_
    · exact Equiv.swap_apply_of_ne_of_ne (hne outer houter) (hne inner hinner)
    · rw [InstKind.op_operands]
      exact h.operands inst hinst hsteering

theorem forall₂_flatMap {α β γ : Type} {R : β → γ → Prop} {f : α → List β} {g : α → List γ}
    {items : List α} (h : ∀ a ∈ items, List.Forall₂ R (f a) (g a)) :
    List.Forall₂ R (items.flatMap f) (items.flatMap g) := by
  induction items with
  | nil => exact List.Forall₂.nil
  | cons a items ih =>
      rw [List.flatMap_cons, List.flatMap_cons]
      exact List.rel_append (h a List.mem_cons_self)
        (ih fun b hb => h b (List.mem_cons_of_mem a hb))

theorem lines_swapBounds (hF : F.Distinct) (hnest : analyzeLoopNest F SE root = some nest)
    (h : Understood F SE nest I) (houter : nest.loops[idxOuter]? = some outer)
    (hinner : nest.loops[idxInner]? = some inner) (name : Value → Option String) :
    List.Forall₂
      (Straight.Renamed (Equiv.swap outer.induction inner.induction) { v | v ∈ nest.steering })
      ((nest.body F).map Inst.line)
      (((nest.swapBounds idxOuter idxInner outer inner).body
        { F.mapInsts (swapKind F preOuter preInner outer inner) with name }).map Inst.line) := by
  have hlast := congrArg List.getLast? (map_swapBounds (f := fun loop =>
    (loop.loopNode, loop.induction)) (fun _ _ => rfl) houter hinner)
  rw [List.getLast?_map, List.getLast?_map] at hlast
  have hline := fun inst (hinst : inst ∈ nest.body F) block => @renamed_line F SE nest root outer
    inner preOuter preInner κ ω _ I hF hnest h (List.mem_of_getElem? houter)
    (List.mem_of_getElem? hinner) block inst hinst
  unfold LoopNestDescriptor.body
  cases hinnermost : nest.loops.getLast? with
  | none =>
      rw [hinnermost, Option.map_none, Option.map_eq_none_iff] at hlast
      rw [hlast]
      exact List.Forall₂.nil
  | some innermost =>
      rw [hinnermost, Option.map_some, Option.map_eq_some_iff] at hlast
      obtain ⟨last, hlast, heq⟩ := hlast
      obtain ⟨hnode, hinduction⟩ := Prod.mk.inj heq
      simp only [hlast, hnode, hinduction, List.map_flatMap]
      apply forall₂_flatMap
      intro block hblock
      have hinsts : Function.insts { F.mapInsts (swapKind F preOuter preInner outer inner) with
          name } block = (F.insts block).map fun inst =>
            { inst with kind := swapKind F preOuter preInner outer inner block inst } :=
        Function.insts_mapInsts block
      have hkept : ∀ inst : Inst,
          (swapKind F preOuter preInner outer inner block inst).isTerminator =
            inst.kind.isTerminator := by
        intro inst
        rw [swapKind, InstKind.isTerminator_mapOperands, isTerminator_controlKind]
      rw [hinsts, List.filter_map, List.forall₂_map_left_iff, List.forall₂_map_right_iff,
        List.forall₂_map_right_iff]
      simp only [Function.comp_def, hkept]
      rw [List.forall₂_same]
      intro inst hinst
      apply hline
      simp only [List.mem_filter, Bool.and_eq_true, bne_iff_ne, Bool.not_eq_true'] at hinst
      exact mem_body.mpr ⟨innermost, hinnermost, block, hblock, hinst⟩

/-- An iteration behind an interchange does what the one with the two indices exchanged did
in front of it. -/
theorem executeBody_exchange (hF : F.Distinct) (hnest : analyzeLoopNest F SE root = some nest)
    (hbox : nest.Box F) (h : Understood F SE nest I) (houter : nest.loops[idxOuter]? = some outer)
    (hinner : nest.loops[idxInner]? = some inner) (name : Value → Option String) {y : List Int}
    (hy : y.length = nest.depth) (memory : κ → ω) :
    (nest.swapBounds idxOuter idxInner outer inner).executeBody
        { F.mapInsts (swapKind F preOuter preInner outer inner) with name } I y memory =
      nest.executeBody F I (exchange idxOuter idxInner y) memory := by
  have hinductionOuter := induction_not_steering hF hnest (List.mem_of_getElem? houter)
  have hinductionInner := induction_not_steering hF hnest (List.mem_of_getElem? hinner)
  refine Straight.exec_renamed (Equiv.injective _) ?_
    (lines_swapBounds hF hnest h houter hinner name) ?_ rfl
  · intro value hvalue
    rw [Equiv.swap_apply_def]
    split_ifs
    · exact hinductionInner
    · exact hinductionOuter
    · exact hvalue
  · exact fun value _ => entry_exchange hbox houter hinner hy value

/-- An interchange of two loops of a nest that the test accepts. -/
theorem execute_interchange {renamed : Function → Value → String} {nest' : LoopNestDescriptor}
    {editor editor' : Editor} (hF : editor.function.Distinct)
    (hnest : analyzeLoopNest editor.function SE root = some nest)
    (hbox : nest.Box editor.function)
    (hlower : ∀ loop ∈ nest.loops, loop.bounds.lower = .ofConstant 0)
    (hlegal : isTilingLegal true nest (getDependencies true editor.function nest) = true)
    (hunderstood : Understood editor.function SE nest I) (hne : idxOuter ≠ idxInner)
    (h : applyLoopInterchange renamed nest idxOuter idxInner editor = .ok (true, nest', editor'))
    (memory : κ → ω) :
    nest'.execute editor'.function I memory = nest.execute editor.function I memory := by
  obtain ⟨outer, inner, preOuter, preInner, hswap⟩ := applyLoopInterchange_ok h
  obtain ⟨houter, hinner, _, _, _, rfl, ⟨name, hfunction⟩, _⟩ := hswap
  have hi := (List.getElem?_eq_some_iff.mp houter).1
  have hj := (List.getElem?_eq_some_iff.mp hinner).1
  rw [← run_exchanged hF hnest hbox hlower hlegal hunderstood hi hj, hfunction,
    LoopNestDescriptor.execute, uppers_swapBounds hne houter hinner]
  apply run_congr
  intro y hy
  have hlength : y.length = nest.depth := by
    rw [← (mem_boxPoints.mp hy).length_eq, length_exchange]
    exact List.length_map _
  funext memory
  exact executeBody_exchange hF hnest hbox hunderstood houter hinner name hlength memory

theorem optimizeLoopOrder_moved {renamed : Function → Value → String} {address : Value → Nat}
    {nest' : LoopNestDescriptor} {editor editor' : Editor}
    (h : optimizeLoopOrder renamed address nest editor = .ok (true, nest', editor')) :
    ∃ idxOuter idxInner, idxOuter ≠ idxInner ∧
      applyLoopInterchange renamed nest idxOuter idxInner editor = .ok (true, nest', editor') := by
  unfold optimizeLoopOrder at h
  split_ifs at h with hdepth
  · exact absurd (Prod.mk.inj (Except.ok.inj h)).1 (by simp)
  · split at h
    · exact absurd (Prod.mk.inj (Except.ok.inj h)).1 (by simp)
    · simp only at h
      split_ifs at h with hinnermost
      · exact ⟨_, _, hinnermost, h⟩
      · exact absurd (Prod.mk.inj (Except.ok.inj h)).1 (by simp)

end Interchange

section Program

/-- `A[j][i] = f(A[j][i])` -/
def updateFunction : Function :=
  Payload.function { inner := [⟨40, .ptr, .gep 30 [.elem 2 32, .elem 1 4]⟩,
    ⟨41, .int 32, .load 40⟩, ⟨42, .int 32, .compute [41]⟩, ⟨43, .void, .store 42 40⟩] } .slt

def updateNest : LoopNestDescriptor :=
  exampleLoops [⟨.load, 41, 30, "A", [makeUnknownExpr 2, makeUnknownExpr 1]⟩,
    ⟨.store, 43, 30, "A", [makeUnknownExpr 2, makeUnknownExpr 1]⟩]

theorem analyze_updateFunction :
    analyzeLoopNest updateFunction exampleEvolution exampleOuter = some updateNest := rfl

theorem updateNest_box : updateNest.Box updateFunction := by
  decide

theorem updateNest_cell {access : MemoryAccess} (haccess : access ∈ updateNest.accesses)
    (u v : Int) : updateNest.cell access [u, v] = [v, u] := by
  have hi : updateNest.valuation [u, v] 1 = u := rfl
  have hj : updateNest.valuation [u, v] 2 = v := rfl
  simp only [updateNest, exampleLoops, List.mem_cons, List.not_mem_nil, or_false] at haccess
  rcases haccess with rfl | rfl <;>
    simp [LoopNestDescriptor.cell, MemoryAccess.printedSubscripts, makeUnknownExpr, addTerm,
      mergeTerm, AffineExpr.eval, AffineTerm.eval, hi, hj]

/-- No two iterations touch a common element. -/
theorem updateNest_legal : isTilingLegal true updateNest
    (getDependencies true updateFunction updateNest) = true := by
  refine (tilingVerdict_iff_comparable updateNest_box).mpr fun x hx y hy hconflict => ?_
  obtain ⟨u, v, rfl⟩ : ∃ u v, x = [u, v] :=
    List.length_eq_two.mp (updateNest.length_of_mem_box hx)
  obtain ⟨u', v', rfl⟩ : ∃ u v, y = [u, v] :=
    List.length_eq_two.mp (updateNest.length_of_mem_box hy)
  obtain ⟨a, ha, b, hb, _, _, hcell⟩ := hconflict
  rw [updateNest_cell ha, updateNest_cell hb] at hcell
  simp only [List.cons.injEq, and_true] at hcell
  obtain ⟨rfl, rfl⟩ := hcell
  exact Or.inl (List.forall₂_same.mpr fun w _ => le_refl w)

end Program

end PolyhedralPass
