/-
One dimension of a tiled nest: the instructions that tiling emits for its latch
and its clamp, what they compute, and the runs of the loops they control.
-/
import PolyhedralPass.Tiling
import PolyhedralPass.Ssa
import PolyhedralPass.Flow.Counting
import Mathlib.Algebra.Group.Basic
import Mathlib.Data.Nat.Cast.Basic

namespace PolyhedralPass

open Flow

/-- The values of the integers and of the conditions. -/
structure Registers (α : Type) where
  value : Value → α
  condition : Value → Bool

section Execution

variable {α : Type} [Add α] (holds : Predicate → α → α → Bool)

/-- An addition, a comparison or a selection. -/
def Inst.exec (inst : Inst) (regs : Registers α) : Registers α :=
  match inst.kind with
  | .add lhs rhs =>
      { regs with
        value := Function.update regs.value inst.value (regs.value lhs + regs.value rhs) }
  | .icmp pred lhs rhs =>
      { regs with
        condition := Function.update regs.condition inst.value
          (holds pred (regs.value lhs) (regs.value rhs)) }
  | .select cond ifTrue ifFalse =>
      { regs with
        value := Function.update regs.value inst.value
          (if regs.condition cond then regs.value ifTrue else regs.value ifFalse) }
  | _ => regs

def execInsts (insts : List Inst) (regs : Registers α) : Registers α :=
  insts.foldl (fun regs inst => inst.exec holds regs) regs

end Execution

section Emitted

variable (ivType : IRType) (tileSizeVal : Value) (loop : LoopDescriptor)

/-- The instructions of a tile latch, the values from `next` on. -/
def latchInsts (induction next header latch : Nat) : List Inst :=
  [⟨next, ivType, .add induction tileSizeVal⟩,
    ⟨next + 1, .int 1, .icmp loop.predicate next loop.boundValue⟩,
    ⟨next + 2, .void, .condBr (next + 1) header latch⟩]

/-- The instructions that clamp the bound of a point loop, the values from `end` on. -/
def clampInsts (induction endBound : Value) : List Inst :=
  [⟨endBound, ivType, .add induction tileSizeVal⟩,
    ⟨endBound + 1, .int 1, .icmp loop.predicate endBound loop.boundValue⟩,
    ⟨endBound + 2, ivType, .select (endBound + 1) endBound loop.boundValue⟩]

end Emitted

/-- The control of one loop of a nest: its predicate, the outcome of the test with
which it goes on, and its bound. -/
structure Control (α : Type) where
  holds : α → α → Bool
  polarity : Bool
  bound : α

namespace Control

variable {α : Type} [AddMonoidWithOne α] (control : Control α) (tileSize : Nat)

/-- A run of the loop against some bound. -/
def LoopRun (bound start : α) (values : List α) : Prop :=
  TopRun (fun iv => control.holds iv bound = control.polarity) (· + 1) start values

/-- The bound of the point loop in the tile of an induction variable. -/
def clamp (iv : α) : α :=
  if control.holds (iv + tileSize) control.bound then iv + tileSize else control.bound

/-- The tile loop around the point loop, from a value of its induction variable. -/
def TileRun (start : α) (values : List α) : Prop :=
  BottomRun (fun iv => control.holds iv control.bound = true) (· + (tileSize : α))
    (fun iv => control.LoopRun (control.clamp tileSize iv) iv) start values

end Control

section Counting

variable {α : Type} [AddMonoidWithOne α] {control : Control α} {tileSize : Nat}

theorem iterate_add_one (s n : Nat) : (· + (1 : α))^[n] (s : α) = ((s + n : Nat) : α) := by
  rw [add_right_iterate_apply, nsmul_one, Nat.cast_add]

theorem iterate_add_tileSize (n : Nat) :
    (· + (tileSize : α))^[n] 0 = ((n * tileSize : Nat) : α) := by
  rw [add_right_iterate_apply, zero_add]
  induction n with
  | zero => simp
  | succ n ih => rw [succ_nsmul, ih, Nat.succ_mul, Nat.cast_add]

theorem iterate_eq_range' (s n : Nat) :
    List.iterate (· + (1 : α)) (s : α) n = (List.range' s n).map Nat.cast := by
  induction n generalizing s with
  | zero => rfl
  | succ n ih =>
      have hnext : (s : α) + 1 = ((s + 1 : Nat) : α) := (Nat.cast_succ s).symm
      rw [List.iterate, hnext, ih (s + 1), List.range'_succ, List.map_cons]

namespace Control

theorem loopRun_iff {bound : α} {s : Nat} {values : List α} :
    control.LoopRun bound (s : α) values ↔
      ∃ n, (∀ i < n, control.holds ((s + i : Nat) : α) bound = control.polarity) ∧
        control.holds ((s + n : Nat) : α) bound ≠ control.polarity ∧
        values = (List.range' s n).map Nat.cast := by
  simp only [LoopRun, topRun_iff, iterate_add_one, iterate_eq_range', ne_eq]

theorem LoopRun.unique {bound start : α} {values values' : List α}
    (h : control.LoopRun bound start values) (h' : control.LoopRun bound start values') :
    values' = values :=
  TopRun.unique h h'

theorem TileRun.unique {start : α} {values values' : List α}
    (h : control.TileRun tileSize start values) (h' : control.TileRun tileSize start values') :
    values' = values :=
  BottomRun.unique h (fun _ _ _ => LoopRun.unique) h'

/-- The run whose tiles have the given numbers of iterations. -/
theorem tileRun_of_counts {k : Nat} (count : Nat → Nat)
    (hgo : ∀ i < k, control.holds (((i + 1) * tileSize : Nat) : α) control.bound = true)
    (hstop : control.holds (((k + 1) * tileSize : Nat) : α) control.bound = false)
    (hpoint : ∀ i ≤ k, control.LoopRun (control.clamp tileSize ((i * tileSize : Nat) : α))
      ((i * tileSize : Nat) : α) ((List.range' (i * tileSize) (count i)).map Nat.cast)) :
    control.TileRun tileSize 0 ((List.range (k + 1)).flatMap fun i =>
      (List.range' (i * tileSize) (count i)).map Nat.cast) := by
  apply bottomRun_blocks
  · intro i hi
    rw [iterate_add_tileSize]
    exact hpoint i hi
  · intro i hi
    rw [iterate_add_tileSize]
    exact hgo i hi
  · rw [iterate_add_tileSize, hstop]
    exact Bool.false_ne_true

/-- In front of a further tile the bound is the end of the tile. -/
theorem clamp_of_go {i : Nat}
    (hgo : control.holds (((i + 1) * tileSize : Nat) : α) control.bound = true) :
    control.clamp tileSize ((i * tileSize : Nat) : α) = (((i + 1) * tileSize : Nat) : α) := by
  have hnext : ((i * tileSize : Nat) : α) + tileSize = (((i + 1) * tileSize : Nat) : α) := by
    rw [Nat.succ_mul, Nat.cast_add]
  rw [clamp, hnext, if_pos hgo]

/-- The last tile has the bound of the loop. -/
theorem clamp_of_stop {i : Nat}
    (hstop : control.holds (((i + 1) * tileSize : Nat) : α) control.bound = false) :
    control.clamp tileSize ((i * tileSize : Nat) : α) = control.bound := by
  have hnext : ((i * tileSize : Nat) : α) + tileSize = (((i + 1) * tileSize : Nat) : α) := by
    rw [Nat.succ_mul, Nat.cast_add]
  rw [clamp, hnext, hstop, if_neg Bool.false_ne_true]

theorem flatMap_tiles (k tileSize : Nat) :
    ((List.range k).flatMap fun i => List.range' (i * tileSize) tileSize) =
      List.range' 0 (k * tileSize) := by
  induction k with
  | zero => simp
  | succ k ih =>
      rw [List.range_succ, List.flatMap_append, ih, Nat.succ_mul, ← List.range'_append_1]
      simp

/-- Full tiles and a last one cover the numbers in front of the end. -/
theorem flatMap_tiles_last (k tileSize rest : Nat) :
    ((List.range (k + 1)).flatMap fun i =>
      List.range' (i * tileSize) (if i < k then tileSize else rest)) =
      List.range (k * tileSize + rest) := by
  have hfront : ((List.range k).flatMap fun i =>
      List.range' (i * tileSize) (if i < k then tileSize else rest)) =
      List.range' 0 (k * tileSize) := by
    rw [← flatMap_tiles]
    apply List.flatMap_congr
    intro i hi
    rw [if_pos (List.mem_range.mp hi)]
  have hsplit := @List.range'_append_1 0 (k * tileSize) rest
  rw [Nat.zero_add] at hsplit
  rw [List.range_succ, List.flatMap_append, hfront, List.flatMap_singleton, if_neg (lt_irrefl k),
    hsplit, List.range_eq_range']

/-- Full tiles and a last one run over the first `n` numbers. -/
theorem tileRun_range {n k : Nat} (hk : k * tileSize ≤ n)
    (hgo : ∀ i < k, control.holds (((i + 1) * tileSize : Nat) : α) control.bound = true)
    (hstop : control.holds (((k + 1) * tileSize : Nat) : α) control.bound = false)
    (hfull : ∀ i < k, ∀ x, i * tileSize ≤ x → x < (i + 1) * tileSize →
      control.holds (x : α) (((i + 1) * tileSize : Nat) : α) = control.polarity)
    (hend : ∀ i < k, control.holds (((i + 1) * tileSize : Nat) : α)
      (((i + 1) * tileSize : Nat) : α) ≠ control.polarity)
    (hlast : ∀ x, k * tileSize ≤ x → x < n → control.holds (x : α) control.bound = control.polarity)
    (hleave : control.holds (n : α) control.bound ≠ control.polarity) :
    control.TileRun tileSize 0 ((List.range n).map Nat.cast) := by
  have hrun := @tileRun_of_counts α _ control tileSize k
    (fun i => if i < k then tileSize else n - k * tileSize) hgo hstop ?_
  · rwa [← List.map_flatMap, flatMap_tiles_last, Nat.add_sub_cancel' hk] at hrun
  · intro i hi
    rw [loopRun_iff]
    rcases Nat.lt_or_eq_of_le hi with hi | rfl
    · rw [clamp_of_go (hgo i hi), if_pos hi]
      refine ⟨tileSize, ?_, ?_, rfl⟩
      · intro j hj
        apply hfull i hi _ (Nat.le_add_right _ _)
        rw [Nat.succ_mul]
        exact Nat.add_lt_add_left hj _
      · rw [← Nat.succ_mul]
        exact hend i hi
    · rw [clamp_of_stop hstop, if_neg (lt_irrefl i)]
      refine ⟨n - i * tileSize, ?_, ?_, rfl⟩
      · intro j hj
        exact hlast _ (Nat.le_add_right _ _) (Nat.add_lt_of_lt_sub' hj)
      · rw [Nat.add_sub_cancel' hk]
        exact hleave

/-- Tiles without iterations. -/
theorem tileRun_nil {k : Nat}
    (hgo : ∀ i < k, control.holds (((i + 1) * tileSize : Nat) : α) control.bound = true)
    (hstop : control.holds (((k + 1) * tileSize : Nat) : α) control.bound = false)
    (hempty : ∀ i < k, control.holds ((i * tileSize : Nat) : α)
      (((i + 1) * tileSize : Nat) : α) ≠ control.polarity)
    (hlast : control.holds ((k * tileSize : Nat) : α) control.bound ≠ control.polarity) :
    control.TileRun tileSize 0 [] := by
  have hrun := @tileRun_of_counts α _ control tileSize k (fun _ => 0) hgo hstop ?_
  · convert hrun using 1
    simp [List.flatMap_eq_nil_iff]
  · intro i hi
    rw [loopRun_iff]
    refine ⟨0, fun j hj => absurd hj (Nat.not_lt_zero j), ?_, rfl⟩
    rcases Nat.lt_or_eq_of_le hi with hi | rfl
    · rw [clamp_of_go (hgo i hi)]
      exact hempty i hi
    · rw [clamp_of_stop hstop]
      exact hlast

/-- A latch that always goes on never leaves the tile loop. -/
theorem not_tileRun {values : List α}
    (h : ∀ i, control.holds (((i + 1) * tileSize : Nat) : α) control.bound = true) :
    ¬ control.TileRun tileSize 0 values := by
  intro hrun
  obtain ⟨n, hn⟩ := hrun.leaves
  rw [iterate_add_tileSize] at hn
  exact hn (h n)

end Control

end Counting

section Meaning

variable {α : Type} [AddMonoidWithOne α] (holds : Predicate → α → α → Bool)
  (ivType : IRType) (tileSizeVal : Value) (loop : LoopDescriptor) (regs : Registers α)

/-- The latch goes on if the next value satisfies the predicate. -/
theorem exec_latchInsts {induction next header latch : Nat} (hbound : loop.boundValue ≠ next) :
    (execInsts holds (latchInsts ivType tileSizeVal loop induction next header latch)
      regs).condition
      (next + 1) = holds loop.predicate (regs.value induction + regs.value tileSizeVal)
        (regs.value loop.boundValue) := by
  simp [execInsts, latchInsts, Inst.exec, Function.update_of_ne hbound]

theorem exec_latchInsts_next {induction next header latch : Nat} :
    (execInsts holds (latchInsts ivType tileSizeVal loop induction next header latch) regs).value
      next = regs.value induction + regs.value tileSizeVal := by
  simp [execInsts, latchInsts, Inst.exec]

/-- The clamped bound is the end of the tile where that satisfies the predicate. -/
theorem exec_clampInsts {induction endBound : Value} (hbound : loop.boundValue < endBound)
    {tileSize : Nat} (htile : regs.value tileSizeVal = tileSize) (polarity : Bool) :
    (execInsts holds (clampInsts ivType tileSizeVal loop induction endBound) regs).value
      (endBound + 2) = Control.clamp ⟨holds loop.predicate, polarity, regs.value loop.boundValue⟩
        tileSize (regs.value induction) := by
  simp [execInsts, clampInsts, Inst.exec, Function.update_of_ne (Nat.ne_of_lt hbound), htile,
    Control.clamp]

end Meaning

section Emission

open Editor

variable {editor : Editor} (ivType : IRType) (tileSizeVal : Value) (currentPreheader : BlockId)
  (loop : LoopDescriptor)

/-- The latch of a tile loop ends in these instructions. -/
theorem insts_latch_fillTileLoop {header latch : BlockId}
    (hlatch : latch ∈ editor.function.blocks.map Prod.fst) (hne : latch ≠ header)
    (hfresh : ∀ inst ∈ editor.function.insts latch, inst.value < editor.nextValue) :
    (editor.fillTileLoop ivType tileSizeVal currentPreheader header latch loop).2.function.insts
      latch = editor.function.insts latch ++ latchInsts ivType tileSizeVal loop editor.nextValue
        (editor.nextValue + 1) header latch := by
  have hold : ∀ inst ∈ editor.function.insts latch, inst.value ≠ editor.nextValue :=
    fun inst hinst => Nat.ne_of_lt (hfresh inst hinst)
  simp only [Editor.fillTileLoop]
  rw [insts_append_of_mem, insts_append_of_mem, insts_updateInst_of_fresh, insts_append_of_mem,
    insts_updateInst_of_fresh, insts_append_of_ne hne]
  · simp [latchInsts, Editor.append, Editor.updateInst, Editor.updateBlock, Editor.createValue]
  · rwa [insts_append_of_ne hne]
  · rwa [ids_updateInst, ids_append]
  · intro inst hinst
    rw [insts_append_of_mem, insts_updateInst_of_fresh, insts_append_of_ne hne] at hinst
    · rcases List.mem_append.mp hinst with hinst | hinst
      · exact hold inst hinst
      · obtain rfl := List.mem_singleton.mp hinst
        exact Nat.succ_ne_self editor.nextValue
    · rwa [insts_append_of_ne hne]
    · rwa [ids_updateInst, ids_append]
  · rwa [ids_updateInst, ids_append, ids_updateInst, ids_append]
  · rwa [ids_append, ids_updateInst, ids_append, ids_updateInst, ids_append]

theorem insts_insertBeforeLast {block : BlockId} {front : List Inst} {last : Inst}
    (hblock : block ∈ editor.function.blocks.map Prod.fst)
    (hinsts : editor.function.insts block = front ++ [last]) (name : String) (type : IRType)
    (kind : InstKind) : (editor.insertBeforeLast block name type kind).2.function.insts block =
      front ++ [⟨editor.nextValue, type, kind⟩] ++ [last] := by
  have hinsert := @insts_updateBlock_of_mem (editor.createValue name).2 block
    (fun insts => insts.dropLast ++ ⟨editor.nextValue, type, kind⟩ :: insts.getLast?.toList) hblock
  have hsame : (editor.createValue name).2.function.insts block = front ++ [last] := hinsts
  rw [hsame] at hinsert
  refine Eq.trans hinsert ?_
  simp

theorem ids_insertBeforeLast (block : BlockId) (name : String) (type : IRType) (kind : InstKind) :
    (editor.insertBeforeLast block name type kind).2.function.blocks.map Prod.fst =
      editor.function.blocks.map Prod.fst :=
  @ids_updateBlock (editor.createValue name).2 block _

/-- New incoming values leave the branches alone. -/
theorem keepsBranches_setIncomingWhere (phi value : Value) (test : BlockId → Bool) :
    Function.KeepsBranches fun _ inst =>
      if inst.value = phi then inst.kind.setIncomingWhere test value else inst.kind where
  isTerminator _ inst := by
    split
    · cases inst.kind <;> rfl
    · rfl
  successors _ inst := by
    split
    · cases inst.kind <;> rfl
    · rfl

/-- The preheader of a point loop ends in the instructions of the clamp. -/
theorem insts_clampPointLoop {tile : TileLoop} {editor' : Editor}
    (hcompare : loop.compare < editor.nextValue)
    (h : editor.clampPointLoop ivType tileSizeVal loop tile = .ok editor') :
    ∃ preheader front last, loop.loopNode.loopPreheader editor.function = some preheader ∧
      editor'.function.insts preheader =
        front ++ clampInsts ivType tileSizeVal loop tile.induction editor.nextValue ++ [last] := by
  simp only [Editor.clampPointLoop] at h
  split at h
  · exact absurd h (by simp)
  · rename_i preheader hpreheader
    obtain rfl := Except.ok.inj h
    obtain ⟨terminator, hterminator, _⟩ := terminator_of_loopPreheader hpreheader
    let started := editor.updateInst loop.induction
      (InstKind.setIncomingWhere (fun block => !loop.loopNode.contains block) tile.induction)
    have hlast := (Option.filter_eq_some_iff.mp hterminator).1
    obtain ⟨front, hfront⟩ := List.getLast?_eq_some_iff.mp hlast
    have hblock : preheader ∈ started.function.blocks.map Prod.fst := by
      by_contra hnot
      have hnone : started.function.blocks.lookup preheader = none := by
        rw [List.lookup_eq_none_iff]
        intro entry hentry
        have hne : preheader ≠ entry.1 := fun heq => hnot (heq ▸ List.mem_map_of_mem hentry)
        simpa using hne
      have hinsts : started.function.insts preheader = front ++ [terminator] := hfront
      simp [Function.insts, hnone] at hinsts
    let name := "clamp." ++ loop.inductionName
    let inserted := started.insertBeforeLast preheader (name ++ ".end") ivType
      (.add tile.induction tileSizeVal)
    let compared := inserted.2.insertBeforeLast preheader (name ++ ".cmp") (.int 1)
      (.icmp loop.predicate inserted.1 loop.boundValue)
    have hfirst := insts_insertBeforeLast hblock hfront (name ++ ".end") ivType
      (.add tile.induction tileSizeVal)
    have hblock' : preheader ∈ inserted.2.function.blocks.map Prod.fst := by
      rwa [ids_insertBeforeLast]
    have hsecond := insts_insertBeforeLast hblock' hfirst (name ++ ".cmp") (.int 1)
      (.icmp loop.predicate inserted.1 loop.boundValue)
    have hblock'' : preheader ∈ compared.2.function.blocks.map Prod.fst := by
      rwa [ids_insertBeforeLast]
    have hthird := insts_insertBeforeLast hblock'' hsecond (name ++ ".min") ivType
      (.select compared.1 inserted.1 loop.boundValue)
    have hne : ∀ n, editor.nextValue + n ≠ loop.compare :=
      fun n => Nat.ne_of_gt (Nat.lt_of_lt_of_le hcompare (Nat.le_add_right _ n))
    let bound := fun inst : Inst => if inst.value = loop.compare then
      { inst with kind := inst.kind.setBound compared.2.nextValue } else inst
    have hkeeps : loop.loopNode.loopPreheader editor.function = some preheader := by
      have hstarted : loop.loopNode.loopPreheader (editor.function.updateInst loop.induction
          (InstKind.setIncomingWhere (fun block => !loop.loopNode.contains block)
            tile.induction)) = some preheader := hpreheader
      rwa [Function.updateInst_eq_mapInsts,
        (keepsBranches_setIncomingWhere _ _ _).loopPreheader_eq] at hstarted
    refine ⟨preheader, front.map bound, bound terminator, hkeeps, ?_⟩
    have hmap := @insts_updateInst preheader (compared.2.insertBeforeLast preheader
      (name ++ ".min") ivType (.select compared.1 inserted.1 loop.boundValue)).2 loop.compare
      (InstKind.setBound compared.2.nextValue)
    rw [hthird] at hmap
    refine hmap.trans ?_
    have hkept : ∀ n type kind, bound ⟨editor.nextValue + n, type, kind⟩ =
        ⟨editor.nextValue + n, type, kind⟩ := fun n type kind => if_neg (hne n)
    simp only [List.map_append, List.map_cons, List.map_nil, List.append_assoc]
    congr 1
    exact congrArg₂ List.cons (hkept 0 _ _) (congrArg₂ List.cons (hkept 1 _ _)
      (congrArg₂ List.cons (hkept 2 _ _) rfl))

/-- The comparison of the point loop is one with the clamped bound. -/
theorem bound_clampPointLoop {tile : TileLoop} {editor' : Editor}
    (h : editor.clampPointLoop ivType tileSizeVal loop tile = .ok editor')
    {block : BlockId} {inst : Inst} (hinst : inst ∈ editor'.function.insts block)
    (hvalue : inst.value = loop.compare) {predicate : Predicate} {lhs rhs : Value}
    (hkind : inst.kind = .icmp predicate lhs rhs) : rhs = editor.nextValue + 2 := by
  simp only [Editor.clampPointLoop] at h
  split at h
  · exact absurd h (by simp)
  · obtain rfl := Except.ok.inj h
    rw [insts_updateInst] at hinst
    obtain ⟨old, _, rfl⟩ := List.mem_map.mp hinst
    by_cases heq : old.value = loop.compare
    · rw [if_pos heq] at hkind
      cases hold : old.kind with
      | icmp pred lhs' rhs' =>
          rw [hold] at hkind
          exact (InstKind.icmp.inj hkind).2.2.symm
      | _ =>
          rw [hold] at hkind
          exact absurd hkind (by simp [InstKind.setBound])
    · rw [if_neg heq] at hvalue
      exact absurd hvalue heq

/-- The latch of a new tile loop is a block of its own. -/
theorem createTileLoop_latch {originalHeader : BlockId} {tile : TileLoop} {tiled : Editor}
    (h : editor.createTileLoop ivType tileSizeVal originalHeader currentPreheader loop =
      .ok (tile, tiled)) :
    tile = ⟨editor.nextBlock, editor.nextBlock + 1, editor.nextValue, editor.nextValue + 1⟩ ∧
      tiled.nextValue = editor.nextValue + 4 ∧
      tiled.function.insts tile.latch = latchInsts ivType tileSizeVal loop tile.induction
        tile.nextValue tile.header tile.latch := by
  obtain ⟨redirected, hredirect, h⟩ := bind_eq_ok h
  let created := ((editor.createBlock originalHeader).2.createBlock originalHeader).2
  have hlatch : created.function.insts (editor.nextBlock + 1) = [] := by
    rw [insts_createBlock]
    exact if_pos rfl
  have hmem : editor.nextBlock + 1 ∈ created.function.blocks.map Prod.fst := by
    simp [created, createBlock, Function.insertBlock]
  -- the branch of the preheader is another block's
  obtain ⟨hvalue, hids, hempty⟩ : redirected.nextValue = editor.nextValue ∧
      redirected.function.blocks.map Prod.fst = created.function.blocks.map Prod.fst ∧
      redirected.function.insts (editor.nextBlock + 1) = [] := by
    obtain ⟨terminator, _, hredirect⟩ := bind_eq_ok hredirect
    split at hredirect
    · exact absurd hredirect (by simp)
    · obtain rfl := Except.ok.inj hredirect
      refine ⟨rfl, ids_updateBlock _, ?_⟩
      by_cases heq : editor.nextBlock + 1 = currentPreheader
      · rw [← heq]
        rcases insts_updateBlock_self created _ with hinsts | hinsts
        · exact hinsts.trans (by rw [hlatch]; rfl)
        · exact hinsts.trans hlatch
      · exact (insts_updateBlock_of_ne created _ heq).trans hlatch
  obtain ⟨rfl, rfl⟩ := Prod.mk.inj (Except.ok.inj h)
  have hinsts := insts_latch_fillTileLoop ivType tileSizeVal currentPreheader loop
    (hids ▸ hmem : editor.nextBlock + 1 ∈ redirected.function.blocks.map Prod.fst)
    (Nat.succ_ne_self editor.nextBlock) (by simp [hempty])
  rw [hempty, List.nil_append, hvalue] at hinsts
  refine ⟨?_, ?_, ?_⟩
  · rw [← hvalue]
    rfl
  · rw [← hvalue]
    rfl
  · rw [← hvalue] at hinsts
    exact hinsts

end Emission

section Code

/-- The code of one dimension: the instructions of the latch of the tile loop and those in
front of the point loop, and the values in them that steer the two loops. -/
structure TileCode where
  latch : List Inst
  clamp : List Inst
  induction : Value
  next : Value
  test : Value
  bound : Value

namespace TileCode

variable {α : Type} [AddMonoidWithOne α] (code : TileCode) (holds : Predicate → α → α → Bool)
  (predicate : Predicate) (polarity : Bool) (regs : Registers α)

/-- The registers in the iteration of the tile loop with the given value. -/
def enter (iv : α) : Registers α :=
  { regs with value := Function.update regs.value code.induction iv }

/-- The values of a run of the point loop against the bound the code computes for it. -/
def PointRun (iv : α) (values : List α) : Prop :=
  TopRun (fun i => holds predicate i
    ((execInsts holds code.clamp (code.enter regs iv)).value code.bound) = polarity) (· + 1) iv
    values

/-- A finite run of the tile loop: in each iteration the point loop, then the latch. -/
inductive Run : α → List α → Prop
  | leave {iv : α} {values : List α}
      (hpoint : code.PointRun holds predicate polarity regs iv values)
      (htest : (execInsts holds code.latch (code.enter regs iv)).condition code.test = false) :
      Run iv values
  | again {iv : α} {values rest : List α}
      (hpoint : code.PointRun holds predicate polarity regs iv values)
      (htest : (execInsts holds code.latch (code.enter regs iv)).condition code.test = true)
      (hrest : Run ((execInsts holds code.latch (code.enter regs iv)).value code.next) rest) :
      Run iv (values ++ rest)

variable {code holds predicate polarity regs} {control : Control α} {tileSize : Nat}

/-- Code that computes the next value, the test and the bound of a tile loop runs as it does. -/
theorem run_iff_tileRun
    (hpoint : ∀ iv values, code.PointRun holds predicate polarity regs iv values ↔
      control.LoopRun (control.clamp tileSize iv) iv values)
    (hnext : ∀ iv, (execInsts holds code.latch (code.enter regs iv)).value code.next =
      iv + tileSize)
    (htest : ∀ iv, (execInsts holds code.latch (code.enter regs iv)).condition code.test =
      control.holds (iv + tileSize) control.bound) {start : α} {values : List α} :
    code.Run holds predicate polarity regs start values ↔
      control.TileRun tileSize start values := by
  constructor
  · intro h
    induction h with
    | leave hrun hleave =>
        refine .stop ((hpoint _ _).mp hrun) ?_
        rw [← htest, hleave]
        exact Bool.false_ne_true
    | again hrun hagain _ ih =>
        rw [hnext] at ih
        refine .go ((hpoint _ _).mp hrun) ?_ ih
        rw [← htest, hagain]
  · intro h
    induction h with
    | stop hrun hleave =>
        refine .leave ((hpoint _ _).mpr hrun) ?_
        rw [htest]
        exact Bool.eq_false_of_not_eq_true hleave
    | go hrun hagain _ ih =>
        refine .again ((hpoint _ _).mpr hrun) ((htest _).trans hagain) ?_
        rwa [hnext]

/-- The code that tiling makes of a loop, the values of the latch and those of the clamp from
two numbers on. -/
def emitted (ivType : IRType) (tileSizeVal : Value) (loop : LoopDescriptor) (header latch : BlockId)
    (induction endBound : Value) : TileCode where
  latch := latchInsts ivType tileSizeVal loop induction (induction + 1) header latch
  clamp := clampInsts ivType tileSizeVal loop induction endBound
  induction := induction
  next := induction + 1
  test := induction + 2
  bound := endBound + 2

/-- It reads nothing but the bound and the tile size from outside the loop. -/
theorem run_emitted_iff (ivType : IRType) {tileSizeVal : Value} {loop : LoopDescriptor}
    {header latch : BlockId} {induction endBound : Value} (hbound : loop.boundValue < induction)
    (hend : loop.boundValue < endBound) (hsize : tileSizeVal < induction)
    (htile : regs.value tileSizeVal = tileSize) {start : α} {values : List α} :
    (emitted ivType tileSizeVal loop header latch induction endBound).Run holds loop.predicate
      polarity regs start values ↔
      Control.TileRun ⟨holds loop.predicate, polarity, regs.value loop.boundValue⟩ tileSize start
        values := by
  let code := emitted ivType tileSizeVal loop header latch induction endBound
  have henter : ∀ iv value, value < induction →
      (code.enter regs iv).value value = regs.value value := fun iv value hlt => by
    change Function.update regs.value induction iv value = regs.value value
    exact Function.update_of_ne (Nat.ne_of_lt hlt) iv regs.value
  have hinduction : ∀ iv, (code.enter regs iv).value induction = iv := fun iv => by
    change Function.update regs.value induction iv induction = iv
    exact Function.update_self induction iv regs.value
  have hsum : ∀ iv, (code.enter regs iv).value induction +
      (code.enter regs iv).value tileSizeVal = iv + tileSize := fun iv => by
    rw [hinduction, henter iv _ hsize, htile]
  refine run_iff_tileRun ?_ ?_ ?_
  · intro iv values
    have hclamped : (execInsts holds code.clamp (code.enter regs iv)).value code.bound = _ :=
      exec_clampInsts holds ivType tileSizeVal loop (code.enter regs iv) hend
        ((henter iv _ hsize).trans htile) polarity
    rw [hinduction, henter iv _ hbound] at hclamped
    rw [PointRun, hclamped]
    rfl
  · intro iv
    exact (exec_latchInsts_next holds ivType tileSizeVal loop (code.enter regs iv)).trans (hsum iv)
  · intro iv
    have hnext : loop.boundValue ≠ induction + 1 := Nat.ne_of_lt (Nat.lt_succ_of_lt hbound)
    refine (exec_latchInsts holds ivType tileSizeVal loop (code.enter regs iv) hnext).trans ?_
    rw [hsum, henter iv _ hbound]

/-- Where the code stands: the whole latch of the new loop, its branch included; the end of the
preheader of the point loop; and the comparison of the point loop, which has the clamped bound. -/
structure EmittedBy (code : TileCode) (loop : LoopDescriptor) (tile : TileLoop)
    (tiled edited clamped : Editor) : Prop where
  induction : code.induction = tile.induction
  next : code.next = tile.nextValue
  latch : tiled.function.insts tile.latch = code.latch
  branch : ∃ value, code.latch.getLast? =
    some ⟨value, .void, .condBr code.test tile.header tile.latch⟩
  clamp : ∃ preheader front last, loop.loopNode.loopPreheader edited.function = some preheader ∧
    clamped.function.insts preheader = front ++ code.clamp ++ [last]
  bound : ∀ block, ∀ inst ∈ clamped.function.insts block, inst.value = loop.compare →
    ∀ predicate lhs rhs, inst.kind = .icmp predicate lhs rhs → rhs = code.bound

end TileCode

variable {α : Type} [AddMonoidWithOne α]

/-- What the tiling of one dimension emits runs the tile loop of its predicate, whatever the
arithmetic. -/
theorem exists_tileCode (holds : Predicate → α → α → Bool) (ivType : IRType) (tileSizeVal : Value)
    (originalHeader currentPreheader : BlockId) (loop : LoopDescriptor) (tile : TileLoop)
    (editor tiled edited clamped : Editor)
    (hcreate : editor.createTileLoop ivType tileSizeVal originalHeader currentPreheader loop =
      .ok (tile, tiled))
    (hlater : tiled.nextValue ≤ edited.nextValue)
    (hclamp : edited.clampPointLoop ivType tileSizeVal loop tile = .ok clamped)
    (hbound : loop.boundValue < editor.nextValue) (hcompare : loop.compare < editor.nextValue)
    (hsize : tileSizeVal < editor.nextValue) :
    ∃ code : TileCode, code.EmittedBy loop tile tiled edited clamped ∧
      ∀ (polarity : Bool) (regs : Registers α) (tileSize : Nat), regs.value tileSizeVal = tileSize →
        ∀ start values, code.Run holds loop.predicate polarity regs start values ↔
          Control.TileRun ⟨holds loop.predicate, polarity, regs.value loop.boundValue⟩ tileSize
            start values := by
  obtain ⟨rfl, hnextValue, hlatch⟩ :=
    createTileLoop_latch ivType tileSizeVal currentPreheader loop hcreate
  have hle : editor.nextValue ≤ edited.nextValue :=
    Nat.le_trans (Nat.le_add_right _ 4) (hnextValue ▸ hlater)
  obtain ⟨preheader, front, last, hpreheader, hinsts⟩ :=
    insts_clampPointLoop ivType tileSizeVal loop (Nat.lt_of_lt_of_le hcompare hle) hclamp
  refine ⟨.emitted ivType tileSizeVal loop editor.nextBlock (editor.nextBlock + 1)
    editor.nextValue edited.nextValue, ⟨rfl, rfl, hlatch, ⟨_, rfl⟩,
      ⟨preheader, front, last, hpreheader, hinsts⟩, ?_⟩, ?_⟩
  · intro block inst hinst hvalue predicate lhs rhs hkind
    exact bound_clampPointLoop ivType tileSizeVal loop hclamp hinst hvalue hkind
  · intro polarity regs tileSize htile start values
    exact TileCode.run_emitted_iff ivType hbound (Nat.lt_of_lt_of_le hbound hle) hsize htile

/-- Around the inner loop of the example. -/
theorem exampleInner_tileCode : ∃ tiled clamped : Editor,
    (Editor.ofFunction (Payload.function {} .slt) 61).createTileLoop (.int 32) 60 1 0
      exampleInnerDescriptor = .ok (⟨7, 8, 61, 62⟩, tiled) ∧
    tiled.clampPointLoop (.int 32) 60 exampleInnerDescriptor ⟨7, 8, 61, 62⟩ = .ok clamped ∧
    ∃ code : TileCode, code.EmittedBy exampleInnerDescriptor ⟨7, 8, 61, 62⟩ tiled tiled clamped ∧
      ∀ regs : Registers ℤ, regs.value 60 = (32 : ℕ) → ∀ values,
        code.Run (fun _ a b => decide (a < b)) .slt true regs 0 values ↔
          Control.TileRun ⟨fun a b => decide (a < b), true, regs.value 10⟩ 32 0 values := by
  obtain ⟨tiled, clamped, hcreate, hclamp⟩ : ∃ tiled clamped : Editor,
      (Editor.ofFunction (Payload.function {} .slt) 61).createTileLoop (.int 32) 60 1 0
        exampleInnerDescriptor = .ok (⟨7, 8, 61, 62⟩, tiled) ∧
      tiled.clampPointLoop (.int 32) 60 exampleInnerDescriptor ⟨7, 8, 61, 62⟩ = .ok clamped :=
    ⟨_, _, rfl, rfl⟩
  obtain ⟨code, hemitted, hruns⟩ :=
    exists_tileCode (fun _ (a b : ℤ) => decide (a < b)) (.int 32) 60 1 0 exampleInnerDescriptor
      ⟨7, 8, 61, 62⟩ (Editor.ofFunction (Payload.function {} .slt) 61) tiled tiled clamped hcreate
      le_rfl hclamp (by decide) (by decide) (by decide)
  exact ⟨tiled, clamped, hcreate, hclamp, code, hemitted, fun regs htile values =>
    hruns true regs 32 htile 0 values⟩

end Code

end PolyhedralPass
