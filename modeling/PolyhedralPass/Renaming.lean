/-
Which uses of two interchanged loops are renamed, and what they see.  Behind an interchange
the PHI node of each loop counts the iterations of the other one, so inside both loops a use
sees the index it saw before where it has been renamed; one that keeps its operand, and one
outside of the loops, sees what the counter happens to hold there.
-/
import PolyhedralPass.Counters

namespace PolyhedralPass

open Relation

def Place.block : Place → BlockId
  | before block _ => block
  | endOf block => block

/-- The operand `k` of the instruction at an index of a block. -/
def Function.UseAt (F : Function) (block : BlockId) (index k : Nat) (user : Inst) (value : Value)
    (place : Place) : Prop :=
  (F.insts block)[index]? = some user ∧ (user.kind.slots block index)[k]? = some (value, place)

theorem Function.UseAt.mem {F : Function} {block : BlockId} {index k : Nat} {user : Inst}
    {value : Value} {place : Place} (h : F.UseAt block index k user value place) :
    block ∈ F.blocks.map Prod.fst ∧ (user, index) ∈ (F.insts block).zipIdx ∧
      (value, place) ∈ user.kind.slots block index :=
  ⟨Function.block_of_mem_insts (List.mem_of_getElem? h.1), List.mem_zipIdx_iff_getElem?.mpr h.1,
    List.mem_of_getElem? h.2⟩

section Uses

variable (F F' : Function) (outer inner : LoopDescriptor) {w : Nat}

/-- The header recurrences, increments and comparisons of the two loops. -/
def LoopDescriptor.controls (outer inner : LoopDescriptor) : List Value :=
  [outer.induction, outer.nextValue, outer.compare, inner.induction, inner.nextValue, inner.compare]

/-- The induction variables and increments of the two loops. -/
def LoopDescriptor.counters (outer inner : LoopDescriptor) : List Value :=
  [outer.induction, inner.induction, outer.nextValue, inner.nextValue]

/-- A use in an iteration of both loops; a PHI node stands in it with its edge. -/
def InBoth (block : BlockId) (place : Place) : Prop :=
  ∀ loop ∈ [outer, inner], loop.loopNode.contains place.block = true ∧
    loop.loopNode.contains block = true

instance (block : BlockId) (place : Place) : Decidable (InBoth outer inner block place) :=
  inferInstanceAs (Decidable (∀ loop ∈ [outer, inner], _))

/-- Every use of a counter outside the control of the two loops is still there, its operand is
defined where it is used, and it sees what it saw: in an iteration of both loops for the same
indices, where each loop counts for the other one, and elsewhere in every execution. -/
def UsesKept (bounds : Value → BitVec w → Prop) (entry : BlockId) : Prop :=
  ∀ block index k user value place, F.UseAt block index k user value place →
    user.value ∉ outer.controls inner → value ∈ outer.counters inner →
    ∃ user' value', F'.UseAt block index k user' value' place ∧ F'.Available entry value' place ∧
      ∀ counters counters', Executes F outer inner bounds entry block place counters →
        Executes F' outer inner bounds entry block place counters' →
        (InBoth outer inner block place → counters' = counters.exchanged) →
        F'.seen outer inner counters' value' = F.seen outer inner counters value

/-- The uses that keep their operand: PHI nodes in the header or the exit block of the loop
whose induction variable they use, and all uses of an increment. -/
def LeftAlone (block : BlockId) (user : Inst) (value : Value) : Prop :=
  (value = outer.induction ∧ outer.isControlInst F block user = true) ∨
    (value = inner.induction ∧ inner.isControlInst F block user = true) ∨
    value = outer.nextValue ∨ value = inner.nextValue

instance (block : BlockId) (user : Inst) (value : Value) :
    Decidable (LeftAlone F outer inner block user value) :=
  inferInstanceAs (Decidable (_ ∨ _ ∨ _ ∨ _))

/-- The bound that a loop is given for its own: an induction variable of the two that bounds
a loop becomes the one of the loop it bounds now. -/
def LoopDescriptor.boundFrom (outer inner loop other : LoopDescriptor) : Value :=
  if other.boundValue = outer.induction ∨ other.boundValue = inner.induction then loop.induction
  else other.boundValue

def exchangeBounds (_ : BlockId) (inst : Inst) : InstKind :=
  if inst.value = outer.compare then inst.kind.setBound (outer.boundFrom inner outer inner)
  else if inst.value = inner.compare then inst.kind.setBound (outer.boundFrom inner inner outer)
  else inst.kind

/-- The function with the bounds of the two loops exchanged, and nothing else. -/
def Function.withBoundsExchanged : Function := F.mapInsts (exchangeBounds outer inner)

/-- The counter of the loop that a value belongs to. -/
def Counters.own (counters : Counters w) (value : Value) : Option (BitVec w) :=
  if value = outer.induction ∨ value = outer.nextValue then counters.outer else counters.inner

/-- When the uses see what they saw, for a function before the interchange and its runs with
its own bounds and with exchanged ones. -/
structure RenamedWell (bounds : Value → BitVec w → Prop) (entry : BlockId) : Prop where
  available : ∀ block index k user value place, F.UseAt block index k user value place →
    user.value ∉ outer.controls inner → value ∈ outer.counters inner →
    ¬ LeftAlone F outer inner block user value →
    F.Available entry (swapUse F outer inner block user value) place
  inside : ∀ block index k user value place, F.UseAt block index k user value place →
    user.value ∉ outer.controls inner → LeftAlone F outer inner block user value →
    InBoth outer inner block place → ∀ i j, Executes F outer inner bounds entry block place ⟨i, j⟩ →
      Executes (F.withBoundsExchanged outer inner) outer inner bounds entry block place ⟨j, i⟩ →
      i = j
  outside : ∀ block index k user value place, F.UseAt block index k user value place →
    user.value ∉ outer.controls inner → value ∈ outer.counters inner →
    ¬ InBoth outer inner block place → ∀ counters counters',
      Executes F outer inner bounds entry block place counters →
      Executes (F.withBoundsExchanged outer inner) outer inner bounds entry block place counters' →
      (if LeftAlone F outer inner block user value then counters'
        else counters'.exchanged).own outer value = counters.own outer value

end Uses

section Values

variable {F : Function} {SE : ScalarEvolution} {outer inner : LoopDescriptor} {w : Nat}
  {preOuter preInner : BlockId}

theorem IsConst.ne_induction (hF : F.Distinct) {value : Value} {n : Nat}
    (hconst : IsConst F value n)
    {L : Loop} {loop : LoopDescriptor} (h : Describes F SE L loop) : value ≠ loop.induction := by
  rintro rfl
  obtain ⟨c, hc, _⟩ := hconst
  obtain ⟨index, hdef⟩ := h.exists_induction
  exact hF.not_definedAt hc _ _ hdef

/-- Outside the control of the two loops an interchange only renames operands. -/
theorem controlKind_of_not_mem {user : Inst} (h : user.value ∉ outer.controls inner) :
    controlKind preOuter preInner outer inner user = user.kind := by
  simp only [LoopDescriptor.controls, List.mem_cons, List.not_mem_nil, or_false, not_or] at h
  obtain ⟨hphi, _, hcompare, hphi', _, hcompare'⟩ := h
  simp only [controlKind, if_neg hphi, if_neg hphi', if_neg hcompare, if_neg hcompare']

/-- The operands of an instruction behind an interchange are the renamed ones. -/
theorem useAt_swap {block : BlockId} {index k : Nat} {user : Inst} {value : Value} {place : Place}
    (h : F.UseAt block index k user value place) (huser : user.value ∉ outer.controls inner)
    {user' : Inst} {value' : Value} {place' : Place} :
    (F.mapInsts (swapKind F preOuter preInner outer inner)).UseAt block index k user' value'
        place' ↔
      user' = { user with kind := swapKind F preOuter preInner outer inner block user } ∧
        value' = swapUse F outer inner block user value ∧ place' = place := by
  have hinsts : ((F.mapInsts (swapKind F preOuter preInner outer inner)).insts block)[index]? =
      some { user with kind := swapKind F preOuter preInner outer inner block user } := by
    rw [Function.insts_mapInsts, List.getElem?_map, h.1, Option.map_some]
  have hslots : ((swapKind F preOuter preInner outer inner block user).slots block index)[k]? =
      some (swapUse F outer inner block user value, place) := by
    rw [swapKind, controlKind_of_not_mem huser, InstKind.slots_mapOperands, List.getElem?_map, h.2,
      Option.map_some]
  rw [Function.UseAt, hinsts, Option.some.injEq]
  constructor
  · rintro ⟨rfl, hslot⟩
    obtain ⟨heq, hplace⟩ := Prod.mk.inj (Option.some.inj (hslots.symm.trans hslot))
    exact ⟨rfl, heq.symm, hplace.symm⟩
  · rintro ⟨rfl, rfl, rfl⟩
    exact ⟨rfl, hslots⟩

theorem LeftAlone.mem_counters {block : BlockId} {user : Inst} {value : Value}
    (h : LeftAlone F outer inner block user value) : value ∈ outer.counters inner := by
  rcases h with ⟨rfl, _⟩ | ⟨rfl, _⟩ | rfl | rfl <;> simp [LoopDescriptor.counters]

end Values

section Runs

variable {F : Function} {SE : ScalarEvolution} {outer inner : LoopDescriptor} {w : Nat}
  {preOuter preInner : BlockId}

theorem Exchange.one_of_mem (h : Exchange F SE outer inner preOuter preInner)
    {loop : LoopDescriptor} (hloop : loop ∈ [outer, inner]) :
    ∃ other preheader, OneOf outer inner preOuter preInner loop other preheader := by
  rcases List.mem_pair.mp hloop with rfl | rfl
  · exact ⟨_, _, Or.inl ⟨rfl, rfl, rfl⟩⟩
  · exact ⟨_, _, Or.inr ⟨rfl, rfl, rfl⟩⟩

theorem Exchange.agrees_of_mem (h : Exchange F SE outer inner preOuter preInner)
    {loop : LoopDescriptor} (hloop : loop ∈ [outer, inner]) : Agrees F SE loop := by
  rcases List.mem_pair.mp hloop with rfl | rfl
  · exact h.outer_agrees
  · exact h.inner_agrees

theorem Exchange.next_ne (h : Exchange F SE outer inner preOuter preInner) :
    outer.nextValue ≠ inner.nextValue := by
  intro heq
  obtain ⟨_, _, _, _, _, _, _, _, _, _, _, houter, _⟩ := h.outer_agrees.edges
  obtain ⟨_, _, _, _, _, _, _, _, _, _, _, hinner, _⟩ := h.inner_agrees.edges
  rw [heq, hinner, Option.some.injEq, Inst.mk.injEq, InstKind.add.injEq] at houter
  exact h.induction_ne houter.2.2.1.symm

/-- What an induction variable of the two is seen as. -/
theorem Exchange.seen_induction (h : Exchange F SE outer inner preOuter preInner)
    {loop : LoopDescriptor} (hloop : loop ∈ [outer, inner]) (counters : Counters w) :
    F.seen outer inner counters loop.induction = counters.own outer loop.induction := by
  have hagrees := h.agrees_of_mem hloop
  have houter := h.outer_agrees.next_ne h.distinct hagrees
  have hinner := h.inner_agrees.next_ne h.distinct hagrees
  have hno : ¬ (loop.induction = outer.nextValue ∨ loop.induction = inner.nextValue) :=
    fun heq => heq.elim houter.symm hinner.symm
  rw [Function.seen, hagrees.constant_induction h.distinct]
  refine (if_neg hno).trans ?_
  rw [Counters.held, Counters.own]
  rcases List.mem_pair.mp hloop with rfl | rfl
  · rw [if_pos rfl, if_pos (Or.inl rfl)]
  · rw [if_neg h.induction_ne.symm, if_pos rfl,
      if_neg fun heq => heq.elim h.induction_ne.symm houter.symm]

/-- An increment is seen as one more. -/
theorem Exchange.seen_next (h : Exchange F SE outer inner preOuter preInner)
    (htyped : ∀ loop ∈ [outer, inner], loop.Typed F w) {loop : LoopDescriptor}
    (hloop : loop ∈ [outer, inner]) (counters : Counters w) :
    F.seen outer inner counters loop.nextValue =
      (counters.own outer loop.nextValue).map (· + 1) := by
  have hagrees := h.agrees_of_mem hloop
  obtain ⟨_, _, _, _, _, _, _, _, inst, type, rhs, hinst, c, hc, hbits⟩ := hagrees.edges
  have hone := ofWidth_of_beq ((htyped loop hloop).step _ _ _ _ hinst c hc) hbits
  have hown : loop.nextValue = outer.nextValue ∨ loop.nextValue = inner.nextValue :=
    (List.mem_pair.mp hloop).imp (congrArg _) (congrArg _)
  have hheld : counters.held outer inner loop.induction = counters.own outer loop.nextValue := by
    rw [Counters.held, Counters.own]
    rcases List.mem_pair.mp hloop with rfl | rfl
    · rw [if_pos rfl, if_pos (Or.inr rfl)]
    · rw [if_neg h.induction_ne.symm, if_pos rfl, if_neg fun heq =>
        heq.elim (h.inner_agrees.next_ne h.distinct h.outer_agrees) h.next_ne.symm]
  simp only [Function.seen, hagrees.constant_next h.distinct, if_pos hown, hinst, hc,
    Option.bind_some, hone, Option.map_some, hheld]
  cases counters.own outer loop.nextValue <;> rfl

theorem Counters.own_exchanged_induction (h : Exchange F SE outer inner preOuter preInner)
    (counters : Counters w) :
    counters.exchanged.own outer outer.induction = counters.own outer inner.induction ∧
      counters.exchanged.own outer inner.induction = counters.own outer outer.induction := by
  have hne := h.outer_agrees.next_ne h.distinct h.inner_agrees
  simp [Counters.own, Counters.exchanged, h.induction_ne.symm, hne.symm]

/-- An operand behind an interchange sees what it saw exactly where the counter of its loop
holds the same: the own one if it keeps its operand, and else the one of the other loop. -/
theorem Exchange.seen_swapUse_iff (h : Exchange F SE outer inner preOuter preInner)
    (htyped : ∀ loop ∈ [outer, inner], loop.Typed F w) {value : Value}
    (hvalue : value ∈ outer.counters inner) (block : BlockId) (user : Inst)
    (counters counters' : Counters w) :
    F.seen outer inner counters' (swapUse F outer inner block user value) =
        F.seen outer inner counters value ↔
      (if LeftAlone F outer inner block user value then counters' else counters'.exchanged).own
        outer value = counters.own outer value := by
  have hmem : ∀ {loop}, loop = outer ∨ loop = inner → loop ∈ [outer, inner] := List.mem_pair.mpr
  have hne := h.induction_ne
  have hnot : ∀ loop ∈ [outer, inner], loop.nextValue ≠ outer.induction ∧
      loop.nextValue ≠ inner.induction := fun loop hloop =>
    ⟨(h.agrees_of_mem hloop).next_ne h.distinct h.outer_agrees,
      (h.agrees_of_mem hloop).next_ne h.distinct h.inner_agrees⟩
  obtain ⟨houter, houter'⟩ := hnot outer (hmem (Or.inl rfl))
  obtain ⟨hinner, hinner'⟩ := hnot inner (hmem (Or.inr rfl))
  obtain ⟨hexchanged, hexchanged'⟩ := Counters.own_exchanged_induction h counters'
  have hnext : ∀ loop ∈ [outer, inner],
      F.seen outer inner counters' (swapUse F outer inner block user loop.nextValue) =
          F.seen outer inner counters loop.nextValue ↔
        counters'.own outer loop.nextValue = counters.own outer loop.nextValue := by
    intro loop hloop
    rw [swapUse_of_ne (hnot loop hloop).1 (hnot loop hloop).2, h.seen_next htyped hloop,
      h.seen_next htyped hloop]
    exact (Option.map_injective fun _ _ => (BitVec.add_left_inj 1).mp).eq_iff
  simp only [LoopDescriptor.counters, List.mem_cons, List.not_mem_nil, or_false] at hvalue
  rcases hvalue with rfl | rfl | rfl | rfl
  · have halone : LeftAlone F outer inner block user outer.induction ↔
        outer.isControlInst F block user = true := by
      simp [LeftAlone, hne, houter.symm, hinner.symm]
    rw [swapUse, if_pos rfl, h.seen_induction (hmem (Or.inl rfl)) counters]
    by_cases hcontrol : outer.isControlInst F block user = true
    · rw [if_pos hcontrol, if_pos (halone.mpr hcontrol), h.seen_induction (hmem (Or.inl rfl))]
    · rw [if_neg hcontrol, if_neg (mt halone.mp hcontrol), h.seen_induction (hmem (Or.inr rfl)),
        hexchanged]
  · have halone : LeftAlone F outer inner block user inner.induction ↔
        inner.isControlInst F block user = true := by
      simp [LeftAlone, hne.symm, houter'.symm, hinner'.symm]
    rw [swapUse, if_neg hne.symm, if_pos rfl, h.seen_induction (hmem (Or.inr rfl)) counters]
    by_cases hcontrol : inner.isControlInst F block user = true
    · rw [if_pos hcontrol, if_pos (halone.mpr hcontrol), h.seen_induction (hmem (Or.inr rfl))]
    · rw [if_neg hcontrol, if_neg (mt halone.mp hcontrol), h.seen_induction (hmem (Or.inl rfl)),
        hexchanged']
  · have halone : LeftAlone F outer inner block user outer.nextValue := Or.inr (Or.inr (Or.inl rfl))
    rw [if_pos halone]
    exact hnext outer (hmem (Or.inl rfl))
  · have halone : LeftAlone F outer inner block user inner.nextValue := Or.inr (Or.inr (Or.inr rfl))
    rw [if_pos halone]
    exact hnext inner (hmem (Or.inr rfl))

/-- The two increments stay as they are, so all uses see by the counters what they saw. -/
theorem Exchange.seen_swap (h : Exchange F SE outer inner preOuter preInner)
    (counters : Counters w) (value : Value) :
    (F.mapInsts (swapKind F preOuter preInner outer inner)).seen outer inner counters value =
      F.seen outer inner counters value := by
  have hnext : ∀ loop ∈ [outer, inner],
      (F.mapInsts (swapKind F preOuter preInner outer inner)).inst? loop.nextValue =
        F.inst? loop.nextValue := by
    intro loop hloop
    obtain ⟨_, _, _, _, _, _, _, _, inst, type, rhs, hinst, hone⟩ := (h.agrees_of_mem hloop).edges
    refine Eq.trans ?_ hinst.symm
    exact inst?_next_swap h.distinct h.induction_ne (List.mem_pair.mp hloop) hinst
      fun _ _ => h.swapUse_of_isConst hone _ _
  exact seen_congr F (F.mapInsts (swapKind F preOuter preInner outer inner)) rfl hnext counters
    value

/-- Besides the two comparisons the function with exchanged bounds has the same
instructions. -/
theorem inst?_withBoundsExchanged (hF : F.Distinct) {value : Value} {inst : Inst}
    (hinst : F.inst? value = some inst) :
    (F.withBoundsExchanged outer inner).inst? value =
      some { inst with kind := exchangeBounds outer inner 0 inst } := by
  obtain ⟨hmem, hvalue⟩ := (Function.inst?_eq_some hF.values_nodup).mp hinst
  obtain ⟨block, hblock⟩ := Function.exists_block_of_mem hF.blocks_nodup hmem
  exact (inst?_mapInsts_eq_some_iff hF).mpr ⟨block, inst, hblock, hvalue, rfl⟩

theorem keepsBranches_exchangeBounds : Function.KeepsBranches (exchangeBounds outer inner) where
  isTerminator block inst := by
    rw [exchangeBounds]
    split_ifs <;> simp
  successors block inst := by
    rw [exchangeBounds]
    split_ifs <;> simp

/-- Besides the two comparisons the function with exchanged bounds has the instructions of
the other one. -/
theorem exchangeBounds_of_not_icmp {inst : Inst}
    (h : ∀ predicate lhs rhs, inst.kind ≠ .icmp predicate lhs rhs) (block : BlockId) :
    exchangeBounds outer inner block inst = inst.kind := by
  have hset : ∀ bound, inst.kind.setBound bound = inst.kind := by
    intro bound
    cases hkind : inst.kind with
    | icmp predicate lhs rhs => exact absurd hkind (h predicate lhs rhs)
    | _ => rfl
  rw [exchangeBounds]
  split_ifs
  · exact hset _
  · exact hset _
  · rfl

theorem Exchange.seen_withBoundsExchanged (h : Exchange F SE outer inner preOuter preInner)
    (counters : Counters w) (value : Value) :
    (F.withBoundsExchanged outer inner).seen outer inner counters value =
      F.seen outer inner counters value := by
  have hnext : ∀ loop ∈ [outer, inner],
      (F.withBoundsExchanged outer inner).inst? loop.nextValue = F.inst? loop.nextValue := by
    intro loop hloop
    obtain ⟨_, _, _, _, _, _, _, _, inst, type, rhs, hinst, _⟩ := (h.agrees_of_mem hloop).edges
    rw [inst?_withBoundsExchanged h.distinct hinst, hinst,
      exchangeBounds_of_not_icmp (fun _ _ _ => InstKind.noConfusion)]
  exact seen_congr F (F.withBoundsExchanged outer inner) rfl hnext counters value

theorem Exchange.incoming_withBoundsExchanged (h : Exchange F SE outer inner preOuter preInner)
    {loop : LoopDescriptor} (hloop : loop ∈ [outer, inner]) (b : BlockId) :
    (F.withBoundsExchanged outer inner).incomingValueForBlock loop.induction b =
      F.incomingValueForBlock loop.induction b := by
  obtain ⟨inst, hinst, hphi⟩ := (h.agrees_of_mem hloop).inst?_induction h.distinct
  have hkept : exchangeBounds outer inner 0 inst = inst.kind := by
    refine exchangeBounds_of_not_icmp (fun predicate lhs rhs hkind => ?_) 0
    rw [hkind] at hphi
    exact absurd hphi (by simp [InstKind.isPhi])
  rw [Function.incomingValueForBlock, Function.incomingValueForBlock,
    inst?_withBoundsExchanged h.distinct hinst, hkept, hinst]

/-- Behind the interchange each counter still starts from zero and goes up by one. -/
theorem Exchange.follow_swap (h : Exchange F SE outer inner preOuter preInner)
    (htyped : ∀ loop ∈ [outer, inner], loop.Typed F w) {loop : LoopDescriptor}
    (hloop : loop ∈ [outer, inner]) (counters : Counters w) {b c : BlockId}
    (hedge : c ∈ F.successors b) :
    counters.follow (F.mapInsts (swapKind F preOuter preInner outer inner)) outer inner loop b c =
      counters.follow (F.withBoundsExchanged outer inner) outer inner loop b c := by
  rw [Counters.follow, Counters.follow]
  by_cases hheader : c = loop.loopNode.header
  · rw [if_pos hheader, if_pos hheader, h.incoming_withBoundsExchanged hloop]
    obtain ⟨other, preheader, hone⟩ := h.one_of_mem hloop
    obtain ⟨hagrees, hother, _⟩ := h.one_agrees hone
    obtain ⟨latch, hedges, _, hstart, hnext, _, _, _, hstart', hnext'⟩ := h.own_edges hone
    have hpred : b = preheader ∨ b = latch := by
      have hmem := Function.mem_predecessors.mpr (hheader ▸ hedge)
      rcases (predecessors_of_incomingAndBackEdge hedges).2 with hpreds | hpreds
      · simpa [hpreds] using hmem
      · simpa [hpreds, or_comm] using hmem
    have hotherMem : other ∈ [outer, inner] := by
      rcases hone with ⟨_, rfl, _⟩ | ⟨_, rfl, _⟩ <;> simp
    rcases hpred with rfl | rfl
    · rw [hstart, hstart', Option.bind_some, Option.bind_some, h.seen_swap,
        h.seen_withBoundsExchanged, hother.seen_start (htyped other hotherMem),
        hagrees.seen_start (htyped loop hloop)]
    · rw [hnext, hnext', Option.bind_some, Option.bind_some, h.seen_swap,
        h.seen_withBoundsExchanged]
  · rw [if_neg hheader, if_neg hheader]

/-- The comparison of a loop has the bound of the other one, in both functions. -/
theorem Exchange.inst?_compare_boundFrom (h : Exchange F SE outer inner preOuter preInner)
    {loop other : LoopDescriptor} {preheader : BlockId}
    (hone : OneOf outer inner preOuter preInner loop other preheader) : ∃ type,
    (F.mapInsts (swapKind F preOuter preInner outer inner)).inst? loop.compare =
        some ⟨loop.compare, type, .icmp loop.predicate loop.induction
          (outer.boundFrom inner loop other)⟩ ∧
      (F.withBoundsExchanged outer inner).inst? loop.compare =
        some ⟨loop.compare, type, .icmp loop.predicate loop.induction
          (outer.boundFrom inner loop other)⟩ := by
  obtain ⟨block, type, hcompare, hswap⟩ := h.inst?_compare_swap hone
  obtain ⟨hagrees, hother, _⟩ := h.one_agrees hone
  have hcompares := h.outer_agrees.compare_ne h.inner_agrees h.induction_ne
  have hnext : loop.compare ≠ other.nextValue := by
    intro heq
    obtain ⟨_, _, _, _, _, _, _, _, _, _, _, hinst, _⟩ := hother.edges
    rw [heq, hinst] at hcompare
    exact absurd hcompare (by simp)
  have hne : loop.compare ≠ other.compare := by
    rcases hone with ⟨rfl, rfl, _⟩ | ⟨rfl, rfl, _⟩
    · exact hcompares
    · exact hcompares.symm
  have hbound : swapUse F outer inner block ⟨loop.compare, type, .icmp loop.predicate
      loop.induction loop.boundValue⟩ other.boundValue = outer.boundFrom inner loop other := by
    have hown : loop.isControlInst F block ⟨loop.compare, type, .icmp loop.predicate loop.induction
        loop.boundValue⟩ = true := by
      simp [LoopDescriptor.isControlInst]
    have hforeign : other.isControlInst F block ⟨loop.compare, type, .icmp loop.predicate
        loop.induction loop.boundValue⟩ = false := by
      simp [LoopDescriptor.isControlInst, InstKind.isPhi, hnext, hne]
    rw [swapUse, LoopDescriptor.boundFrom]
    rcases hone with ⟨rfl, rfl, rfl⟩ | ⟨rfl, rfl, rfl⟩
    · simp only [hown, hforeign, if_true, Bool.false_eq_true, if_false]
      split_ifs <;> simp_all
    · simp only [hown, hforeign, if_true, Bool.false_eq_true, if_false]
      split_ifs <;> simp_all
  refine ⟨type, hbound ▸ hswap, ?_⟩
  rw [inst?_withBoundsExchanged h.distinct hcompare]
  rcases hone with ⟨rfl, rfl, rfl⟩ | ⟨rfl, rfl, rfl⟩
  · rw [exchangeBounds, if_pos rfl]
    rfl
  · rw [exchangeBounds, if_neg hcompares.symm, if_pos rfl]
    rfl

/-- What the analysis finds of two loops of a nest. -/
structure CountedPair (F : Function) (SE : ScalarEvolution) (outer inner : LoopDescriptor)
    (preOuter preInner : BlockId) (w : Nat) : Prop
    extends Exchange F SE outer inner preOuter preInner where
  typed : ∀ loop ∈ [outer, inner], loop.Typed F w
  branch : ∀ loop ∈ [outer, inner], ∀ b, loop.loopNode.exitingBlock F = some b →
    ∃ value type ifTrue ifFalse,
      F.terminator? b = some ⟨value, type, .condBr loop.compare ifTrue ifFalse⟩

/-- The exiting branches of the two loops make the same tests behind the interchange and with
exchanged bounds. -/
theorem CountedPair.tests_swap_iff (h : CountedPair F SE outer inner preOuter preInner w)
    {loop : LoopDescriptor} (hloop : loop ∈ [outer, inner]) {b : BlockId}
    (hexiting : loop.loopNode.exitingBlock F = some b) (bounds : Value → BitVec w → Prop)
    (counters : Counters w) (c : BlockId) :
    (F.mapInsts (swapKind F preOuter preInner outer inner)).Tests outer inner bounds counters b c ↔
      (F.withBoundsExchanged outer inner).Tests outer inner bounds counters b c := by
  obtain ⟨other, preheader, hone⟩ := h.toExchange.one_of_mem hloop
  obtain ⟨type, hswap, hexchanged⟩ := h.toExchange.inst?_compare_boundFrom hone
  obtain ⟨value, type', ifTrue, ifFalse, hterminator⟩ := h.branch loop hloop b hexiting
  have hcondition : ∀ block user, swapUse F outer inner block user loop.compare = loop.compare :=
    fun block user => h.toExchange.swapUse_of_not_phi (h.agrees_of_mem hloop).compare_not_phi _ _
  have hterminator' : (F.mapInsts (swapKind F preOuter preInner outer inner)).terminator? b =
      some ⟨value, type', .condBr loop.compare ifTrue ifFalse⟩ := by
    rw [keepsBranches_swapKind.terminator, hterminator, Option.map_some, swapKind,
      controlKind_condBr preOuter preInner outer inner rfl, InstKind.mapOperands, hcondition]
  have hterminator'' : (F.withBoundsExchanged outer inner).terminator? b =
      some ⟨value, type', .condBr loop.compare ifTrue ifFalse⟩ := by
    rw [Function.withBoundsExchanged, keepsBranches_exchangeBounds.terminator, hterminator,
      Option.map_some, exchangeBounds_of_not_icmp fun _ _ _ => InstKind.noConfusion]
  rw [tests_iff hterminator' hswap, tests_iff hterminator'' hexchanged]
  simp only [h.toExchange.seen_swap, h.toExchange.seen_withBoundsExchanged]

/-- The function behind the interchange takes the steps of the one with exchanged bounds. -/
theorem CountedPair.pairStep_swap (h : CountedPair F SE outer inner preOuter preInner w)
    (bounds : Value → BitVec w → Prop) :
    PairStep (F.mapInsts (swapKind F preOuter preInner outer inner)) outer inner bounds =
      PairStep (F.withBoundsExchanged outer inner) outer inner bounds := by
  funext s s'
  have hsuccessors : ∀ b, (F.withBoundsExchanged outer inner).successors b = F.successors b :=
    keepsBranches_exchangeBounds.successors_eq
  have hexiting : ∀ L : Loop, L.exitingBlock (F.withBoundsExchanged outer inner) =
      L.exitingBlock F := keepsBranches_exchangeBounds.exitingBlock_eq
  simp only [PairStep, keepsBranches_swapKind.successors_eq, hsuccessors,
    keepsBranches_swapKind.exitingBlock_eq, hexiting, eq_iff_iff]
  refine and_congr_right fun hedge => and_congr ?_ ?_
  · refine forall₃_congr fun loop hloop hexiting => ?_
    exact h.tests_swap_iff hloop hexiting bounds s.2 s'.1
  · rw [h.toExchange.follow_swap h.typed List.mem_cons_self s.2 hedge,
      h.toExchange.follow_swap h.typed (List.mem_cons_of_mem outer List.mem_cons_self) s.2 hedge]

theorem CountedPair.executes_swap_iff (h : CountedPair F SE outer inner preOuter preInner w)
    (bounds : Value → BitVec w → Prop) (entry block : BlockId) (place : Place)
    (counters : Counters w) :
    Executes (F.mapInsts (swapKind F preOuter preInner outer inner)) outer inner bounds entry block
        place counters ↔
      Executes (F.withBoundsExchanged outer inner) outer inner bounds entry block place
        counters := by
  cases place with
  | before b index => rw [Executes, Executes, PairRuns, PairRuns, h.pairStep_swap]
  | endOf b => rw [Executes, Executes, PairRuns, PairRuns, h.pairStep_swap]

/-- What a use sees behind the interchange, by the counters of the two executions. -/
theorem CountedPair.sees_iff (h : CountedPair F SE outer inner preOuter preInner w)
    {value : Value} (hvalue : value ∈ outer.counters inner) (block : BlockId) (user : Inst)
    (counters counters' : Counters w) :
    (F.mapInsts (swapKind F preOuter preInner outer inner)).seen outer inner counters'
        (swapUse F outer inner block user value) = F.seen outer inner counters value ↔
      (if LeftAlone F outer inner block user value then counters' else counters'.exchanged).own
        outer value = counters.own outer value := by
  rw [h.toExchange.seen_swap]
  exact h.toExchange.seen_swapUse_iff h.typed hvalue block user counters counters'

theorem Counters.own_exchanged_iff {value : Value} {i j : Option (BitVec w)} :
    (⟨j, i⟩ : Counters w).own outer value = (⟨i, j⟩ : Counters w).own outer value ↔ i = j := by
  rw [Counters.own, Counters.own]
  split_ifs
  · exact eq_comm
  · exact Iff.rfl

theorem CountedPair.swapUse_leftAlone (h : CountedPair F SE outer inner preOuter preInner w)
    {block : BlockId} {user : Inst} {value : Value}
    (halone : LeftAlone F outer inner block user value) :
    swapUse F outer inner block user value = value := by
  have hnext : ∀ loop ∈ [outer, inner],
      swapUse F outer inner block user loop.nextValue = loop.nextValue := fun loop hloop =>
    swapUse_of_ne ((h.agrees_of_mem hloop).next_ne h.distinct h.outer_agrees)
      ((h.agrees_of_mem hloop).next_ne h.distinct h.inner_agrees)
  rcases halone with ⟨rfl, hcontrol⟩ | ⟨rfl, hcontrol⟩ | rfl | rfl
  · exact swapUse_own h.induction_ne (Or.inl rfl) hcontrol
  · exact swapUse_own h.induction_ne (Or.inr rfl) hcontrol
  · exact hnext outer List.mem_cons_self
  · exact hnext inner (List.mem_cons_of_mem outer List.mem_cons_self)

theorem CountedPair.usesKept_iff_renamedWell (h : CountedPair F SE outer inner preOuter preInner w)
    {entry : BlockId} (hF : F.SSAForm entry) (bounds : Value → BitVec w → Prop) :
    UsesKept F (F.mapInsts (swapKind F preOuter preInner outer inner)) outer inner bounds entry ↔
      RenamedWell F outer inner bounds entry := by
  have hall : UsesKept F (F.mapInsts (swapKind F preOuter preInner outer inner)) outer inner
      bounds entry ↔ ∀ block index k user value place, F.UseAt block index k user value place →
    user.value ∉ outer.controls inner → value ∈ outer.counters inner →
      F.Available entry (swapUse F outer inner block user value) place ∧
      ∀ counters counters', Executes F outer inner bounds entry block place counters →
        Executes (F.withBoundsExchanged outer inner) outer inner bounds entry block place
          counters' →
        (InBoth outer inner block place → counters' = counters.exchanged) →
        (if LeftAlone F outer inner block user value then counters' else counters'.exchanged).own
          outer value = counters.own outer value := by
    unfold UsesKept
    refine forall₃_congr fun block index k => forall₃_congr fun user value place =>
      forall₃_congr fun huse huser hvalue => ?_
    constructor
    · rintro ⟨user', value', huse', havailable, hsees⟩
      obtain ⟨_, rfl, _⟩ := (useAt_swap huse huser).mp huse'
      refine ⟨keepsBranches_swapKind.available_iff.mp havailable, ?_⟩
      intro counters counters' hruns hruns' hsame
      exact (h.sees_iff hvalue block user counters counters').mp
        (hsees counters counters' hruns ((h.executes_swap_iff ..).mpr hruns') hsame)
    · rintro ⟨havailable, hsees⟩
      refine ⟨_, _, (useAt_swap huse huser).mpr ⟨rfl, rfl, rfl⟩,
        keepsBranches_swapKind.available_iff.mpr havailable, ?_⟩
      intro counters counters' hruns hruns' hsame
      exact (h.sees_iff hvalue block user counters counters').mpr
        (hsees counters counters' hruns ((h.executes_swap_iff ..).mp hruns') hsame)
  rw [hall]
  constructor
  · intro hkept
    refine ⟨?_, ?_, ?_⟩
    · intro block index k user value place huse huser hvalue _
      exact (hkept block index k user value place huse huser hvalue).1
    · intro block index k user value place huse huser halone hboth i j hruns hruns'
      have hvalue := halone.mem_counters
      have hsees := (hkept block index k user value place huse huser hvalue).2 ⟨i, j⟩ ⟨j, i⟩ hruns
        hruns' fun _ => rfl
      rw [if_pos halone] at hsees
      exact Counters.own_exchanged_iff.mp hsees
    · intro block index k user value place huse huser hvalue hboth counters counters' hruns hruns'
      exact (hkept block index k user value place huse huser hvalue).2 counters counters' hruns
        hruns' fun hin => absurd hin hboth
  · intro hwell block index k user value place huse huser hvalue
    constructor
    · by_cases halone : LeftAlone F outer inner block user value
      · rw [h.swapUse_leftAlone halone]
        exact hF.dominated value place ⟨block, index, user, huse.1, List.mem_of_getElem? huse.2⟩
      · exact hwell.available block index k user value place huse huser hvalue halone
    · intro counters counters' hruns hruns' hsame
      by_cases hboth : InBoth outer inner block place
      · obtain rfl := hsame hboth
        by_cases halone : LeftAlone F outer inner block user value
        · rw [if_pos halone]
          exact Counters.own_exchanged_iff.mpr (hwell.inside block index k user value place huse
            huser halone hboth _ _ hruns hruns')
        · rw [if_neg halone]
          rfl
      · exact hwell.outside block index k user value place huse huser hvalue hboth counters
          counters' hruns hruns'

end Runs

section Nest

variable {nest nest' : LoopNestDescriptor} {editor editor' : Editor} {SE : ScalarEvolution}
  {outer inner : LoopDescriptor} {preOuter preInner : BlockId} {idxOuter idxInner w : Nat}

theorem Describes.branch {F : Function} {L : Loop} {loop : LoopDescriptor}
    (h : Describes F SE L loop) {b : BlockId} (hexiting : loop.loopNode.exitingBlock F = some b) :
    ∃ value type ifTrue ifFalse,
      F.terminator? b = some ⟨value, type, .condBr loop.compare ifTrue ifFalse⟩ := by
  obtain ⟨exiting, hexiting', value, type, cond, ifTrue, ifFalse, hterminator, type', hcond⟩ :=
    h.exit
  rw [← h.loopNode, hexiting] at hexiting'
  obtain rfl := Option.some.inj hexiting'
  obtain rfl : loop.compare = cond := value_of_inst? hcond
  exact ⟨value, type, ifTrue, ifFalse, hterminator⟩

/-- Two loops of an analysed nest that have changed places. -/
theorem Interchanged.countedPair {root : Loop}
    (h : Interchanged nest nest' idxOuter idxInner editor editor' outer inner preOuter preInner)
    (hF : editor.function.Distinct) (hSE : SE.Sound editor.function (linearizePerfectNest root))
    (hnest : analyzeLoopNest editor.function SE root = some nest)
    (hheaders : (nest.loops.map fun loop => loop.loopNode.header).Nodup)
    (hne : idxOuter ≠ idxInner) (hw : 1 < w)
    (htyped : ∀ loop ∈ [outer, inner], loop.Typed editor.function w) :
    CountedPair editor.function SE outer inner preOuter preInner w := by
  have hmem : ∀ loop ∈ [outer, inner], loop ∈ nest.loops := by
    intro loop hloop
    rcases List.mem_pair.mp hloop with rfl | rfl
    · exact List.mem_of_getElem? h.getElem_outer
    · exact List.mem_of_getElem? h.getElem_inner
  have hagrees : ∀ loop ∈ [outer, inner], Agrees editor.function SE loop := by
    intro loop hloop
    obtain ⟨L, hL, hdescribes⟩ := exists_describes hnest (hmem loop hloop)
    exact hdescribes.agrees hSE hL (htyped loop hloop) hw
  have houter := hagrees outer List.mem_cons_self
  have hinner := hagrees inner (List.mem_cons_of_mem outer List.mem_cons_self)
  obtain ⟨pre, hpre, hpreheader⟩ := houter.startBlock_ok
  obtain ⟨pre', hpre', hpreheader'⟩ := hinner.startBlock_ok
  obtain rfl := Except.ok.inj (hpre.symm.trans h.startBlock_outer)
  obtain rfl := Except.ok.inj (hpre'.symm.trans h.startBlock_inner)
  refine ⟨⟨hF, houter, hinner, ?_, hpreheader, hpreheader'⟩, htyped, ?_⟩
  · exact header_ne_of_getElem? hheaders h.getElem_outer h.getElem_inner hne
  · intro loop hloop b hexiting
    obtain ⟨L, _, hdescribes⟩ := exists_describes hnest (hmem loop hloop)
    exact hdescribes.branch hexiting

end Nest

section Program

/-- The inner loop has a second PHI node that follows `j`. -/
def innerCopy : Payload := { innerPhis := [⟨40, .int 32, .phi [(8, 2), (6, 4)]⟩] }

theorem innerCopy_box : (exampleLoops []).Box (innerCopy.function .slt) := by
  decide

/-- A step of this function, by the tests of its two headers. -/
theorem innerCopy_step {b c : BlockId} {x y x' y' : Option (BitVec 32)}
    (hedge : c ∈ (innerCopy.function .slt).successors b)
    (houter : b = 1 → ∃ iv, x = some iv ∧ c = if Predicate.slt.eval iv 8 then 2 else 6)
    (hinner : b = 3 → ∃ iv, y = some iv ∧ c = if Predicate.slt.eval iv 8 then 4 else 5)
    (hx : Counters.follow (innerCopy.function .slt) (exampleDescriptor .slt)
      exampleInnerDescriptor ⟨x, y⟩ (exampleDescriptor .slt) b c = x')
    (hy : Counters.follow (innerCopy.function .slt) (exampleDescriptor .slt)
      exampleInnerDescriptor ⟨x, y⟩ exampleInnerDescriptor b c = y')
    (bounds : Value → BitVec 32 → Prop) :
    PairStep (innerCopy.function .slt) (exampleDescriptor .slt) exampleInnerDescriptor bounds
      (b, ⟨x, y⟩) (c, ⟨x', y'⟩) := by
  refine ⟨hedge, ?_, by rw [hx, hy]⟩
  intro loop hloop hexiting
  rcases List.mem_pair.mp hloop with rfl | rfl
  · obtain rfl : 1 = b := Option.some.inj hexiting
    obtain ⟨iv, rfl, hc⟩ := houter rfl
    exact (tests_iff (b := 1) rfl rfl).mpr ⟨iv, 8, rfl, Or.inl rfl, hc⟩
  · obtain rfl : 3 = b := Option.some.inj hexiting
    obtain ⟨iv, rfl, hc⟩ := hinner rfl
    exact (tests_iff (b := 3) rfl rfl).mpr ⟨iv, 8, rfl, Or.inl rfl, hc⟩

/-- The first iteration of the outer loop goes through all of the inner one. -/
theorem innerCopy_runs_header (bounds : Value → BitVec 32 → Prop) (n : Nat) (hn : n ≤ 8) :
    PairRuns (innerCopy.function .slt) (exampleDescriptor .slt) exampleInnerDescriptor bounds 0 3
      ⟨some 0, some (BitVec.ofNat 32 n)⟩ := by
  induction n with
  | zero =>
      refine ReflTransGen.head (innerCopy_step (b := 0) (c := 1) ?_ ?_ ?_ rfl rfl bounds) ?_
      · decide
      · decide
      · decide
      refine ReflTransGen.head (innerCopy_step (b := 1) (c := 2) ?_ ?_ ?_ rfl rfl bounds) ?_
      · decide
      · exact fun _ => ⟨0, rfl, rfl⟩
      · decide
      refine ReflTransGen.single (innerCopy_step (b := 2) (c := 3) ?_ ?_ ?_ rfl rfl bounds)
      · decide
      · decide
      · decide
  | succ n ih =>
      have hall : ∀ n < 8, Predicate.slt.eval (BitVec.ofNat 32 n) 8 = true := by decide
      have hbody : PairRuns (innerCopy.function .slt) (exampleDescriptor .slt)
          exampleInnerDescriptor bounds 0 4 ⟨some 0, some (BitVec.ofNat 32 n)⟩ := by
        refine (ih (by omega)).tail (innerCopy_step (b := 3) ?_ ?_ ?_ rfl rfl bounds)
        · decide
        · decide
        · exact fun _ => ⟨_, rfl, by rw [hall n (by omega)]; rfl⟩
      refine hbody.tail (innerCopy_step (b := 4) ?_ ?_ ?_ rfl ?_ bounds)
      · decide
      · exact fun h => absurd h (by decide)
      · exact fun h => absurd h (by decide)
      · exact congrArg some (BitVec.ofNat_add n 1).symm

/-- The body of the inner loop is executed for `i = 0` and `j = 1`, and for `i = 1` and
`j = 0`. -/
theorem innerCopy_runs (bounds : Value → BitVec 32 → Prop) :
    PairRuns (innerCopy.function .slt) (exampleDescriptor .slt) exampleInnerDescriptor bounds 0 4
        ⟨some 0, some 1⟩ ∧
      PairRuns (innerCopy.function .slt) (exampleDescriptor .slt) exampleInnerDescriptor bounds 0 4
        ⟨some 1, some 0⟩ := by
  constructor
  · refine (innerCopy_runs_header bounds 1 (by decide)).tail
      (innerCopy_step (b := 3) (c := 4) ?_ ?_ ?_ rfl rfl bounds)
    · decide
    · decide
    · exact fun _ => ⟨1, rfl, rfl⟩
  · refine (((((innerCopy_runs_header bounds 8 (by decide)).tail
      (innerCopy_step (b := 3) (c := 5) ?_ ?_ ?_ rfl rfl bounds)).tail
      (innerCopy_step (b := 5) (c := 1) ?_ ?_ ?_ rfl rfl bounds)).tail
      (innerCopy_step (b := 1) (c := 2) ?_ ?_ ?_ rfl rfl bounds)).tail
      (innerCopy_step (b := 2) (c := 3) ?_ ?_ ?_ rfl rfl bounds)).tail
      (innerCopy_step (b := 3) (c := 4) ?_ ?_ ?_ rfl rfl bounds)
    · decide
    · decide
    · exact fun _ => ⟨8, rfl, rfl⟩
    · decide
    · decide
    · decide
    · decide
    · exact fun _ => ⟨1, rfl, rfl⟩
    · decide
    · decide
    · decide
    · decide
    · decide
    · decide
    · exact fun _ => ⟨0, rfl, rfl⟩

/-- So is the use of `j + 1` by the second PHI node, on the back edge. -/
theorem innerCopy_executes (bounds : Value → BitVec 32 → Prop) :
    Executes (innerCopy.function .slt) (exampleDescriptor .slt) exampleInnerDescriptor bounds 0 3
        (.endOf 4) ⟨some 0, some 1⟩ ∧
      Executes (innerCopy.function .slt) (exampleDescriptor .slt) exampleInnerDescriptor bounds 0 3
        (.endOf 4) ⟨some 1, some 0⟩ := by
  obtain ⟨hruns, hruns'⟩ := innerCopy_runs bounds
  refine ⟨⟨hruns, _, innerCopy_step (b := 4) ?_ ?_ ?_ rfl rfl bounds⟩,
    ⟨hruns', _, innerCopy_step (b := 4) ?_ ?_ ?_ rfl rfl bounds⟩⟩ <;> decide

/-- Both induction variables are used in the body of the inner loop, and the outer one by a
PHI node behind the nest. -/
def bothUses : Payload where
  inner := [⟨40, .int 32, .compute [1, 2]⟩]
  exit := [⟨41, .int 32, .phi [(1, 1)]⟩]

/-- What the outer counter of this function is bounded by, in a block. -/
def OuterBelow (b : BlockId) (counters : Counters 32) : Prop :=
  b = 0 ∨ ∃ n : Nat, n ≤ 8 ∧ counters.outer = some (BitVec.ofNat 32 n) ∧
    (b ∈ [2, 3, 4, 5] → n < 8)

theorem bothUses_edge {b c : BlockId} (hedge : c ∈ (bothUses.function .slt).successors b) :
    (b, c) ∈ [(0, 1), (1, 2), (1, 6), (2, 3), (3, 4), (3, 5), (4, 3), (5, 1)] := by
  have hall : ∀ b ∈ (bothUses.function .slt).blocks.map Prod.fst,
      ∀ c ∈ (bothUses.function .slt).successors b,
        (b, c) ∈ [(0, 1), (1, 2), (1, 6), (2, 3), (3, 4), (3, 5), (4, 3), (5, 1)] := by decide
  exact hall b (Function.mem_blocks_of_mem_successors hedge) c hedge

/-- The test of the outer header, made for a counter of at most eight. -/
theorem bothUses_test {bounds : Value → BitVec 32 → Prop} {counters : Counters 32} {c : BlockId}
    {n : Nat} (hn : n ≤ 8) (houter : counters.outer = some (BitVec.ofNat 32 n))
    (h : (bothUses.function .slt).Tests (exampleDescriptor .slt) exampleInnerDescriptor bounds
      counters 1 c) : c = if n < 8 then 2 else 6 := by
  obtain ⟨iv, bound, hiv, hbound, rfl⟩ := (tests_iff (b := 1) rfl rfl).mp h
  obtain rfl : BitVec.ofNat 32 n = iv := Option.some.inj (houter.symm.trans hiv)
  obtain rfl : (8 : BitVec 32) = bound := by
    rcases hbound with hbound | ⟨hnone, _⟩
    · exact Option.some.inj hbound
    · cases hnone
  have hall : ∀ n ≤ 8, (if Predicate.slt.eval (BitVec.ofNat 32 n) 8 = true then 2 else 6) =
      if n < 8 then 2 else 6 := by decide
  exact hall n hn

theorem OuterBelow.step {bounds : Value → BitVec 32 → Prop} {b c : BlockId}
    {counters counters' : Counters 32} (h : OuterBelow b counters)
    (hstep : PairStep (bothUses.function .slt) (exampleDescriptor .slt) exampleInnerDescriptor
      bounds (b, counters) (c, counters')) : OuterBelow c counters' := by
  obtain ⟨hedge, htests, hcounters⟩ := hstep
  have hfollow : counters'.outer = counters.follow (bothUses.function .slt) (exampleDescriptor .slt)
      exampleInnerDescriptor (exampleDescriptor .slt) b c := congrArg Counters.outer hcounters
  have hbc := bothUses_edge hedge
  simp only [List.mem_cons, List.not_mem_nil, or_false, Prod.mk.injEq] at hbc
  rcases hbc with ⟨rfl, rfl⟩ | hbc
  · exact Or.inr ⟨0, by decide, hfollow, fun h => absurd h (by decide)⟩
  obtain ⟨n, hn, houter, hbelow⟩ := h.resolve_left (by rintro rfl; simp at hbc)
  rcases hbc with ⟨rfl, rfl⟩ | ⟨rfl, rfl⟩ | ⟨rfl, rfl⟩ | ⟨rfl, rfl⟩ | ⟨rfl, rfl⟩ | ⟨rfl, rfl⟩ |
    ⟨rfl, rfl⟩
  · have htest : 2 = if n < 8 then 2 else 6 :=
      bothUses_test hn houter (htests _ List.mem_cons_self rfl)
    refine Or.inr ⟨n, hn, hfollow.trans houter, fun _ => ?_⟩
    by_contra hge
    rw [if_neg hge] at htest
    exact absurd htest (by decide)
  · exact Or.inr ⟨n, hn, hfollow.trans houter, fun h => absurd h (by decide)⟩
  · exact Or.inr ⟨n, hn, hfollow.trans houter, fun _ => hbelow (by decide)⟩
  · exact Or.inr ⟨n, hn, hfollow.trans houter, fun _ => hbelow (by decide)⟩
  · exact Or.inr ⟨n, hn, hfollow.trans houter, fun _ => hbelow (by decide)⟩
  · exact Or.inr ⟨n, hn, hfollow.trans houter, fun _ => hbelow (by decide)⟩
  · have hnext : counters'.outer = counters.outer.bind fun iv => some (iv + 1) := hfollow
    rw [houter, Option.bind_some] at hnext
    exact Or.inr ⟨n + 1, hbelow (by decide),
      hnext.trans (congrArg some (BitVec.ofNat_add n 1).symm), fun h => absurd h (by decide)⟩

theorem outerBelow_of_pairRuns {bounds : Value → BitVec 32 → Prop} {b : BlockId}
    {counters : Counters 32} (h : PairRuns (bothUses.function .slt) (exampleDescriptor .slt)
      exampleInnerDescriptor bounds 0 b counters) : OuterBelow b counters := by
  have hinvariant : ∀ s s' : BlockId × Counters 32, OuterBelow s.1 s.2 →
      ReflTransGen (PairStep (bothUses.function .slt) (exampleDescriptor .slt)
        exampleInnerDescriptor bounds) s s' → OuterBelow s'.1 s'.2 := by
    intro s s' hs hsteps
    induction hsteps with
    | refl => exact hs
    | tail _ hstep ih => exact ih.step hstep
  exact hinvariant _ _ (Or.inl rfl) h

/-- Behind the nest the outer counter is eight. -/
theorem bothUses_final {bounds : Value → BitVec 32 → Prop} {counters : Counters 32}
    (h : Executes (bothUses.function .slt) (exampleDescriptor .slt) exampleInnerDescriptor bounds 0
      6 (.endOf 1) counters) : counters.outer = some 8 := by
  obtain ⟨hruns, counters', _, htests, _⟩ := h
  obtain ⟨n, hn, houter, _⟩ :=
    (outerBelow_of_pairRuns hruns).resolve_left fun h => absurd h (by decide)
  have htest : 6 = if n < 8 then 2 else 6 :=
    bothUses_test hn houter (htests _ List.mem_cons_self rfl)
  obtain rfl : n = 8 := by
    by_contra hne
    rw [if_pos (by omega)] at htest
    exact absurd htest (by decide)
  exact houter

/-- The uses of the two counters outside of the control: those in the body of the inner loop,
which are renamed, and the one behind the nest, which is not. -/
theorem bothUses_uses : ∀ block ∈ (bothUses.function .slt).blocks.map Prod.fst,
    ∀ user ∈ ((bothUses.function .slt).insts block).zipIdx,
    user.1.value ∉ (exampleDescriptor .slt).controls exampleInnerDescriptor →
    ∀ slot ∈ user.1.kind.slots block user.2,
    slot.1 ∈ (exampleDescriptor .slt).counters exampleInnerDescriptor →
    (¬ LeftAlone (bothUses.function .slt) (exampleDescriptor .slt) exampleInnerDescriptor block
        user.1 slot.1 ∧ InBoth (exampleDescriptor .slt) exampleInnerDescriptor block slot.2 ∧
      ∃ home ∈ [(1, 1), (2, 3)], swapUse (bothUses.function .slt) (exampleDescriptor .slt)
        exampleInnerDescriptor block user.1 slot.1 = home.1 ∧
          Function.precedesBy exampleAvoiding home.2 0 slot.2 = true) ∨
      (LeftAlone (bothUses.function .slt) (exampleDescriptor .slt) exampleInnerDescriptor block
        user.1 slot.1 ∧ ¬ InBoth (exampleDescriptor .slt) exampleInnerDescriptor block slot.2 ∧
        block = 6 ∧ slot = (1, .endOf 1)) := by
  decide

theorem bothUses_ssaForm : (bothUses.function .slt).SSAForm 0 :=
  Function.ssaForm_of_checkSSA exampleAvoiding (by decide)

theorem bothUses_renamedWell (bounds : Value → BitVec 32 → Prop) : RenamedWell
    (bothUses.function .slt) (exampleDescriptor .slt) exampleInnerDescriptor bounds 0 where
  available := by
    intro block index k user value place huse huser hvalue halone home i hdef
    have hcertifies : (bothUses.function .slt).certifies 0 exampleAvoiding = true := by decide
    obtain ⟨hblock, hindex, hslot⟩ := huse.mem
    obtain ⟨_, _, ⟨name, origin⟩, hhome, heq, hprecedes⟩ | ⟨hleft, _⟩ :=
      bothUses_uses block hblock (user, index) hindex huser (value, place) hslot hvalue
    · have hphi : (bothUses.function .slt).DefinedAt name origin 0 := by
        rcases List.mem_pair.mp hhome with hhome | hhome
        · obtain ⟨rfl, rfl⟩ := Prod.mk.inj hhome
          exact ⟨_, rfl, rfl⟩
        · obtain ⟨rfl, rfl⟩ := Prod.mk.inj hhome
          exact ⟨_, rfl, rfl⟩
      rw [heq] at hdef
      obtain ⟨rfl, rfl⟩ := bothUses_ssaForm.distinct.definedAt_unique hphi hdef
      refine Function.precedes_of_precedesBy hcertifies ?_ hprecedes
      rcases List.mem_pair.mp hhome with hhome | hhome
      · exact (Prod.mk.inj hhome).2 ▸ (by decide)
      · exact (Prod.mk.inj hhome).2 ▸ (by decide)
    · exact absurd hleft halone
  inside := by
    intro block index k user value place huse huser halone hboth
    obtain ⟨hblock, hindex, hslot⟩ := huse.mem
    obtain ⟨hnot, _⟩ | ⟨_, hnot, _⟩ := bothUses_uses block hblock (user, index) hindex huser
      (value, place) hslot halone.mem_counters
    · exact absurd halone hnot
    · exact absurd hboth hnot
  outside := by
    intro block index k user value place huse huser hvalue hboth counters counters' hruns hruns'
    obtain ⟨hblock, hindex, hslot⟩ := huse.mem
    obtain ⟨_, hin, _⟩ | ⟨halone, _, rfl, heq⟩ :=
      bothUses_uses block hblock (user, index) hindex huser (value, place) hslot hvalue
    · exact absurd hin hboth
    · obtain ⟨rfl, rfl⟩ := Prod.mk.inj heq
      rw [if_pos halone]
      exact (bothUses_final hruns').trans (bothUses_final hruns).symm

end Program

end PolyhedralPass
