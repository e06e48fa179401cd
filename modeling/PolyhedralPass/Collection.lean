/-
The instructions of the innermost loop that touch memory, against the accesses of the
nest: loads and stores are there, whatever else touches memory is not.
-/
import PolyhedralPass.Nesting
import PolyhedralPass.Ssa

namespace PolyhedralPass

/-- The instruction may read or write memory. -/
def InstKind.touchesMemory (kind : InstKind) : Bool :=
  kind.mayReadFromMemory || kind.mayWriteToMemory

/-- The two kinds the collector keeps. -/
def InstKind.isLoadOrStore : InstKind → Bool
  | .load _ | .store _ _ => true
  | _ => false

section Collector

variable {F : Function} {SE : ScalarEvolution}

theorem accessOf_inst {inst : Inst} {access : MemoryAccess} (h : accessOf F SE inst = some access) :
    access.inst = inst.value ∧ inst.kind.isLoadOrStore = true := by
  unfold accessOf at h
  simp only at h
  split at h
  · rename_i hkind
    obtain rfl := Option.some.inj h
    exact ⟨rfl, by rw [hkind]; rfl⟩
  · rename_i hkind
    obtain rfl := Option.some.inj h
    exact ⟨rfl, by rw [hkind]; rfl⟩
  · exact absurd h (by simp)

/-- A load is a reading access. -/
theorem accessOf_read (F : Function) (SE : ScalarEvolution) {inst : Inst}
    (hkind : inst.kind.isLoadOrStore = true)
    (hread : inst.kind.mayReadFromMemory = true) :
    ∃ access, accessOf F SE inst = some access ∧ access.accessKind = .load := by
  obtain ⟨value, type, kind⟩ := inst
  cases kind with
  | load pointer => exact ⟨_, rfl, rfl⟩
  | store stored pointer => exact absurd hread (by simp [InstKind.mayReadFromMemory])
  | _ => exact absurd hkind (by simp [InstKind.isLoadOrStore])

/-- A store is a writing access. -/
theorem accessOf_write (F : Function) (SE : ScalarEvolution) {inst : Inst}
    (hkind : inst.kind.isLoadOrStore = true)
    (hwrite : inst.kind.mayWriteToMemory = true) :
    ∃ access, accessOf F SE inst = some access ∧ access.accessKind = .store := by
  obtain ⟨value, type, kind⟩ := inst
  cases kind with
  | load pointer => exact absurd hwrite (by simp [InstKind.mayWriteToMemory])
  | store stored pointer => exact ⟨_, rfl, rfl⟩
  | _ => exact absurd hkind (by simp [InstKind.isLoadOrStore])

theorem getLast?_loops {root innermost : Loop} {nest : LoopNestDescriptor}
    (h : analyzeLoopNest F SE root = some nest)
    (hinnermost : (linearizePerfectNest root).getLast? = some innermost) :
    ∃ loop, nest.loops.getLast? = some loop ∧ loop.loopNode = innermost := by
  obtain ⟨_, hloops, _⟩ := describes_of_analyzeLoopNest h
  rw [← map_loopNode hloops, List.getLast?_map] at hinnermost
  exact Option.map_eq_some_iff.mp hinnermost

/-- The accesses of a nest are those of the loads and stores of its innermost loop. -/
theorem mem_accesses_iff {root innermost : Loop} {nest : LoopNestDescriptor}
    (h : analyzeLoopNest F SE root = some nest)
    (hinnermost : (linearizePerfectNest root).getLast? = some innermost) {access : MemoryAccess} :
    access ∈ nest.accesses ↔
      ∃ block ∈ innermost.blocks, ∃ inst ∈ F.insts block, accessOf F SE inst = some access := by
  obtain ⟨loop, hloop, rfl⟩ := getLast?_loops h hinnermost
  rw [(describes_of_analyzeLoopNest h).2.2, collectMemoryAccesses, hloop]
  simp only [List.mem_flatMap, List.mem_filterMap]

end Collector

section Completeness

/-- Every instruction of the loop that reads memory has a reading access, and every one
that writes memory has a writing access. -/
def AccessesCover (F : Function) (nest : LoopNestDescriptor) (L : Loop) : Prop :=
  ∀ block ∈ L.blocks, ∀ inst ∈ F.insts block,
    (inst.kind.mayReadFromMemory = true →
      ∃ access ∈ nest.accesses, access.inst = inst.value ∧ access.accessKind = .load) ∧
    (inst.kind.mayWriteToMemory = true →
      ∃ access ∈ nest.accesses, access.inst = inst.value ∧ access.accessKind = .store)

/-- Only loads and stores of the loop touch memory. -/
def LoadsAndStoresOnly (F : Function) (L : Loop) : Prop :=
  ∀ block ∈ L.blocks, ∀ inst ∈ F.insts block,
    inst.kind.touchesMemory = true → inst.kind.isLoadOrStore = true

instance (F : Function) (L : Loop) : Decidable (LoadsAndStoresOnly F L) :=
  inferInstanceAs (Decidable (∀ block ∈ L.blocks, ∀ inst ∈ F.insts block,
    inst.kind.touchesMemory = true → inst.kind.isLoadOrStore = true))

variable {F : Function} {SE : ScalarEvolution}

/-- The accesses of a nest are complete just when nothing but loads and stores touches
memory in its innermost loop. -/
theorem accessesCover_iff (F : Function) (SE : ScalarEvolution) (root innermost : Loop)
    (nest : LoopNestDescriptor) (hF : F.Distinct) (h : analyzeLoopNest F SE root = some nest)
    (hinnermost : (linearizePerfectNest root).getLast? = some innermost) :
    AccessesCover F nest innermost ↔ LoadsAndStoresOnly F innermost := by
  have hmem := @mem_accesses_iff F SE root innermost nest h hinnermost
  constructor
  · intro hcover block hblock inst hinst htouches
    -- the access that covers the instruction comes from a load or a store of the same name
    have hfrom : ∀ access ∈ nest.accesses, access.inst = inst.value →
        inst.kind.isLoadOrStore = true := by
      intro access haccess hvalue
      obtain ⟨block', _, inst', hinst', hof⟩ := hmem.mp haccess
      obtain ⟨hinst'', hkind⟩ := accessOf_inst hof
      have hsame := Function.eq_of_value_eq hF.values_nodup (Function.mem_allInsts hinst')
        (Function.mem_allInsts hinst) (hinst''.symm.trans hvalue)
      rwa [hsame] at hkind
    rcases Bool.or_eq_true_iff.mp htouches with hread | hwrite
    · obtain ⟨access, haccess, hvalue, _⟩ := (hcover block hblock inst hinst).1 hread
      exact hfrom access haccess hvalue
    · obtain ⟨access, haccess, hvalue, _⟩ := (hcover block hblock inst hinst).2 hwrite
      exact hfrom access haccess hvalue
  · intro honly block hblock inst hinst
    refine ⟨fun hread => ?_, fun hwrite => ?_⟩
    · have hkind := honly block hblock inst hinst (by simp [InstKind.touchesMemory, hread])
      obtain ⟨access, hof, hload⟩ := accessOf_read F SE hkind hread
      exact ⟨access, hmem.mpr ⟨block, hblock, inst, hinst, hof⟩, (accessOf_inst hof).1, hload⟩
    · have hkind := honly block hblock inst hinst (by simp [InstKind.touchesMemory, hwrite])
      obtain ⟨access, hof, hstore⟩ := accessOf_write F SE hkind hwrite
      exact ⟨access, hmem.mpr ⟨block, hblock, inst, hinst, hof⟩, (accessOf_inst hof).1, hstore⟩

end Completeness

section Program

/-- `memcpy(A, B, 4)` in the inner loop. -/
def copyCall : Payload := { inner := [⟨40, .void, .call [30, 31] .readWrite⟩] }

theorem innerStore_cover : AccessesCover (innerStore.function .slt)
    (exampleLoops [⟨.store, 40, 30, "A", []⟩]) exampleInner :=
  (accessesCover_iff (innerStore.function .slt) exampleEvolution exampleOuter exampleInner _
    ⟨by decide, by decide, by decide⟩ rfl rfl).mpr (by decide)

theorem not_forall_accessesCover : ¬ ∀ (F : Function) (SE : ScalarEvolution)
    (root innermost : Loop) (nest : LoopNestDescriptor), F.Distinct →
    analyzeLoopNest F SE root = some nest →
    (linearizePerfectNest root).getLast? = some innermost → AccessesCover F nest innermost := by
  intro hall
  have hcover := hall (copyCall.function .slt) exampleEvolution exampleOuter exampleInner
    (exampleLoops []) ⟨by decide, by decide, by decide⟩ rfl rfl
  have hcall := hcover 4 (by decide) ⟨40, .void, .call [30, 31] .readWrite⟩ (by decide)
  obtain ⟨access, haccess, _⟩ := hcall.2 rfl
  exact absurd haccess (by simp [exampleLoops])

end Program

end PolyhedralPass
