/-
The control flow of a tiled nest: what dominates what along the edges that tiling
means to make, and whether the PHI nodes follow these edges.
-/
import PolyhedralPass.Ssa
import PolyhedralPass.Tiling
import Mathlib.Data.List.Dedup

namespace PolyhedralPass

open Flow Relation

section LoopInfo

variable (F : Function) (entry : BlockId) (L : Loop)

/-- What LoopInfo guarantees of a loop: control gets to the header and the header
dominates the loop. -/
structure Loop.Headed : Prop where
  header_mem : L.header ∈ L.blocks
  dominates : ∀ b ∈ L.blocks, Dominates F.Edge entry L.header b
  reachable : ReflTransGen F.Edge entry L.header

variable {F entry L}

theorem mem_of_onlyElement {α : Type} {items : List α} {a b : α}
    (h : Loop.onlyElement items = some a) : b ∈ items ↔ b = a := by
  unfold Loop.onlyElement at h
  split at h
  · obtain rfl := Option.some.inj h
    exact List.mem_singleton
  · exact absurd h (by simp)

theorem loopPreheader_spec {preheader : BlockId} (h : L.loopPreheader F = some preheader) :
    F.Edge preheader L.header ∧ preheader ∉ L.blocks ∧
      (∀ b, F.Edge b L.header → b ∉ L.blocks → b = preheader) ∧
      ∀ c, F.Edge preheader c → c = L.header := by
  obtain ⟨hpred, hlength⟩ := Option.filter_eq_some_iff.mp h
  have hmem : ∀ b, F.Edge b L.header ∧ b ∉ L.blocks ↔ b = preheader := by
    intro b
    rw [← mem_of_onlyElement hpred, List.mem_dedup, List.mem_filter, Function.mem_predecessors]
    simp [Loop.contains, Function.Edge]
  obtain ⟨hedge, hout⟩ := (hmem preheader).mpr rfl
  refine ⟨hedge, hout, fun b hb hnot => (hmem b).mp ⟨hb, hnot⟩, ?_⟩
  intro c hc
  have hlength : (F.successors preheader).length = 1 := by simpa using hlength
  obtain ⟨only, honly⟩ := List.length_eq_one_iff.mp hlength
  have hheader : L.header ∈ F.successors preheader := hedge
  have hc : c ∈ F.successors preheader := hc
  rw [honly, List.mem_singleton] at hheader hc
  rw [hc, hheader]

theorem exitBlock_spec {exit exiting : BlockId} (hexit : L.exitBlock F = some exit)
    (hexiting : L.exitingBlock F = some exiting) :
    exiting ∈ L.blocks ∧ F.Edge exiting exit ∧ exit ∉ L.blocks ∧
      ∀ b ∈ L.blocks, ∀ c, F.Edge b c → c ∉ L.blocks → b = exiting ∧ c = exit := by
  have hmem : ∀ c, (∃ b ∈ L.blocks, F.Edge b c ∧ c ∉ L.blocks) ↔ c = exit := by
    intro c
    rw [← mem_of_onlyElement hexit, List.mem_flatMap]
    simp [Loop.contains, Function.Edge]
  have hmem' : ∀ b, (b ∈ L.blocks ∧ ∃ c, F.Edge b c ∧ c ∉ L.blocks) ↔ b = exiting := by
    intro b
    rw [← mem_of_onlyElement hexiting, List.mem_filter]
    simp [Loop.contains, Loop.isExiting, Function.Edge]
  obtain ⟨b, hb, hedge, hout⟩ := (hmem exit).mpr rfl
  obtain rfl := (hmem' b).mp ⟨hb, exit, hedge, hout⟩
  refine ⟨hb, hedge, hout, ?_⟩
  intro b' hb' c hc hnot
  exact ⟨(hmem' b').mp ⟨hb', c, hc, hnot⟩, (hmem c).mp ⟨b', hb', hc, hnot⟩⟩

/-- A loop is only entered over its preheader. -/
theorem Loop.Headed.preheader_dominates (h : L.Headed F entry)
    (hentry : ∀ b, ¬ F.Edge b entry) {preheader : BlockId}
    (hpreheader : L.loopPreheader F = some preheader) :
    Dominates F.Edge entry preheader L.header := by
  obtain ⟨hedge, _, honly, _⟩ := loopPreheader_spec hpreheader
  have hout : entry ∉ L.blocks := by
    intro hmem
    by_cases heq : entry = L.header
    · exact hentry preheader (heq ▸ hedge)
    · exact h.dominates entry hmem heq ReflTransGen.refl
  intro _ hpath
  have houtside : ∀ c, Avoids F.Edge preheader entry c →
      c ∉ L.blocks ∧ Avoids F.Edge L.header entry c := by
    intro c hc
    induction hc with
    | refl => exact ⟨hout, ReflTransGen.refl⟩
    | @tail a c _ hstep ih =>
        obtain ⟨ha, havoids⟩ := ih
        have hne : a ≠ L.header := fun heq => ha (heq ▸ h.header_mem)
        have hpath := havoids.tail hstep.1 hne
        refine ⟨?_, hpath⟩
        intro hmem
        by_cases heq : c = L.header
        · exact hstep.2 (honly a (heq ▸ hstep.1) ha)
        · exact h.dominates c hmem heq hpath
  exact (houtside _ hpath).1 h.header_mem

variable {SE : ScalarEvolution} {loop : LoopDescriptor}

theorem mem_phis {block : BlockId} {value : Value} {incoming : List (Value × BlockId)} :
    (value, incoming) ∈ F.phis block ↔
      ∃ inst ∈ F.insts block, inst.value = value ∧ inst.kind = .phi incoming := by
  rw [Function.phis, List.mem_filterMap]
  constructor
  · rintro ⟨inst, hinst, hsome⟩
    split at hsome
    · rename_i entries hkind
      obtain ⟨rfl, rfl⟩ := Prod.mk.inj (Option.some.inj hsome)
      exact ⟨inst, hinst, rfl, hkind⟩
    · exact absurd hsome (by simp)
  · rintro ⟨inst, hinst, rfl, hkind⟩
    exact ⟨inst, hinst, by simp [hkind]⟩

/-- The canonical induction variable is a PHI node of the header. -/
theorem phi_of_canonicalInductionVariable {induction : Value}
    (h : L.canonicalInductionVariable F = some induction) :
    ∃ inst ∈ F.insts L.header, inst.value = induction ∧ ∃ incoming, inst.kind = .phi incoming := by
  obtain ⟨edges, _, hfind⟩ := Option.bind_eq_some_iff.mp h
  obtain ⟨⟨value, incoming⟩, hphi, hvalue⟩ := List.mem_map.mp (List.mem_of_find?_eq_some hfind)
  obtain ⟨inst, hinst, hdef, hkind⟩ := mem_phis.mp hphi
  exact ⟨inst, hinst, hdef.trans hvalue, incoming, hkind⟩

theorem Describes.phi (h : Describes F SE L loop) :
    ∃ inst ∈ F.insts L.header, inst.value = loop.induction ∧
      ∃ incoming, inst.kind = .phi incoming :=
  phi_of_canonicalInductionVariable h.induction

theorem incomingValueForBlock_eq (hF : F.Distinct) {block : BlockId} {inst : Inst}
    (hinst : inst ∈ F.insts block) {incoming : List (Value × BlockId)}
    (hkind : inst.kind = .phi incoming) (pred : BlockId) :
    F.incomingValueForBlock inst.value pred =
      (incoming.find? fun entry => entry.2 == pred).map Prod.fst := by
  have hsome : F.inst? inst.value = some inst :=
    (Function.inst?_eq_some hF.values_nodup).mpr ⟨Function.mem_allInsts hinst, rfl⟩
  obtain ⟨value, type, kind⟩ := inst
  simp only at hkind hsome
  rw [Function.incomingValueForBlock, hsome, hkind]

theorem analyzeLoopNest_head {root : Loop} {nest : LoopNestDescriptor}
    (h : analyzeLoopNest F SE root = some nest) :
    ∃ outermost rest, nest.loops = outermost :: rest ∧ Describes F SE root outermost := by
  obtain ⟨_, hloops, _⟩ := describes_of_analyzeLoopNest h
  cases root with
  | mk header blocks subLoops =>
      rw [linearizePerfectNest] at hloops
      cases hnest : nest.loops with
      | nil => simp [hnest] at hloops
      | cons outermost rest =>
          rw [hnest, List.forall₂_cons] at hloops
          exact ⟨outermost, rest, rfl, hloops.1⟩

end LoopInfo

section Graph

variable (F : Function) (entry : BlockId) (L : Loop) (preheader exit exiting : BlockId)
  (headers latches : List BlockId)

/-- The blocks around a nest and the new blocks of its tile loops. -/
structure TileBlocks : Prop where
  preheader : L.loopPreheader F = some preheader
  exit : L.exitBlock F = some exit
  exiting : L.exitingBlock F = some exiting
  length_eq : latches.length = headers.length
  ne_nil : headers ≠ []
  nodup : (headers ++ latches).Nodup
  fresh : ∀ b ∈ headers ++ latches, b ∉ F.blocks.map Prod.fst

/-- What a path of the tiled nest that does not leave `d` says about the paths of
the original one. -/
def TiledInvariant (d b : BlockId) : Prop :=
  if b ∈ headers then preheader ≠ d ∧ Avoids F.Edge d entry preheader
  else if b ∈ latches then exiting ≠ d ∧ Avoids F.Edge d entry exiting
  else Avoids F.Edge d entry b

variable {F entry L preheader exit exiting headers latches}

theorem TileBlocks.not_mem (h : TileBlocks F L preheader exit exiting headers latches)
    {b : BlockId} (hb : b ∈ F.blocks.map Prod.fst) : b ∉ headers ∧ b ∉ latches :=
  ⟨fun hmem => h.fresh b (List.mem_append_left _ hmem) hb,
    fun hmem => h.fresh b (List.mem_append_right _ hmem) hb⟩

theorem tiledInvariant_of_mem {d b : BlockId}
    (h : TileBlocks F L preheader exit exiting headers latches)
    (hb : b ∈ F.blocks.map Prod.fst) :
    TiledInvariant F entry preheader exiting headers latches d b ↔ Avoids F.Edge d entry b := by
  rw [TiledInvariant, if_neg (h.not_mem hb).1, if_neg (h.not_mem hb).2]

theorem tiledInvariant_header {d b : BlockId} (hb : b ∈ headers) :
    TiledInvariant F entry preheader exiting headers latches d b ↔
      preheader ≠ d ∧ Avoids F.Edge d entry preheader := by
  rw [TiledInvariant, if_pos hb]

theorem tiledInvariant_latch {d b : BlockId}
    (h : TileBlocks F L preheader exit exiting headers latches) (hb : b ∈ latches) :
    TiledInvariant F entry preheader exiting headers latches d b ↔
      exiting ≠ d ∧ Avoids F.Edge d entry exiting := by
  have hheader : b ∉ headers := fun hmem => List.disjoint_of_nodup_append h.nodup hmem hb
  rw [TiledInvariant, if_neg hheader, if_pos hb]

/-- Each step of the tiled nest keeps the invariant. -/
theorem tiledInvariant_step (hF : F.SSAForm entry) (hL : L.Headed F entry)
    (h : TileBlocks F L preheader exit exiting headers latches) {d a c : BlockId}
    (hedge : TiledEdge F L preheader exit headers latches a c) (ha : a ≠ d)
    (hinv : TiledInvariant F entry preheader exiting headers latches d a) :
    TiledInvariant F entry preheader exiting headers latches d c := by
  obtain ⟨hpre, hpreout, _, _⟩ := loopPreheader_spec h.preheader
  obtain ⟨hexmem, hexit, _, hexonly⟩ := exitBlock_spec h.exit h.exiting
  have hmem_pre := Function.mem_blocks_of_mem_successors hpre
  have hmem_ex := Function.mem_blocks_of_mem_successors hexit
  cases hedge with
  | enter hc =>
      rw [tiledInvariant_header (List.mem_of_head? hc)]
      exact ⟨ha, (tiledInvariant_of_mem h hmem_pre).mp hinv⟩
  | inward i hb hc =>
      rw [tiledInvariant_header (List.mem_of_getElem? hb)] at hinv
      rwa [tiledInvariant_header (List.mem_of_getElem? hc)]
  | point hb =>
      rw [tiledInvariant_header (List.mem_of_getLast? hb)] at hinv
      rw [tiledInvariant_of_mem h (hF.targets _ _ hpre)]
      exact hinv.2.tail hpre hinv.1
  | leave hb hsucc hc =>
      have hnot : exit ∉ L.blocks := (exitBlock_spec h.exit h.exiting).2.2.1
      obtain ⟨rfl, _⟩ := hexonly _ hb exit hsucc hnot
      rw [tiledInvariant_latch h (List.mem_of_getLast? hc)]
      exact ⟨ha, (tiledInvariant_of_mem h hmem_ex).mp hinv⟩
  | «repeat» i hb hc =>
      rw [tiledInvariant_latch h (List.mem_of_getElem? hb)] at hinv
      rw [tiledInvariant_header (List.mem_of_getElem? hc)]
      -- the way to the exiting block leads over the preheader
      have hdom : Dominates F.Edge entry preheader exiting :=
        (hL.preheader_dominates hF.entry_first h.preheader).trans (hL.dominates exiting hexmem)
      rcases hinv.2.through preheader with hpath | hpath
      · exact absurd hpath (hdom fun heq => hpreout (heq ▸ hexmem))
      · exact hpath
  | outward i hb hc =>
      rw [tiledInvariant_latch h (List.mem_of_getElem? hb)] at hinv
      rwa [tiledInvariant_latch h (List.mem_of_getElem? hc)]
  | finish hb =>
      rw [tiledInvariant_latch h (List.mem_of_head? hb)] at hinv
      rw [tiledInvariant_of_mem h (hF.targets _ _ hexit)]
      exact hinv.2.tail hexit hinv.1
  | other hsucc hb hc =>
      rw [tiledInvariant_of_mem h (Function.mem_blocks_of_mem_successors hsucc)] at hinv
      rw [tiledInvariant_of_mem h (hF.targets _ _ hsucc)]
      exact hinv.tail hsucc ha

theorem tiledInvariant_of_avoids (hF : F.SSAForm entry) (hL : L.Headed F entry)
    (h : TileBlocks F L preheader exit exiting headers latches) {d b : BlockId}
    (hpath : Avoids (TiledEdge F L preheader exit headers latches) d entry b) :
    TiledInvariant F entry preheader exiting headers latches d b := by
  induction hpath with
  | refl =>
      rw [tiledInvariant_of_mem h hF.entry_mem]
      exact ReflTransGen.refl
  | tail _ hstep ih => exact tiledInvariant_step hF hL h hstep.1 hstep.2 ih

/-- The way over the tile headers. -/
theorem TileBlocks.avoids_header (h : TileBlocks F L preheader exit exiting headers latches)
    {d : BlockId} (hd : d ∈ F.blocks.map Prod.fst) (hne : preheader ≠ d)
    (hpath : Avoids (TiledEdge F L preheader exit headers latches) d entry preheader) {i : Nat}
    {b : BlockId} (hb : headers[i]? = some b) :
    Avoids (TiledEdge F L preheader exit headers latches) d entry b := by
  induction i generalizing b with
  | zero => exact hpath.tail (.enter (by rwa [List.head?_eq_getElem?])) hne
  | succ i ih =>
      obtain ⟨hi, _⟩ := List.getElem?_eq_some_iff.mp hb
      have hprev : headers[i]? = some headers[i] := List.getElem?_eq_getElem (Nat.lt_of_succ_lt hi)
      refine (ih hprev).tail (.inward i hprev hb) ?_
      intro heq
      exact (h.not_mem hd).1 (heq ▸ List.getElem_mem _)

/-- The way over the tile latches, from the last one outward. -/
theorem TileBlocks.avoids_latch (h : TileBlocks F L preheader exit exiting headers latches)
    {d : BlockId} (hd : d ∈ F.blocks.map Prod.fst) (hne : exiting ≠ d)
    (hpath : Avoids (TiledEdge F L preheader exit headers latches) d entry exiting) {i : Nat}
    {b : BlockId} (hb : latches[i]? = some b) :
    Avoids (TiledEdge F L preheader exit headers latches) d entry b := by
  obtain ⟨hexmem, hexit, _, _⟩ := exitBlock_spec h.exit h.exiting
  obtain ⟨hi, _⟩ := List.getElem?_eq_some_iff.mp hb
  -- the induction is on the number of latches behind this one
  obtain ⟨k, hk⟩ := Nat.exists_eq_add_of_lt hi
  induction k generalizing i b with
  | zero =>
      have hlast : latches.getLast? = some b := by
        rw [List.getLast?_eq_getElem?, hk]
        exact hb
      exact hpath.tail (.leave hexmem hexit hlast) hne
  | succ k ih =>
      have hnext : i + 1 < latches.length := by omega
      have hedge : latches[i + 1]? = some latches[i + 1] := List.getElem?_eq_getElem hnext
      refine (ih hedge hnext rfl (by omega)).tail (.outward i hedge hb) ?_
      intro heq
      exact (h.not_mem hd).2 (heq ▸ List.getElem_mem _)

/-- The paths of the original nest are still there, over the new blocks. -/
theorem avoids_tiled (h : TileBlocks F L preheader exit exiting headers latches) {d : BlockId}
    (hd : d ∈ F.blocks.map Prod.fst) {b : BlockId} (hpath : Avoids F.Edge d entry b) :
    Avoids (TiledEdge F L preheader exit headers latches) d entry b := by
  obtain ⟨_, _, _, hpreonly⟩ := loopPreheader_spec h.preheader
  obtain ⟨_, _, hexout, hexonly⟩ := exitBlock_spec h.exit h.exiting
  induction hpath with
  | refl => exact ReflTransGen.refl
  | @tail a c _ hstep ih =>
      by_cases ha : a = preheader
      · subst ha
        obtain rfl := hpreonly c hstep.1
        have hlast := List.getLast?_eq_some_getLast h.ne_nil
        rw [List.getLast?_eq_getElem?] at hlast
        refine (h.avoids_header hd hstep.2 ih hlast).tail
          (.point (List.getLast?_eq_some_getLast h.ne_nil)) ?_
        intro heq
        exact (h.not_mem hd).1 (heq ▸ List.getLast_mem _)
      · by_cases hleave : a ∈ L.blocks ∧ c = exit
        · obtain ⟨hmem, rfl⟩ := hleave
          obtain ⟨rfl, _⟩ := hexonly a hmem c hstep.1 hexout
          have hlatches : latches ≠ [] := by
            intro hnil
            have hlength := h.length_eq
            rw [hnil, List.length_nil, eq_comm, List.length_eq_zero_iff] at hlength
            exact h.ne_nil hlength
          have hhead := List.head?_eq_some_head hlatches
          have hfirst := hhead
          rw [List.head?_eq_getElem?] at hfirst
          refine (h.avoids_latch hd hstep.2 ih hfirst).tail (.finish hhead) ?_
          intro heq
          exact (h.not_mem hd).2 (heq ▸ List.head_mem _)
        · exact ih.tail (.other hstep.1 ha hleave) hstep.2

/-- Tiling keeps the dominance between the blocks that were there. -/
theorem dominates_tiled_iff (hF : F.SSAForm entry) (hL : L.Headed F entry)
    (h : TileBlocks F L preheader exit exiting headers latches) {d b : BlockId}
    (hd : d ∈ F.blocks.map Prod.fst) (hb : b ∈ F.blocks.map Prod.fst) :
    Dominates (TiledEdge F L preheader exit headers latches) entry d b ↔
      Dominates F.Edge entry d b := by
  constructor
  · intro hdom hne hpath
    exact hdom hne (avoids_tiled h hd hpath)
  · intro hdom hne hpath
    exact hdom hne ((tiledInvariant_of_mem h hb).mp (tiledInvariant_of_avoids hF hL h hpath))

/-- A tile header is dominated by what dominates the preheader. -/
theorem dominates_tiled_header (hF : F.SSAForm entry) (hL : L.Headed F entry)
    (h : TileBlocks F L preheader exit exiting headers latches) {d b : BlockId}
    (hd : d ∈ F.blocks.map Prod.fst) (hb : b ∈ headers) :
    Dominates (TiledEdge F L preheader exit headers latches) entry d b ↔
      Dominates F.Edge entry d preheader := by
  have hne : b ≠ d := fun heq => (h.not_mem hd).1 (heq ▸ hb)
  constructor
  · intro hdom hne' hpath
    obtain ⟨i, hi⟩ := List.getElem?_of_mem hb
    exact hdom hne (h.avoids_header hd hne' (avoids_tiled h hd hpath) hi)
  · intro hdom _ hpath
    obtain ⟨hne', hpath'⟩ :=
      (tiledInvariant_header hb).mp (tiledInvariant_of_avoids hF hL h hpath)
    exact hdom hne' hpath'

/-- A tile latch is dominated by what dominates the exiting block of the nest. -/
theorem dominates_tiled_latch (hF : F.SSAForm entry) (hL : L.Headed F entry)
    (h : TileBlocks F L preheader exit exiting headers latches) {d b : BlockId}
    (hd : d ∈ F.blocks.map Prod.fst) (hb : b ∈ latches) :
    Dominates (TiledEdge F L preheader exit headers latches) entry d b ↔
      Dominates F.Edge entry d exiting := by
  have hne : b ≠ d := fun heq => (h.not_mem hd).2 (heq ▸ hb)
  constructor
  · intro hdom hne' hpath
    obtain ⟨i, hi⟩ := List.getElem?_of_mem hb
    exact hdom hne (h.avoids_latch hd hne' (avoids_tiled h hd hpath) hi)
  · intro hdom _ hpath
    obtain ⟨hne', hpath'⟩ :=
      (tiledInvariant_latch h hb).mp (tiledInvariant_of_avoids hF hL h hpath)
    exact hdom hne' hpath'

end Graph

section Program

/-- The blocks that a path of the example gets to without leaving the given one. -/
def exampleAvoiding : BlockId → List BlockId
  | 0 => [0]
  | 1 => [0, 1]
  | 2 => [0, 1, 2, 6]
  | 3 => [0, 1, 2, 3, 6]
  | _ => [0, 1, 2, 3, 4, 5, 6]

theorem exampleFunction_ssaForm : (Payload.function {} .slt).SSAForm 0 :=
  Function.ssaForm_of_checkSSA exampleAvoiding (by decide)

theorem exampleOuter_tileBlocks :
    TileBlocks (Payload.function {} .slt) exampleOuter 0 6 1 [7, 9] [8, 10] where
  preheader := rfl
  exit := rfl
  exiting := rfl
  length_eq := rfl
  ne_nil := by decide
  nodup := by decide
  fresh := by decide

end Program

end PolyhedralPass
