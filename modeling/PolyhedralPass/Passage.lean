/-
A nest as it is executed.  From its preheader on, the blocks of a nest of counted loops
pass through all iterations of the box, one after the other, and come to its exit with the
memory that the iterations leave.
-/
import PolyhedralPass.Schedule.Rounds
import PolyhedralPass.Stepping

namespace PolyhedralPass

open Schedule

section Shape

variable (F : Function) (home : List BlockId)

/-- The block computes, and leaves memory alone. -/
def Function.Quiet (block : BlockId) : Prop :=
  ∀ line ∈ F.code block, ∃ operands, line.op = .compute operands

instance (block : BlockId) : Decidable (F.Quiet block) := by
  refine decidable_of_iff (∀ line ∈ F.code block, line.op.pointer? = none) ?_
  refine forall₂_congr fun line _ => ?_
  cases line.op <;> simp [Straight.Op.pointer?]

/-- Blocks that are passed one after the other, up to the target. -/
def Function.Lane (target : BlockId) : List BlockId → Prop
  | [] => True
  | block :: rest => block ∈ home ∧ F.phis block = [] ∧ F.TouchesByAccess block ∧
      (∃ value type, F.terminator? block = some ⟨value, type, .br (rest.headD target)⟩) ∧
      Lane target rest

/-- A loop whose header holds its test and no scalar but the induction variable. -/
structure LoopDescriptor.TestedAtTop (loop : LoopDescriptor) (inside exit : BlockId) : Prop where
  home : loop.loopNode.header ∈ home
  phis : (F.phis loop.loopNode.header).map Prod.fst = [loop.induction]
  touches : F.TouchesByAccess loop.loopNode.header
  quiet : F.Quiet loop.loopNode.header
  compare : ∃ inst ∈ F.insts loop.loopNode.header, inst.value = loop.compare
  terminator : ∃ value type, F.terminator? loop.loopNode.header =
    some ⟨value, type, .condBr loop.compare inside exit⟩

/-- The blocks of nested loops between a preheader and an exit. -/
inductive Tower : List LoopDescriptor → BlockId → BlockId → Prop
  | innermost {loop : LoopDescriptor} {pre latch exit : BlockId} {blocks : List BlockId}
      (tested : loop.TestedAtTop F home (blocks.headD loop.loopNode.header) exit)
      (preheader : loop.loopNode.loopPreheader F = some pre)
      (latch_eq : loop.loopNode.loopLatch F = some latch)
      (lane : F.Lane home loop.loopNode.header blocks) (last : blocks.getLast? = some latch)
      (next : ∃ inst ∈ F.insts latch, inst.value = loop.nextValue)
      (blocks_eq : loop.loopNode.blocks = loop.loopNode.header :: blocks) : Tower [loop] pre exit
  | around {loop inner : LoopDescriptor} {rest : List LoopDescriptor}
      {pre latch exit pre' exit' : BlockId} {front back : List BlockId}
      (tested : loop.TestedAtTop F home (front.headD inner.loopNode.header) exit)
      (preheader : loop.loopNode.loopPreheader F = some pre)
      (latch_eq : loop.loopNode.loopLatch F = some latch)
      (front_lane : F.Lane home inner.loopNode.header front)
      (front_last : front.getLast? = some pre') (inside : Tower (inner :: rest) pre' exit')
      (back_lane : F.Lane home loop.loopNode.header back) (back_head : back.head? = some exit')
      (back_last : back.getLast? = some latch)
      (quiet : ∀ block ∈ front ++ back, F.Quiet block)
      (next : ∃ inst ∈ F.insts latch, inst.value = loop.nextValue) :
      Tower (loop :: inner :: rest) pre exit

/-- The loop counts from zero to the bound in its descriptor, in steps of one. -/
structure LoopDescriptor.Counts (loop : LoopDescriptor) (w : Nat) : Prop where
  start : ∃ pre startValue, loop.loopNode.loopPreheader F = some pre ∧
    F.incomingValueForBlock loop.induction pre = some startValue ∧
      F.constant startValue = some (wordOf w 0)
  next : ∃ latch, loop.loopNode.loopLatch F = some latch ∧
    F.incomingValueForBlock loop.induction latch = some loop.nextValue
  step : ∃ type one, F.inst? loop.nextValue = some ⟨loop.nextValue, type, .add loop.induction one⟩ ∧
    F.constant one = some (wordOf w 1)
  test : ∃ type, F.inst? loop.compare =
    some ⟨loop.compare, type, .icmp .slt loop.induction loop.boundValue⟩
  bound : ∃ bits : BitVec w, F.constant loop.boundValue = some ⟨w, bits⟩ ∧
    bits.toInt = loop.bounds.upper.constant.toInt

/-- The values the blocks define. -/
def Function.definedIn : List Value := home.flatMap fun block => (F.insts block).map Inst.value

/-- What an iteration may read besides what it computes itself. -/
def LoopNestDescriptor.live (nest : LoopNestDescriptor) : Set Value :=
  { value | value ∉ F.definedIn home ∨ ∃ loop ∈ nest.loops, loop.induction = value }

/-- A nest of counted loops of one type around straight-line code. -/
structure LoopNestDescriptor.Structured (nest : LoopNestDescriptor) (w : Nat)
    (pre exit : BlockId) : Prop where
  width_pos : 0 < w
  tower : Tower F home nest.loops pre exit
  counts : ∀ loop ∈ nest.loops, loop.Counts F w
  inductions : (nest.loops.map LoopDescriptor.induction).Nodup
  reads : Straight.ReadsOnly (nest.live F home) ((nest.body F).map Inst.line)

end Shape

section Order

variable {F : Function} {home : List BlockId} {w : Nat} {start registers : Value → Word}
  {outer : List (LoopDescriptor × Int)}

/-- The registers of outside hold what they held in front of the nest, and the induction
variables of the loops around hold their values. -/
structure InOrder (F : Function) (home : List BlockId) (w : Nat) (start : Value → Word)
    (outer : List (LoopDescriptor × Int)) (registers : Value → Word) : Prop where
  outside : ∀ value, value ∉ F.definedIn home → registers value = start value
  indices : ∀ round ∈ outer, registers round.1.induction = wordOf w round.2

theorem InOrder.of_kept {registers' : Value → Word} (h : InOrder F home w start outer registers)
    (houtside : ∀ value, value ∉ F.definedIn home → registers' value = registers value)
    (hindices : ∀ round ∈ outer, registers' round.1.induction = registers round.1.induction) :
    InOrder F home w start outer registers' where
  outside value hvalue := (houtside value hvalue).trans (h.outside value hvalue)
  indices round hround := (hindices round hround).trans (h.indices round hround)

/-- In front of the nest no loop is under way. -/
theorem InOrder.nil (registers : Value → Word) : InOrder F home w registers [] registers where
  outside _ _ := rfl
  indices _ hround := absurd hround List.not_mem_nil

theorem InOrder.init {round : LoopDescriptor × Int}
    (h : InOrder F home w start (outer ++ [round]) registers) :
    InOrder F home w start outer registers :=
  ⟨h.outside, fun other hother => h.indices other (List.mem_append_left _ hother)⟩

theorem InOrder.last {round : LoopDescriptor × Int}
    (h : InOrder F home w start (outer ++ [round]) registers) :
    registers round.1.induction = wordOf w round.2 :=
  h.indices round (List.mem_append_right outer List.mem_cons_self)

/-- Lines of the nest, none of them for an induction variable. -/
def OfNest (F : Function) (home : List BlockId) (loops : List LoopDescriptor)
    (lines : List (Straight.Line Value)) : Prop :=
  ∀ line ∈ lines, line.dest ∈ F.definedIn home ∧ ∀ loop ∈ loops, line.dest ≠ loop.induction

theorem InOrder.exec {κ : Type} [DecidableEq κ] {machine : Straight.Machine Value κ Word}
    {lines : List (Straight.Line Value)} {state : Straight.State Value κ Word}
    (h : InOrder F home w start outer state.registers) {loops : List LoopDescriptor}
    (hlines : OfNest F home loops lines) (houter : outer.map Prod.fst ⊆ loops) :
    InOrder F home w start outer (Straight.exec machine lines state).registers := by
  refine h.of_kept (fun value hvalue => ?_) fun round hround => ?_
  · apply Straight.exec_of_ne
    rintro line hline rfl
    exact hvalue (hlines line hline).1
  · apply Straight.exec_of_ne
    intro line hline
    exact (hlines line hline).2 round.1 (houter (List.mem_map_of_mem hround))

end Order

section Lines

variable {F : Function} {home : List BlockId} {w : Nat}

theorem mem_code {block : BlockId} {line : Straight.Line Value} : line ∈ F.code block ↔
    ∃ inst ∈ F.insts block, (inst.kind.isPhi = false ∧ inst.kind.isTerminator = false) ∧
      inst.line = line := by
  simp [Function.code, and_assoc]

theorem mem_map_phis {block : BlockId} {value : Value} :
    value ∈ (F.phis block).map Prod.fst ↔
      ∃ inst ∈ F.insts block, inst.value = value ∧ inst.kind.isPhi = true := by
  constructor
  · intro h
    obtain ⟨⟨_, incoming⟩, hphi, rfl⟩ := List.mem_map.mp h
    obtain ⟨inst, hinst, hvalue, hkind⟩ := mem_phis.mp hphi
    exact ⟨inst, hinst, hvalue, by rw [hkind]; rfl⟩
  · rintro ⟨inst, hinst, rfl, hphi⟩
    cases hkind : inst.kind with
    | phi incoming =>
        exact List.mem_map.mpr ⟨(inst.value, incoming), mem_phis.mpr ⟨inst, hinst, rfl, hkind⟩, rfl⟩
    | _ => simp [hkind, InstKind.isPhi] at hphi

/-- An instruction that computes a value is the only line for it. -/
theorem line_eq_of_dest (hF : F.Distinct) {block : BlockId} {inst : Inst}
    (hinst : F.inst? inst.value = some inst) {line : Straight.Line Value}
    (hline : line ∈ F.code block) (hdest : line.dest = inst.value) : line = inst.line := by
  obtain ⟨other, hother, _, rfl⟩ := mem_code.mp hline
  rw [Function.eq_of_value_eq hF.values_nodup (Function.mem_allInsts hother)
    ((Function.inst?_eq_some hF.values_nodup).mp hinst).1 hdest]

/-- A constant is no value the nest defines. -/
theorem not_mem_definedIn_of_constant (hF : F.Distinct) {value : Value} {c : Word}
    (h : F.constant value = some c) : value ∉ F.definedIn home := by
  intro hmem
  obtain ⟨block, _, hvalue⟩ := List.mem_flatMap.mp hmem
  obtain ⟨inst, hinst, rfl⟩ := List.mem_map.mp hvalue
  rw [hF.constants inst (Function.mem_allInsts hinst)] at h
  exact absurd h (by simp)

/-- The induction variables are PHI nodes of the nest. -/
structure IsIndex (F : Function) (home : List BlockId) (loop : LoopDescriptor) : Prop where
  header : loop.loopNode.header ∈ home
  phis : (F.phis loop.loopNode.header).map Prod.fst = [loop.induction]

theorem IsIndex.inst {loop : LoopDescriptor} (h : IsIndex F home loop) :
    ∃ inst ∈ F.insts loop.loopNode.header, inst.value = loop.induction ∧
      inst.kind.isPhi = true := by
  rw [← mem_map_phis, h.phis]
  exact List.mem_singleton_self loop.induction

theorem IsIndex.mem_definedIn {loop : LoopDescriptor} (h : IsIndex F home loop) :
    loop.induction ∈ F.definedIn home := by
  obtain ⟨inst, hinst, hvalue, _⟩ := h.inst
  exact List.mem_flatMap.mpr ⟨_, h.header, List.mem_map.mpr ⟨inst, hinst, hvalue⟩⟩

theorem ofNest_code (hF : F.Distinct) {loops : List LoopDescriptor}
    (hloops : ∀ loop ∈ loops, IsIndex F home loop) {block : BlockId} (hblock : block ∈ home) :
    OfNest F home loops (F.code block) := by
  intro line hline
  obtain ⟨inst, hinst, ⟨hphi, _⟩, rfl⟩ := mem_code.mp hline
  refine ⟨List.mem_flatMap.mpr ⟨block, hblock, List.mem_map_of_mem hinst⟩, ?_⟩
  intro loop hloop heq
  obtain ⟨index, hindex, hvalue, hisPhi⟩ := (hloops loop hloop).inst
  have hsame := Function.eq_of_value_eq hF.values_nodup (Function.mem_allInsts hinst)
    (Function.mem_allInsts hindex) (heq.trans hvalue.symm)
  rw [hsame, hisPhi] at hphi
  exact absurd hphi (by simp)

end Lines

section Blocks

variable {κ : Type} [DecidableEq κ] {F : Function} {home : List BlockId} {w : Nat}
  (target : Target κ)

/-- A lane is passed with its instructions executed in order. -/
theorem steps_of_lane {dest : BlockId} {blocks : List BlockId} (hlane : F.Lane home dest blocks)
    (config : Config κ) (hblock : config.block = blocks.headD dest) :
    ∃ config', F.Passes target home config config' ∧ config'.block = dest ∧
      config'.pred = blocks.getLast?.getD config.pred ∧
      config'.state = Straight.exec (F.machine target) (blocks.flatMap F.code) config.state := by
  induction blocks generalizing config with
  | nil => exact ⟨config, .refl, hblock, rfl, rfl⟩
  | cons block rest ih =>
      obtain ⟨hhome, hphis, htouches, ⟨value, type, hterminator⟩, hrest⟩ := hlane
      obtain rfl : config.block = block := hblock
      have hbehind : F.behind target config =
          Straight.exec (F.machine target) (F.code config.block) config.state := by
        rw [Function.behind, enter_of_phis_nil hphis]
        rfl
      have hstep := @stepBlock_eq κ _ F target config htouches _ hterminator (rest.headD dest) rfl
      obtain ⟨config', hsteps, hdest, hpred, hstate⟩ := ih hrest ⟨rest.headD dest, config.block,
        (F.behind target config).registers, (F.behind target config).memory⟩ rfl
      refine ⟨config', .head hhome hstep hsteps, hdest, ?_, ?_⟩
      · rw [hpred, List.getLast?_cons, Option.getD_some]
      · rw [hstate, List.flatMap_cons, Straight.exec_append, ← hbehind]
        rfl

omit [DecidableEq κ] in
theorem mem_of_lane {dest : BlockId} {blocks : List BlockId} (hlane : F.Lane home dest blocks)
    {block : BlockId} (hblock : block ∈ blocks) : block ∈ home ∧ F.phis block = [] := by
  induction blocks with
  | nil => exact absurd hblock List.not_mem_nil
  | cons first rest ih =>
      obtain ⟨hhome, hphis, _, _, hrest⟩ := hlane
      rcases List.mem_cons.mp hblock with rfl | hblock
      · exact ⟨hhome, hphis⟩
      · exact ih hrest hblock

theorem ofNest_flatMap (hF : F.Distinct) {loops : List LoopDescriptor}
    (hloops : ∀ loop ∈ loops, IsIndex F home loop) {dest : BlockId} {blocks : List BlockId}
    (hlane : F.Lane home dest blocks) : OfNest F home loops (blocks.flatMap F.code) := by
  intro line hline
  obtain ⟨block, hblock, hcode⟩ := List.mem_flatMap.mp hline
  exact ofNest_code hF hloops (mem_of_lane hlane hblock).1 line hcode

/-- The register of an instruction that adds or compares an induction variable and a value of
outside, behind the lines it is one of. -/
theorem exec_binary (hF : F.Distinct) {loops : List LoopDescriptor} {loop : LoopDescriptor}
    (hloop : loop ∈ loops) {blocks : List BlockId}
    (hlines : OfNest F home loops (blocks.flatMap F.code)) {inst : Inst} {block : BlockId}
    (hblock : block ∈ blocks) (hmem : inst ∈ F.insts block) {other : Value}
    (hop : inst.kind.op = .compute [loop.induction, other]) (hphi : inst.kind.isPhi = false)
    (hterminator : inst.kind.isTerminator = false) (hother : other ∉ F.definedIn home)
    {state : Straight.State Value κ Word} {a b : Word} (ha : state.registers loop.induction = a)
    (hb : state.registers other = b) :
    (Straight.exec (F.machine target) (blocks.flatMap F.code) state).registers inst.value =
      (F.machine target).result inst.value [a, b] := by
  have hinst : F.inst? inst.value = some inst :=
    (Function.inst?_eq_some hF.values_nodup).mpr ⟨Function.mem_allInsts hmem, rfl⟩
  have hline : inst.line = ⟨inst.value, .compute [loop.induction, other]⟩ := by
    rw [Inst.line, hop]
  have hoperands : [a, b] = [loop.induction, other].map state.registers := by simp [ha, hb]
  rw [hoperands]
  apply Straight.exec_register
  · rw [← hline]
    exact List.mem_flatMap.mpr ⟨block, hblock, mem_code.mpr ⟨inst, hmem, ⟨hphi, hterminator⟩, rfl⟩⟩
  · intro line hmem' hdest
    obtain ⟨block', _, hcode⟩ := List.mem_flatMap.mp hmem'
    rw [line_eq_of_dest hF hinst hcode hdest, hline]
  · intro operand hoperand line hmem'
    obtain ⟨hdefined, hne⟩ := hlines line hmem'
    rcases List.mem_pair.mp hoperand with rfl | rfl
    · exact hne loop hloop
    · exact fun heq => hother (heq ▸ hdefined)

theorem memory_of_quiet {blocks : List BlockId} (hquiet : ∀ block ∈ blocks, F.Quiet block)
    (state : Straight.State Value κ Word) :
    (Straight.exec (F.machine target) (blocks.flatMap F.code) state).memory = state.memory := by
  apply Straight.exec_memory_of_computes
  intro line hline
  obtain ⟨block, hblock, hcode⟩ := List.mem_flatMap.mp hline
  exact hquiet block hblock line hcode

/-- A lane of blocks that only compute. -/
theorem InOrder.steps_of_quiet {start : Value → Word} {rounds : List (LoopDescriptor × Int)}
    (config : Config κ) (h : InOrder F home w start rounds config.registers) (hF : F.Distinct)
    {loops : List LoopDescriptor} (hloops : ∀ loop ∈ loops, IsIndex F home loop)
    (hrounds : rounds.map Prod.fst ⊆ loops) {dest : BlockId} {blocks : List BlockId}
    (hlane : F.Lane home dest blocks) (hquiet : ∀ block ∈ blocks, F.Quiet block)
    (hblock : config.block = blocks.headD dest) :
    ∃ config', F.Passes target home config config' ∧ config'.block = dest ∧
      config'.pred = blocks.getLast?.getD config.pred ∧
      InOrder F home w start rounds config'.registers ∧ config'.memory = config.memory := by
  obtain ⟨config', hsteps, hdest, hpred, hstate⟩ :=
    steps_of_lane target hlane config hblock
  have hlines := ofNest_flatMap hF hloops hlane
  have hexec := @InOrder.exec F home w start rounds κ _ (F.machine target) _ config.state h loops
    hlines hrounds
  rw [← hstate] at hexec
  refine ⟨config', hsteps, hdest, hpred, hexec, ?_⟩
  have hmemory := memory_of_quiet target hquiet config.state
  rwa [← hstate] at hmemory

end Blocks

section Round

variable {κ : Type} [DecidableEq κ] {F : Function} {home : List BlockId} {w : Nat}
  (target : Target κ) {start : Value → Word} {loop : LoopDescriptor}
  {outer : List (LoopDescriptor × Int)} {v : Int} {config : Config κ} {inside exit : BlockId}

def LoopDescriptor.upper (loop : LoopDescriptor) : Int := loop.bounds.upper.constant.toInt

/-- At the head of a loop that is to go on with a value. -/
structure AtHead (F : Function) (home : List BlockId) (w : Nat) (start : Value → Word)
    (loop : LoopDescriptor) (outer : List (LoopDescriptor × Int)) (v : Int) (config : Config κ) :
    Prop where
  block : config.block = loop.loopNode.header
  value : (F.incomingValueForBlock loop.induction config.pred).map config.registers =
    some (wordOf w v)
  order : InOrder F home w start outer config.registers
  low : 0 ≤ v
  high : v ≤ max 0 loop.upper

omit [DecidableEq κ] in
theorem AtHead.mem_home (h : AtHead F home w start loop outer v config)
    (hheader : loop.loopNode.header ∈ home) : config.block ∈ home := by
  rwa [h.block]

omit [DecidableEq κ] in
/-- The registers behind the PHI node of the loop. -/
theorem AtHead.enter (h : AtHead F home w start loop outer v config)
    (hindex : IsIndex F home loop) (hne : ∀ round ∈ outer, round.1.induction ≠ loop.induction) :
    InOrder F home w start (outer ++ [(loop, v)]) (F.enter config) := by
  have hphis : (F.phis config.block).map Prod.fst = [loop.induction] := by
    rw [h.block, hindex.phis]
  have hkept : ∀ value, value ≠ loop.induction →
      F.enter config value = config.registers value := by
    intro value hvalue
    simp [Function.enter, hphis, hvalue]
  have hown : F.enter config loop.induction = wordOf w v := by
    simp [Function.enter, hphis, h.value]
  constructor
  · intro value hvalue
    rw [hkept value (fun heq => hvalue (heq ▸ hindex.mem_definedIn)), h.order.outside value hvalue]
  · intro round hround
    rcases List.mem_append.mp hround with hround | hround
    · rw [hkept _ (hne round hround), h.order.indices round hround]
    · rw [List.mem_singleton.mp hround, hown]

/-- The test at the head of a loop, which comes out as the value and the bound demand. -/
theorem AtHead.test (h : AtHead F home w start loop outer v config) (hF : F.Distinct)
    (hw : 0 < w) (hconstants : ∀ value c, F.constant value = some c → start value = c)
    (hcounts : loop.Counts F w) (htested : loop.TestedAtTop F home inside exit)
    {loops : List LoopDescriptor} (hloops : ∀ loop ∈ loops, IsIndex F home loop)
    (hloop : loop ∈ loops) (houter : outer.map Prod.fst ⊆ loops)
    (hne : ∀ round ∈ outer, round.1.induction ≠ loop.induction) :
    (F.behind target config).memory = config.memory ∧
      InOrder F home w start (outer ++ [(loop, v)]) (F.behind target config).registers ∧
      F.stepBlock target config = some ⟨if v < loop.upper then inside else exit,
        loop.loopNode.header, (F.behind target config).registers, config.memory⟩ := by
  have henter := h.enter (hloops loop hloop) hne
  have hlines := ofNest_code hF hloops htested.home
  have hbehind : F.behind target config = Straight.exec (F.machine target)
      (F.code loop.loopNode.header) ⟨F.enter config, config.memory⟩ := by
    rw [Function.behind, h.block]
  have hmemory : (F.behind target config).memory = config.memory := by
    rw [hbehind]
    exact Straight.exec_memory_of_computes htested.quiet _
  have horder :
      InOrder F home w start (outer ++ [(loop, v)]) (F.behind target config).registers := by
    rw [hbehind]
    refine InOrder.exec henter hlines ?_
    rw [List.map_append, List.append_subset]
    exact ⟨houter, by simpa using hloop⟩
  refine ⟨hmemory, horder, ?_⟩
  obtain ⟨value, type, hterminator⟩ := htested.terminator
  have htouches := htested.touches
  rw [← h.block] at hterminator htouches
  have hchosen : Function.chosen target ⟨value, type, .condBr loop.compare inside exit⟩
      (F.behind target config).registers = some (if v < loop.upper then inside else exit) := by
    obtain ⟨type, htest⟩ := hcounts.test
    obtain ⟨bits, hbits, hupper⟩ := hcounts.bound
    obtain ⟨inst, hinst, hvalue⟩ := htested.compare
    have hsame : inst = ⟨loop.compare, type, .icmp .slt loop.induction loop.boundValue⟩ := by
      have hfound := (Function.inst?_eq_some hF.values_nodup).mpr
        ⟨Function.mem_allInsts hinst, hvalue⟩
      exact Option.some.inj (hfound.symm.trans htest)
    have houtside : loop.boundValue ∉ F.definedIn home := not_mem_definedIn_of_constant hF hbits
    have hregister : (F.behind target config).registers loop.compare =
        ConstInt.compare .slt (wordOf w v) ⟨w, bits⟩ := by
      have hexec := @exec_binary κ _ F home target hF loops loop hloop [loop.loopNode.header]
        (by simpa using hlines) inst _ (List.mem_singleton_self _) hinst loop.boundValue
        (by rw [hsame]; rfl) (by rw [hsame]; rfl) (by rw [hsame]; rfl) houtside
        ⟨F.enter config, config.memory⟩ _ _ henter.last
        ((henter.outside _ houtside).trans (hconstants _ _ hbits))
      rwa [List.flatMap_cons, List.flatMap_nil, List.append_nil, ← hbehind, hvalue,
        machine_icmp htest] at hexec
    have hhigh : v ≤ max 0 bits.toInt := hupper ▸ h.high
    have htrue := isTrue_compare_wordOf hw h.low hhigh
    rw [hupper] at htrue
    simp only [Function.chosen, hregister, htrue, decide_eq_true_eq]
    rfl
  have hstep := stepBlock_eq htouches hterminator hchosen
  rw [hstep, hmemory, h.block]

/-- The lane in front of the latch leads back to the head, with the next value. -/
theorem AtHead.next (hF : F.Distinct)
    (hconstants : ∀ value c, F.constant value = some c → start value = c)
    (hcounts : loop.Counts F w) {loops : List LoopDescriptor}
    (hloops : ∀ loop ∈ loops, IsIndex F home loop) (hloop : loop ∈ loops)
    (houter : outer.map Prod.fst ⊆ loops) {blocks : List BlockId} {latch : BlockId}
    (hlane : F.Lane home loop.loopNode.header blocks) (hlast : blocks.getLast? = some latch)
    (hlatch : loop.loopNode.loopLatch F = some latch)
    (hnext : ∃ inst ∈ F.insts latch, inst.value = loop.nextValue) (hlow : 0 ≤ v)
    (hv : v < loop.upper) (hblock : config.block = blocks.headD loop.loopNode.header)
    (horder : InOrder F home w start (outer ++ [(loop, v)]) config.registers) :
    ∃ config', F.Passes target home config config' ∧
      AtHead F home w start loop outer (v + 1) config' ∧
      config'.memory =
        (Straight.exec (F.machine target) (blocks.flatMap F.code) config.state).memory := by
  obtain ⟨config', hsteps, hheader, hpred, hstate⟩ :=
    steps_of_lane target hlane config hblock
  have hlines := ofNest_flatMap hF hloops hlane
  have hregisters := congrArg Straight.State.registers hstate
  obtain ⟨latch', hlatch', hincoming⟩ := hcounts.next
  obtain rfl := Option.some.inj (hlatch.symm.trans hlatch')
  obtain ⟨type, one, hadd, hone⟩ := hcounts.step
  obtain ⟨inst, hinst, hvalue⟩ := hnext
  have hsame : inst = ⟨loop.nextValue, type, .add loop.induction one⟩ := by
    have hfound := (Function.inst?_eq_some hF.values_nodup).mpr
      ⟨Function.mem_allInsts hinst, hvalue⟩
    exact Option.some.inj (hfound.symm.trans hadd)
  have houtside : one ∉ F.definedIn home := not_mem_definedIn_of_constant hF hone
  have hsubset : (outer ++ [(loop, v)]).map Prod.fst ⊆ loops := by
    rw [List.map_append, List.append_subset]
    exact ⟨houter, by simpa using hloop⟩
  have hsum : config'.registers loop.nextValue = wordOf w (v + 1) := by
    have hexec := @exec_binary κ _ F home target hF loops loop hloop blocks hlines inst latch
      (List.mem_of_getLast? hlast) hinst one (by rw [hsame]; rfl) (by rw [hsame]; rfl)
      (by rw [hsame]; rfl) houtside config.state _ _ horder.last
      ((horder.outside one houtside).trans (hconstants one _ hone))
    rw [hvalue, machine_add hadd, add_wordOf] at hexec
    exact (congrFun hregisters loop.nextValue).trans hexec
  refine ⟨config', hsteps, ⟨hheader, ?_, ?_, by omega, by omega⟩,
    congrArg Straight.State.memory hstate⟩
  · rw [hpred, hlast, Option.getD_some, hincoming, Option.map_some, hsum]
  · have hafter := @InOrder.exec F home w start _ κ _ (F.machine target) _ config.state horder loops
      hlines hsubset
    rw [← hregisters] at hafter
    exact hafter.init

end Round

section Body

variable {κ : Type} [DecidableEq κ] {F : Function} {home : List BlockId} {w : Nat}
  {target : Target κ} {start registers : Value → Word} {nest : LoopNestDescriptor}
  {rounds : List (LoopDescriptor × Int)}

theorem valuation_of_round (hnest : nest.loops = rounds.map Prod.fst)
    (hinductions : (nest.loops.map LoopDescriptor.induction).Nodup) {round : LoopDescriptor × Int}
    (hround : round ∈ rounds) :
    nest.valuation (rounds.map Prod.snd) round.1.induction = round.2 := by
  obtain ⟨k, hk, rfl⟩ := List.getElem_of_mem hround
  have hk' : k < nest.loops.length := by rwa [hnest, List.length_map]
  have hfind : nest.loops.findIdx (·.induction == rounds[k].1.induction) = k := by
    rw [List.findIdx_eq hk']
    refine ⟨by simp [hnest], fun j hj => ?_⟩
    rw [beq_eq_false_iff_ne]
    intro heq
    have hj' : j < (nest.loops.map LoopDescriptor.induction).length := by
      rw [List.length_map]
      exact hj.trans hk'
    have hsame : (nest.loops.map LoopDescriptor.induction)[j]? =
        (nest.loops.map LoopDescriptor.induction)[k]? := by
      rw [List.getElem?_map, List.getElem?_map, List.getElem?_eq_getElem (hj.trans hk'),
        List.getElem?_eq_getElem hk', Option.map_some, heq, Option.map_some]
      simp [hnest]
    exact absurd ((List.getElem?_inj hj' hinductions).mp hsame) (Nat.ne_of_lt hj)
  rw [LoopNestDescriptor.valuation, hfind]
  simp [hk]

omit [DecidableEq κ] in
/-- The registers of an iteration are those it is described with, as far as it reads them. -/
theorem InOrder.entry_eq (h : InOrder F home w start rounds registers)
    (hnest : nest.loops = rounds.map Prod.fst)
    (hinductions : (nest.loops.map LoopDescriptor.induction).Nodup)
    {value : Value} (hvalue : value ∈ nest.live F home) :
    registers value = nest.entry (F.interpretation target w start) (rounds.map Prod.snd) value := by
  by_cases hindex : ∃ loop ∈ nest.loops, loop.induction = value
  · obtain ⟨loop, hloop, rfl⟩ := hindex
    have hany : (nest.loops.any (·.induction == loop.induction)) = true :=
      List.any_eq_true.mpr ⟨loop, hloop, beq_self_eq_true _⟩
    rw [hnest] at hloop
    obtain ⟨⟨_, n⟩, hround, rfl⟩ := List.mem_map.mp hloop
    rw [LoopNestDescriptor.entry, if_pos hany, h.indices _ hround,
      valuation_of_round hnest hinductions hround]
    rfl
  · have hany : (nest.loops.any (·.induction == value)) = false := by
      rw [Bool.eq_false_iff]
      intro htrue
      obtain ⟨loop, hloop, heq⟩ := List.any_eq_true.mp htrue
      exact hindex ⟨loop, hloop, beq_iff_eq.mp heq⟩
    rw [LoopNestDescriptor.entry, hany, h.outside value (hvalue.resolve_right hindex)]
    rfl

/-- In the innermost loop no instruction but the induction variable is a PHI node. -/
theorem isPhi_iff (hF : F.Distinct) {loop : LoopDescriptor} (hindex : IsIndex F home loop)
    {blocks : List BlockId} (hlane : F.Lane home loop.loopNode.header blocks) {block : BlockId}
    (hblock : block ∈ loop.loopNode.header :: blocks) {inst : Inst} (hinst : inst ∈ F.insts block) :
    inst.kind.isPhi = true ↔ inst.value = loop.induction := by
  constructor
  · intro hphi
    have hmem := mem_map_phis.mpr ⟨inst, hinst, rfl, hphi⟩
    rcases List.mem_cons.mp hblock with rfl | hblock
    · rw [hindex.phis] at hmem
      exact List.mem_singleton.mp hmem
    · rw [(mem_of_lane hlane hblock).2] at hmem
      exact absurd hmem List.not_mem_nil
  · intro hvalue
    obtain ⟨other, hother, hsame, hphi⟩ := hindex.inst
    rwa [Function.eq_of_value_eq hF.values_nodup (Function.mem_allInsts hinst)
      (Function.mem_allInsts hother) (hvalue.trans hsame.symm)]

/-- The body of the nest is what the innermost loop executes. -/
theorem body_eq_code (hF : F.Distinct) {loop : LoopDescriptor} (hindex : IsIndex F home loop)
    {blocks : List BlockId} (hlane : F.Lane home loop.loopNode.header blocks)
    (hblocks : loop.loopNode.blocks = loop.loopNode.header :: blocks)
    (hlast : nest.loops.getLast? = some loop) : (nest.body F).map Inst.line =
      (loop.loopNode.header :: blocks).flatMap F.code := by
  simp only [LoopNestDescriptor.body, hlast, hblocks, List.map_flatMap]
  apply List.flatMap_congr
  intro block hblock
  congr 1
  apply List.filter_congr
  intro inst hinst
  have hphi := isPhi_iff hF hindex hlane hblock hinst
  by_cases hvalue : inst.value = loop.induction
  · simp [hvalue, hphi.mpr hvalue]
  · simp [hvalue, Bool.eq_false_iff.mpr (fun h => hvalue (hphi.mp h))]

end Body

section Nest

variable {κ : Type} [DecidableEq κ] {F : Function} {home : List BlockId} {w : Nat}
  {target : Target κ} {start : Value → Word} {nest : LoopNestDescriptor}

theorem Tower.isIndex {loops : List LoopDescriptor} {pre exit : BlockId}
    (h : Tower F home loops pre exit) : ∀ loop ∈ loops, IsIndex F home loop := by
  induction h with
  | innermost tested =>
      intro loop hloop
      rw [List.mem_singleton.mp hloop]
      exact ⟨tested.home, tested.phis⟩
  | around tested preheader latch_eq front_lane front_last inside back_lane back_head back_last
      quiet next ih =>
      intro loop hloop
      rcases List.mem_cons.mp hloop with rfl | hloop
      · exact ⟨tested.home, tested.phis⟩
      · exact ih loop hloop

/-- What all the loops of a nest have in common when it is executed. -/
structure Runnable (F : Function) (home : List BlockId) (w : Nat) (start : Value → Word)
    (nest : LoopNestDescriptor) : Prop where
  distinct : F.Distinct
  width_pos : 0 < w
  constants : ∀ value c, F.constant value = some c → start value = c
  counts : ∀ loop ∈ nest.loops, loop.Counts F w
  indices : ∀ loop ∈ nest.loops, IsIndex F home loop
  inductions : (nest.loops.map LoopDescriptor.induction).Nodup
  reads : Straight.ReadsOnly (nest.live F home) ((nest.body F).map Inst.line)

theorem LoopNestDescriptor.Structured.runnable {pre exit : BlockId}
    (h : nest.Structured F home w pre exit) (hF : F.Distinct)
    (hconstants : ∀ value c, F.constant value = some c → start value = c) :
    Runnable F home w start nest :=
  ⟨hF, h.width_pos, hconstants, h.counts, h.tower.isIndex, h.inductions, h.reads⟩

/-- The memory behind the loops inside some others, which are in the rounds given. -/
def LoopNestDescriptor.executeInside (nest : LoopNestDescriptor) (F : Function)
    (target : Target κ) (w : Nat) (start : Value → Word) (rounds : List (LoopDescriptor × Int))
    (loops : List LoopDescriptor) (memory : κ → Word) : κ → Word :=
  Schedule.run
    (fun y => nest.executeBody F (F.interpretation target w start) (rounds.map Prod.snd ++ y))
    (boxPoints (loops.map LoopDescriptor.upper)) memory

/-- One loop more: its values are passed one after the other. -/
theorem executeInside_cons (rounds : List (LoopDescriptor × Int)) (loop : LoopDescriptor)
    (rest : List LoopDescriptor) (memory : κ → Word) :
    nest.executeInside F target w start rounds (loop :: rest) memory =
      Schedule.run (fun v => nest.executeInside F target w start (rounds ++ [(loop, v)]) rest)
        (countUp loop.upper 0) memory := by
  rw [LoopNestDescriptor.executeInside, boxPoints, List.map_cons, List.map_cons, run_nested_cons]
  apply run_congr
  intro v _
  funext memory
  simp only [LoopNestDescriptor.executeInside, boxPoints, List.map_append, List.map_cons,
    List.map_nil, List.append_assoc, List.singleton_append]

theorem executeInside_nil (rounds : List (LoopDescriptor × Int)) (memory : κ → Word) :
    nest.executeInside F target w start rounds [] memory =
      nest.executeBody F (F.interpretation target w start) (rounds.map Prod.snd) memory := by
  simp [LoopNestDescriptor.executeInside, boxPoints, nested]

variable {rounds : List (LoopDescriptor × Int)} {loop : LoopDescriptor}
  {rest : List LoopDescriptor} {config : Config κ} {v : Int} {pre exit inside : BlockId}

theorem Runnable.induction_ne (hrun : Runnable F home w start nest)
    (hnest : nest.loops = rounds.map Prod.fst ++ loop :: rest) :
    ∀ round ∈ rounds, round.1.induction ≠ loop.induction := by
  intro round hround heq
  have hnodup := hrun.inductions
  rw [hnest, List.map_append, List.nodup_append] at hnodup
  refine hnodup.2.2 _ (List.mem_map_of_mem (List.mem_map_of_mem hround)) _ ?_ heq
  exact List.mem_map_of_mem List.mem_cons_self

omit [DecidableEq κ] in
/-- From its preheader a loop is entered with zero. -/
theorem Runnable.atHead (hrun : Runnable F home w start nest)
    (hnest : nest.loops = rounds.map Prod.fst ++ loop :: rest)
    (hpreheader : loop.loopNode.loopPreheader F = some pre)
    (hblock : config.block = loop.loopNode.header) (hpred : config.pred = pre)
    (horder : InOrder F home w start rounds config.registers) :
    AtHead F home w start loop rounds 0 config := by
  obtain ⟨pre', startValue, hpre', hincoming, hzero⟩ :=
    (hrun.counts loop (by rw [hnest]; simp)).start
  obtain rfl := Option.some.inj (hpre'.symm.trans hpreheader)
  refine ⟨hblock, ?_, horder, le_refl 0, le_max_left 0 _⟩
  rw [hpred, hincoming, Option.map_some,
    horder.outside _ (not_mem_definedIn_of_constant hrun.distinct hzero),
    hrun.constants _ _ hzero]

/-- The test of a loop of the nest. -/
theorem Runnable.test (target : Target κ) (hrun : Runnable F home w start nest)
    (hnest : nest.loops = rounds.map Prod.fst ++ loop :: rest)
    (htested : loop.TestedAtTop F home inside exit)
    (h : AtHead F home w start loop rounds v config) :
    (F.behind target config).memory = config.memory ∧
      InOrder F home w start (rounds ++ [(loop, v)]) (F.behind target config).registers ∧
      F.stepBlock target config = some ⟨if v < loop.upper then inside else exit,
        loop.loopNode.header, (F.behind target config).registers, config.memory⟩ := by
  have hloop : loop ∈ nest.loops := by rw [hnest]; simp
  refine h.test target hrun.distinct hrun.width_pos hrun.constants (hrun.counts loop hloop) htested
    hrun.indices hloop ?_ (hrun.induction_ne hnest)
  rw [hnest]
  exact List.subset_append_left _ _

/-- The way back to the head of a loop of the nest. -/
theorem Runnable.next (target : Target κ) (hrun : Runnable F home w start nest)
    (hnest : nest.loops = rounds.map Prod.fst ++ loop :: rest) {blocks : List BlockId}
    {latch : BlockId} (hlane : F.Lane home loop.loopNode.header blocks)
    (hlast : blocks.getLast? = some latch) (hlatch : loop.loopNode.loopLatch F = some latch)
    (hnext : ∃ inst ∈ F.insts latch, inst.value = loop.nextValue) (hlow : 0 ≤ v)
    (hv : v < loop.upper) (config : Config κ)
    (hblock : config.block = blocks.headD loop.loopNode.header)
    (horder : InOrder F home w start (rounds ++ [(loop, v)]) config.registers) :
    ∃ config', F.Passes target home config config' ∧
      AtHead F home w start loop rounds (v + 1) config' ∧
      config'.memory =
        (Straight.exec (F.machine target) (blocks.flatMap F.code) config.state).memory := by
  have hloop : loop ∈ nest.loops := by rw [hnest]; simp
  refine AtHead.next target hrun.distinct hrun.constants (hrun.counts loop hloop) hrun.indices hloop
    ?_ hlane hlast hlatch hnext hlow hv hblock horder
  rw [hnest]
  exact List.subset_append_left _ _

/-- A loop whose rounds each come back to its head is left behind the last one. -/
theorem Runnable.steps_of_rounds (hrun : Runnable F home w start nest)
    (hnest : nest.loops = rounds.map Prod.fst ++ loop :: rest)
    (htested : loop.TestedAtTop F home inside exit)
    (hround : ∀ v (config : Config κ), v < loop.upper →
      AtHead F home w start loop rounds v config → ∃ config', F.Passes target home config config' ∧
        AtHead F home w start loop rounds (v + 1) config' ∧ config'.memory =
          nest.executeInside F target w start (rounds ++ [(loop, v)]) rest config.memory)
    (h : AtHead F home w start loop rounds 0 config) :
    ∃ config', F.Passes target home config config' ∧ config'.block = exit ∧
      (loop :: rest).head?.map (·.loopNode.header) = some config'.pred ∧
      InOrder F home w start rounds config'.registers ∧
      config'.memory =
        nest.executeInside F target w start rounds (loop :: rest) config.memory := by
  rw [executeInside_cons]
  refine @exists_rounds _ _ _
    (fun v memory config => AtHead F home w start loop rounds v config ∧ config.memory = memory)
    (fun memory config => config.block = exit ∧ some loop.loopNode.header = some config.pred ∧
      InOrder F home w start rounds config.registers ∧ config.memory = memory)
    _ _ ?_ ?_ 0 config.memory config ⟨h, rfl⟩
  · rintro v memory config hv ⟨hhead, rfl⟩
    exact hround v config hv hhead
  · rintro v memory config hv ⟨hhead, rfl⟩
    obtain ⟨_, horder, hstep⟩ := hrun.test target hnest htested hhead
    refine ⟨_, .single ⟨hhead.mem_home htested.home, hstep⟩, ?_, rfl, horder.init, rfl⟩
    exact if_neg (not_lt.mpr hv)

/-- One iteration of the innermost loop has the effect of the body of the nest. -/
theorem Runnable.memory_innermost (hrun : Runnable F home w start nest)
    (hnest : nest.loops = rounds.map Prod.fst ++ [loop]) {blocks : List BlockId}
    (hlane : F.Lane home loop.loopNode.header blocks)
    (hblocks : loop.loopNode.blocks = loop.loopNode.header :: blocks)
    (h : AtHead F home w start loop rounds v config) :
    (Straight.exec (F.machine target) (blocks.flatMap F.code) (F.behind target config)).memory =
      nest.executeInside F target w start (rounds ++ [(loop, v)]) [] config.memory := by
  have hloop : loop ∈ nest.loops := by rw [hnest]; simp
  have hindex := hrun.indices loop hloop
  have hrounds : nest.loops = (rounds ++ [(loop, v)]).map Prod.fst := by
    rw [hnest, List.map_append, List.map_singleton]
  have hlast : nest.loops.getLast? = some loop := by simp [hnest]
  have hbody := body_eq_code hrun.distinct hindex hlane hblocks hlast
  have hreads := hrun.reads
  rw [hbody] at hreads
  rw [executeInside_nil, LoopNestDescriptor.executeBody, hbody]
  rw [Function.behind, h.block, ← Straight.exec_append, ← List.flatMap_cons]
  refine Straight.exec_live hreads (fun value hvalue => ?_) rfl
  exact (h.enter hindex (hrun.induction_ne hnest)).entry_eq hrounds hrun.inductions hvalue

/-- From its preheader a nest is passed to its exit, and executes its body in every iteration
of the loops inside those that are under way. -/
theorem Tower.steps (hrun : Runnable F home w start nest) {loops : List LoopDescriptor}
    (h : Tower F home loops pre exit) {rounds : List (LoopDescriptor × Int)} {config : Config κ}
    (hnest : nest.loops = rounds.map Prod.fst ++ loops)
    (hblock : loops.head?.map (·.loopNode.header) = some config.block) (hpred : config.pred = pre)
    (horder : InOrder F home w start rounds config.registers) :
    ∃ config', F.Passes target home config config' ∧ config'.block = exit ∧
      loops.head?.map (·.loopNode.header) = some config'.pred ∧
      InOrder F home w start rounds config'.registers ∧
      config'.memory = nest.executeInside F target w start rounds loops config.memory := by
  induction h generalizing rounds config with
  | @innermost loop pre latch exit blocks tested preheader latch_eq lane last next blocks_eq =>
      have hhead := hrun.atHead hnest preheader (Option.some.inj hblock).symm hpred horder
      refine hrun.steps_of_rounds hnest tested (fun v config hv hat => ?_) hhead
      obtain ⟨hmemory, hafter, hstep⟩ := hrun.test target hnest tested hat
      have hloop : loop ∈ nest.loops := by rw [hnest]; simp
      obtain ⟨config', hsteps, hnext, hresult⟩ := hrun.next target hnest lane last latch_eq next
        hat.low hv ⟨blocks.headD loop.loopNode.header, loop.loopNode.header,
          (F.behind target config).registers, config.memory⟩ rfl hafter
      rw [if_pos hv] at hstep
      refine ⟨config', .head (hat.mem_home tested.home) hstep hsteps, hnext, ?_⟩
      rw [hresult, ← hrun.memory_innermost hnest lane blocks_eq hat, Config.state, ← hmemory]
  | @around loop inner rest pre latch exit pre' exit' front back tested preheader latch_eq
      front_lane front_last inside back_lane back_head back_last quiet next ih =>
      have hhead := hrun.atHead hnest preheader (Option.some.inj hblock).symm hpred horder
      refine hrun.steps_of_rounds hnest tested (fun v config hv hat => ?_) hhead
      obtain ⟨_, hafter, hstep⟩ := hrun.test target hnest tested hat
      rw [if_pos hv] at hstep
      have hrounds : nest.loops = (rounds ++ [(loop, v)]).map Prod.fst ++ inner :: rest := by
        rw [hnest, List.map_append, List.append_assoc]
        rfl
      have hsubset : (rounds ++ [(loop, v)]).map Prod.fst ⊆ nest.loops := by
        rw [hrounds]
        exact List.subset_append_left _ _
      -- into the inner loop, through it, and from its exit back to the head
      obtain ⟨entered, hfront, hentered, hpred', horder', hkept⟩ := InOrder.steps_of_quiet
        target ⟨front.headD inner.loopNode.header, loop.loopNode.header,
          (F.behind target config).registers, config.memory⟩ hafter hrun.distinct hrun.indices
        hsubset front_lane (fun block hblock => quiet block (List.mem_append_left back hblock)) rfl
      rw [front_last, Option.getD_some] at hpred'
      obtain ⟨left, hinside, hleft, _, horder'', hresult⟩ :=
        ih hrounds (congrArg some hentered.symm) hpred' horder'
      have hback : left.block = back.headD loop.loopNode.header := by
        rw [hleft, List.headD_eq_head?_getD, back_head, Option.getD_some]
      obtain ⟨config', hsteps, hnext, hmemory⟩ := hrun.next target hnest back_lane
        back_last latch_eq next hat.low hv left hback horder''
      rw [memory_of_quiet target fun block hblock =>
        quiet block (List.mem_append_right front hblock)] at hmemory
      refine ⟨config', (Function.Passes.head (hat.mem_home tested.home) hstep hfront).trans
        (hinside.trans hsteps), hnext, ?_⟩
      rw [hmemory, Config.state, hresult, hkept]

/-- The blocks of a structured nest do what its description says: from the preheader they
lead to the exit, and leave the memory that all iterations leave one after the other. -/
theorem steps_of_structured (F : Function) (target : Target κ) (nest : LoopNestDescriptor)
    (home : List BlockId) (w : Nat) (pre exit : BlockId) (hF : F.Distinct)
    (hnest : nest.Structured F home w pre exit) (config : Config κ)
    (hconstants : ∀ value c, F.constant value = some c → config.registers value = c)
    (hblock : nest.loops.head?.map (·.loopNode.header) = some config.block)
    (hpred : config.pred = pre) :
    ∃ config', F.Passes target home config config' ∧ config'.block = exit ∧
      nest.loops.head?.map (·.loopNode.header) = some config'.pred ∧
      (∀ value, value ∉ F.definedIn home → config'.registers value = config.registers value) ∧
      config'.memory =
        nest.execute F (F.interpretation target w config.registers) config.memory := by
  obtain ⟨config', hsteps, hexit, hleft, horder, hmemory⟩ :=
    hnest.tower.steps (hnest.runnable hF hconstants) (List.nil_append _).symm hblock hpred
      (InOrder.nil config.registers)
  exact ⟨config', hsteps, hexit, hleft, horder.outside, hmemory⟩

end Nest

section Analysed

variable (F : Function) (home : List BlockId) (w : Nat)

/-- A constant, and one that is added, has the given width. -/
def Function.HasWidth (value : Value) : Bool :=
  (F.constant value).all (·.width == w) && (F.inst? value).all fun inst =>
    match inst.kind with
    | .add _ rhs => (F.constant rhs).all (·.width == w)
    | _ => true

/-- A loop whose header holds one PHI node and the test of the loop, a comparison of some
value with a constant; the constants that the PHI node starts from and is stepped by have
the width of that one. -/
structure Loop.TestedAtTop (L : Loop) (inside exit : BlockId) : Prop where
  home : L.header ∈ home
  phis : ∃ phi edges, F.phis L.header = [(phi, edges)] ∧ ∀ edge ∈ edges, F.HasWidth w edge.1
  touches : F.TouchesByAccess L.header
  quiet : F.Quiet L.header
  exiting : L.exitingBlock F = some L.header
  test : ∃ value type cond, F.terminator? L.header = some ⟨value, type, .condBr cond inside exit⟩ ∧
    ∃ inst ∈ F.insts L.header, inst.value = cond ∧ ∃ lhs rhs, inst.kind = .icmp .slt lhs rhs ∧
      ∃ bits : BitVec w, F.constant rhs = some ⟨w, bits⟩

/-- What the PHI nodes of a loop are given by its latch is computed there. -/
def Loop.StepsIn (L : Loop) (latch : BlockId) : Prop :=
  ∀ phi ∈ F.phis L.header, ∀ edge ∈ phi.2, edge.2 = latch →
    ∃ inst ∈ F.insts latch, inst.value = edge.1

instance (L : Loop) (latch : BlockId) : Decidable (L.StepsIn F latch) :=
  inferInstanceAs (Decidable (∀ phi ∈ F.phis L.header, ∀ edge ∈ phi.2, edge.2 = latch →
    ∃ inst ∈ F.insts latch, inst.value = edge.1))

/-- The blocks of nested loops between a preheader and an exit. -/
inductive Loop.Nested : List Loop → BlockId → BlockId → Prop
  | innermost {L : Loop} {pre latch exit : BlockId} {blocks : List BlockId}
      (tested : L.TestedAtTop F home w (blocks.headD L.header) exit)
      (preheader : L.loopPreheader F = some pre) (latch_eq : L.loopLatch F = some latch)
      (lane : F.Lane home L.header blocks) (last : blocks.getLast? = some latch)
      (next : L.StepsIn F latch) (blocks_eq : L.blocks = L.header :: blocks) :
      Nested [L] pre exit
  | around {L inner : Loop} {rest : List Loop} {pre latch exit pre' exit' : BlockId}
      {front back : List BlockId} (tested : L.TestedAtTop F home w (front.headD inner.header) exit)
      (preheader : L.loopPreheader F = some pre) (latch_eq : L.loopLatch F = some latch)
      (front_lane : F.Lane home inner.header front) (front_last : front.getLast? = some pre')
      (inside : Nested (inner :: rest) pre' exit') (back_lane : F.Lane home L.header back)
      (back_head : back.head? = some exit') (back_last : back.getLast? = some latch)
      (quiet : ∀ block ∈ front ++ back, F.Quiet block) (next : L.StepsIn F latch) :
      Nested (L :: inner :: rest) pre exit

variable {F home w} {SE : ScalarEvolution} {L : Loop} {loop : LoopDescriptor}
  {inside exit pre latch : BlockId}

theorem Describes.phis_eq (h : Describes F SE L loop) {phi : Value} {edges : List (Value × BlockId)}
    (hphis : F.phis L.header = [(phi, edges)]) : loop.induction = phi := by
  obtain ⟨_, _, hfind⟩ := Option.bind_eq_some_iff.mp h.induction
  have hmem := List.mem_of_find?_eq_some hfind
  rw [hphis] at hmem
  exact List.mem_singleton.mp hmem

/-- What comes in from a block stands on the edge from it. -/
theorem mem_edges_of_incoming (hF : F.Distinct) {block pred : BlockId} {phi value : Value}
    {edges : List (Value × BlockId)} (hphi : (phi, edges) ∈ F.phis block)
    (h : F.incomingValueForBlock phi pred = some value) : (value, pred) ∈ edges := by
  obtain ⟨inst, hinst, rfl, hkind⟩ := mem_phis.mp hphi
  rw [incomingValueForBlock_eq hF hinst hkind] at h
  obtain ⟨edge, hfind, rfl⟩ := Option.map_eq_some_iff.mp h
  have hpred : edge.2 = pred := by simpa using List.find?_some hfind
  exact hpred ▸ List.mem_of_find?_eq_some hfind

theorem width_of_constant {value : Value} (h : F.HasWidth w value) {c : ConstInt}
    (hc : F.constant value = some c) : c.width = w := by
  rw [Function.HasWidth, Bool.and_eq_true, hc] at h
  simpa using h.1

theorem width_of_added {value lhs rhs : Value} (h : F.HasWidth w value) {name : Value}
    {type : IRType} (hinst : F.inst? value = some ⟨name, type, .add lhs rhs⟩) {c : ConstInt}
    (hc : F.constant rhs = some c) : c.width = w := by
  rw [Function.HasWidth, Bool.and_eq_true, hinst] at h
  simpa [hc] using h.2

/-- The comparison of the descriptor is the one in the header. -/
theorem Describes.compare_eq (h : Describes F SE L loop)
    (htested : L.TestedAtTop F home w inside exit) :
    ∃ value type, F.terminator? L.header = some ⟨value, type, .condBr loop.compare inside exit⟩ ∧
      ∃ inst ∈ F.insts L.header, inst.value = loop.compare := by
  obtain ⟨value, type, cond, hterminator, inst, hinst, hvalue, _⟩ := htested.test
  obtain ⟨exiting, hexiting, _, _, cond', _, _, hterminator', _, hcompare⟩ := h.exit
  obtain rfl : L.header = exiting := Option.some.inj (htested.exiting.symm.trans hexiting)
  obtain ⟨_, _, hbranch⟩ := Inst.mk.inj (Option.some.inj (hterminator.symm.trans hterminator'))
  obtain ⟨rfl, _⟩ := InstKind.condBr.inj hbranch
  have hname : loop.compare = cond := by simpa using List.find?_some hcompare
  exact ⟨value, type, hname ▸ hterminator, inst, hinst, hvalue.trans hname.symm⟩

theorem Describes.testedAtTop (h : Describes F SE L loop)
    (htested : L.TestedAtTop F home w inside exit) : loop.TestedAtTop F home inside exit := by
  obtain ⟨phi, edges, hphis, _⟩ := htested.phis
  obtain ⟨value, type, hterminator, hcompare⟩ := h.compare_eq htested
  obtain rfl := h.loopNode
  refine ⟨htested.home, ?_, htested.touches, htested.quiet, hcompare, value, type, hterminator⟩
  rw [hphis, h.phis_eq hphis, List.map_singleton]

/-- A constant of a bound is translated to its value. -/
theorem Describes.toInt_upper (h : Describes F SE L loop) {loops : List Loop}
    (hSE : SE.Sound F loops) (hw : w ≤ 64) {bits : BitVec w}
    (hbound : F.constant loop.boundValue = some ⟨w, bits⟩) :
    bits.toInt = loop.bounds.upper.constant.toInt := by
  have hscev : SE.getSCEV loop.boundValue = .constant w bits := hSE.constant _ _ hbound
  have hlow := bits.le_toInt
  have hhigh := bits.toInt_lt
  have hpow : (2 : Int) ^ (w - 1) ≤ 2 ^ 63 := by
    exact_mod_cast Nat.pow_le_pow_right (by decide) (by omega : w - 1 ≤ 63)
  rw [h.upper, hscev, expr_constant, AffineExpr.ofConstant, toInt_getSExtValue,
    Int.bmod_eq_of_le (by omega) (by omega)]

theorem eq_wordOf {c : ConstInt} {n : Nat} (h : (c.bits == BitVec.ofNat c.width n) = true) :
    c = wordOf c.width n := by
  obtain ⟨width, bits⟩ := c
  have hbits : bits = BitVec.ofNat width n := beq_iff_eq.mp h
  rw [hbits, wordOf, BitVec.ofInt_natCast]

/-- The counter and the bound of the descriptor are those the loop is run with. -/
theorem Describes.counts (h : Describes F SE L loop) (hF : F.Distinct) {loops : List Loop}
    (hSE : SE.Sound F loops) (hw : w ≤ 64) (htested : L.TestedAtTop F home w inside exit) :
    loop.Counts F w := by
  obtain ⟨pre, hpreheader, hstart⟩ := h.preheader
  obtain ⟨latch, hlatch, hnext⟩ := h.latch
  obtain ⟨_, ⟨zero, hzero, hbits⟩, name, type, one, hadd, step, hstep, hone⟩ :=
    canonical_edges h.induction hpreheader hstart hlatch hnext
  obtain ⟨phi, edges, hphis, hwidths⟩ := htested.phis
  obtain rfl := h.phis_eq hphis
  have hphi : (loop.induction, edges) ∈ F.phis L.header := by
    rw [hphis]
    exact List.mem_singleton_self _
  have hzeroWidth := width_of_constant (hwidths _ (mem_edges_of_incoming hF hphi hstart)) hzero
  have honeWidth := width_of_added (hwidths _ (mem_edges_of_incoming hF hphi hnext)) hadd hstep
  have hname : name = loop.nextValue := by simpa using List.find?_some hadd
  obtain rfl := h.loopNode
  -- the comparison in the header is the one the descriptor was built from
  obtain ⟨_, _, cond, hterminator, inst, hinst, hvalue, lhs, rhs, hkind, bits, hrhs⟩ := htested.test
  obtain ⟨exiting, hexiting, _, _, _, _, _, hterminator', type', hcompare⟩ := h.exit
  obtain rfl := Option.some.inj (htested.exiting.symm.trans hexiting)
  obtain ⟨_, _, hbranch⟩ := Inst.mk.inj (Option.some.inj (hterminator.symm.trans hterminator'))
  obtain ⟨rfl, _⟩ := InstKind.condBr.inj hbranch
  have hfound := (Function.inst?_eq_some hF.values_nodup).mpr
    ⟨Function.mem_allInsts hinst, hvalue⟩
  have hsame := Option.some.inj (hfound.symm.trans hcompare)
  rw [hsame] at hkind hvalue
  obtain ⟨hpredicate, rfl, rfl⟩ := InstKind.icmp.inj hkind
  refine ⟨⟨pre, _, hpreheader, hstart, ?_⟩, ⟨latch, hlatch, hnext⟩, ⟨type, one, hname ▸ hadd, ?_⟩,
    ⟨type', ?_⟩, bits, hrhs, h.toInt_upper hSE hw hrhs⟩
  · rw [hzero, eq_wordOf hbits, hzeroWidth, Nat.cast_zero]
  · rw [hstep, eq_wordOf hone, honeWidth, Nat.cast_one]
  · have hcond : loop.compare = cond := hvalue
    rw [← hcond] at hcompare
    rw [← hpredicate, hcompare]

theorem Describes.nextIn (h : Describes F SE L loop) (hF : F.Distinct)
    (hlatch : L.loopLatch F = some latch) (hnext : L.StepsIn F latch) :
    ∃ inst ∈ F.insts latch, inst.value = loop.nextValue := by
  obtain ⟨latch', hlatch', hincoming⟩ := h.latch
  obtain rfl := Option.some.inj (hlatch.symm.trans hlatch')
  obtain ⟨phi, hphi, hvalue, edges, hkind⟩ := h.phi
  have hmem : (loop.induction, edges) ∈ F.phis L.header := mem_phis.mpr ⟨phi, hphi, hvalue, hkind⟩
  exact hnext _ hmem _ (mem_edges_of_incoming hF hmem hincoming) rfl

/-- The descriptors of nested loops see the blocks as they are executed. -/
theorem Loop.Nested.tower {chain : List Loop} (h : Loop.Nested F home w chain pre exit)
    (hF : F.Distinct) {loops : List LoopDescriptor}
    (hloops : List.Forall₂ (Describes F SE) chain loops) : Tower F home loops pre exit := by
  induction h generalizing loops with
  | innermost tested preheader latch_eq lane last next blocks_eq =>
      obtain _ | ⟨hdescribes, _ | _⟩ := hloops
      have htop := hdescribes.testedAtTop tested
      have hnext := hdescribes.nextIn hF latch_eq next
      obtain rfl := hdescribes.loopNode
      exact .innermost htop preheader latch_eq lane last hnext blocks_eq
  | around tested preheader latch_eq front_lane front_last inside back_lane back_head back_last
      quiet next ih =>
      obtain _ | ⟨hdescribes, hrest⟩ := hloops
      have htower := ih hrest
      obtain _ | ⟨hinner, _⟩ := hrest
      have htop := hdescribes.testedAtTop tested
      have hnext := hdescribes.nextIn hF latch_eq next
      obtain rfl := hdescribes.loopNode
      obtain rfl := hinner.loopNode
      exact .around htop preheader latch_eq front_lane front_last htower back_lane back_head
        back_last quiet hnext

theorem Loop.Nested.counts {chain : List Loop} (h : Loop.Nested F home w chain pre exit)
    (hF : F.Distinct) (hSE : SE.Sound F (linearizePerfectNest L)) (hw : w ≤ 64)
    {loops : List LoopDescriptor} (hloops : List.Forall₂ (Describes F SE) chain loops) :
    ∀ loop ∈ loops, loop.Counts F w := by
  induction h generalizing loops with
  | innermost tested =>
      obtain _ | ⟨hdescribes, _ | _⟩ := hloops
      intro loop hloop
      rw [List.mem_singleton.mp hloop]
      exact hdescribes.counts hF hSE hw tested
  | around tested _ _ _ _ _ _ _ _ _ _ ih =>
      obtain _ | ⟨hdescribes, hrest⟩ := hloops
      intro loop hloop
      rcases List.mem_cons.mp hloop with rfl | hloop
      · exact hdescribes.counts hF hSE hw tested
      · exact ih hrest loop hloop

/-- Loops of different headers have different induction variables. -/
theorem nodup_inductions (hF : F.Distinct) {chain : List Loop} {loops : List LoopDescriptor}
    (hloops : List.Forall₂ (Describes F SE) chain loops)
    (hheaders : (chain.map Loop.header).Nodup) :
    (loops.map LoopDescriptor.induction).Nodup := by
  rw [← map_loopNode hloops, List.map_map] at hheaders
  refine List.Nodup.map_on ?_ (List.Nodup.of_map _ hheaders)
  intro loop hloop other hother heq
  refine List.inj_on_of_nodup_map hheaders hloop hother ?_
  have hdescribed : ∀ loop ∈ loops, ∃ L, Describes F SE L loop := fun loop hmem =>
    (List.forall₂_iff_get.mp hloops).elim fun hlength hget => by
      obtain ⟨i, hi, rfl⟩ := List.getElem_of_mem hmem
      exact ⟨_, hget i (hlength ▸ hi) hi⟩
  obtain ⟨L, hL⟩ := hdescribed loop hloop
  obtain ⟨L', hL'⟩ := hdescribed other hother
  obtain ⟨phi, hphi, hvalue, _⟩ := hL.phi
  obtain ⟨phi', hphi', hvalue', _⟩ := hL'.phi
  obtain ⟨i, _, hi⟩ := Function.exists_definedAt hphi
  obtain ⟨j, _, hj⟩ := Function.exists_definedAt hphi'
  rw [hvalue, heq] at hi
  rw [hvalue'] at hj
  have hblocks := (hF.definedAt_unique hi hj).1
  simpa [hL.loopNode, hL'.loopNode] using hblocks

/-- What `analyzeLoopNest` says about loops of this shape is what their blocks do. -/
theorem structured_of_analyzeLoopNest {root : Loop} {nest : LoopNestDescriptor} (hF : F.Distinct)
    (hSE : SE.Sound F (linearizePerfectNest root)) (hw : 0 < w ∧ w ≤ 64)
    (hnest : analyzeLoopNest F SE root = some nest)
    (hnested : Loop.Nested F home w (linearizePerfectNest root) pre exit)
    (hheaders : ((linearizePerfectNest root).map Loop.header).Nodup)
    (hreads : Straight.ReadsOnly (nest.live F home) ((nest.body F).map Inst.line)) :
    nest.Structured F home w pre exit ∧
      nest.loops.head?.map (·.loopNode.header) = some root.header := by
  obtain ⟨_, hloops, _⟩ := describes_of_analyzeLoopNest hnest
  refine ⟨⟨hw.1, hnested.tower hF hloops, hnested.counts hF hSE hw.2 hloops,
    nodup_inductions hF hloops hheaders, hreads⟩, ?_⟩
  have hnodes : (nest.loops.map LoopDescriptor.loopNode).head? = some root := by
    rw [map_loopNode hloops, List.head?_eq_getElem?, head?_linearizePerfectNest]
  rw [List.head?_map] at hnodes
  obtain ⟨outermost, houtermost, hroot⟩ := Option.map_eq_some_iff.mp hnodes
  rw [houtermost, Option.map_some, hroot]

/-- The blocks of loops of this shape do what `analyzeLoopNest` says: from the preheader they
lead to the exit, and leave the memory that all iterations of the nest leave one after the
other. -/
theorem steps_of_analyzeLoopNest {κ : Type} [DecidableEq κ] (F : Function) (SE : ScalarEvolution)
    (target : Target κ) (root : Loop) (nest : LoopNestDescriptor) (home : List BlockId) (w : Nat)
    (pre exit : BlockId) (hF : F.Distinct) (hSE : SE.Sound F (linearizePerfectNest root))
    (hw : 0 < w ∧ w ≤ 64) (hnest : analyzeLoopNest F SE root = some nest)
    (hnested : Loop.Nested F home w (linearizePerfectNest root) pre exit)
    (hheaders : ((linearizePerfectNest root).map Loop.header).Nodup)
    (hreads : Straight.ReadsOnly (nest.live F home) ((nest.body F).map Inst.line))
    (config : Config κ)
    (hconstants : ∀ value c, F.constant value = some c → config.registers value = c)
    (hblock : config.block = root.header) (hpred : config.pred = pre) :
    ∃ config', F.Passes target home config config' ∧ config'.block = exit ∧
      config'.pred = root.header ∧
      (∀ value, value ∉ F.definedIn home → config'.registers value = config.registers value) ∧
      config'.memory =
        nest.execute F (F.interpretation target w config.registers) config.memory := by
  obtain ⟨hstructured, hhead⟩ :=
    structured_of_analyzeLoopNest hF hSE hw hnest hnested hheaders hreads
  obtain ⟨config', hsteps, hexit, hleft, houtside, hmemory⟩ :=
    steps_of_structured F target nest home w pre exit hF hstructured config hconstants
      (hblock ▸ hhead) hpred
  exact ⟨config', hsteps, hexit, (Option.some.inj (hhead.symm.trans hleft)).symm, houtside, hmemory⟩

end Analysed

section Program

/-- A target on which a pointer holds the two indices of an element of `A`. -/
def elementTarget : Target (String × List Int) where
  compute dest operands :=
    match dest, operands with
    | 40, [_, j, i] => ⟨64, BitVec.ofNat 64 (j.bits.toNat * 4294967296 + i.bits.toNat)⟩
    | _, _ => ⟨32, 7⟩
  address pointer :=
    ("A", [((pointer.bits.toNat / 4294967296 : Nat) : Int),
      ((pointer.bits.toNat % 4294967296 : Nat) : Int)])
  pick _ _ := 0
  place element := element
  place_injective _ _ h := h

theorem updateFunction_nested :
    Loop.Nested updateFunction [1, 2, 3, 4, 5] 32 (linearizePerfectNest exampleOuter) 0 6 := by
  have hinside : Loop.Nested updateFunction [1, 2, 3, 4, 5] 32 [exampleInner] 2 5 := by
    refine @Loop.Nested.innermost _ _ _ exampleInner 2 4 5 [4] ?_ rfl rfl ?_ rfl (by decide) rfl
    · exact ⟨by decide, ⟨2, [(8, 2), (6, 4)], rfl, by decide⟩, by decide, by decide, rfl,
        23, .void, 4, rfl, ⟨4, .int 1, .icmp .slt 2 10⟩, by decide, rfl, 2, 10, rfl, 8, rfl⟩
    · exact ⟨by decide, rfl, by decide, ⟨24, .void, rfl⟩, trivial⟩
  refine @Loop.Nested.around _ _ _ exampleOuter exampleInner [] 0 5 6 2 5 [2] [5]
    ?_ rfl rfl ?_ rfl hinside ?_ rfl rfl (by decide) (by decide)
  · exact ⟨by decide, ⟨1, [(8, 0), (5, 5)], rfl, by decide⟩, by decide, by decide, rfl,
      21, .void, 3, rfl, ⟨3, .int 1, .icmp .slt 1 10⟩, by decide, rfl, 1, 10, rfl, 8, rfl⟩
  · exact ⟨by decide, rfl, by decide, ⟨22, .void, rfl⟩, trivial⟩
  · exact ⟨by decide, rfl, by decide, ⟨25, .void, rfl⟩, trivial⟩

theorem updateNest_reads : Straight.ReadsOnly (updateNest.live updateFunction [1, 2, 3, 4, 5])
    ((updateNest.body updateFunction).map Inst.line) := by
  have hlines : (updateNest.body updateFunction).map Inst.line =
      [⟨4, .compute [2, 10]⟩, ⟨40, .compute [30, 2, 1]⟩, ⟨41, .load 40⟩, ⟨42, .compute [41]⟩,
        ⟨43, .store 42 40⟩, ⟨6, .compute [2, 9]⟩] := rfl
  have hindices : ∀ value ∈ [1, 2], value ∈ updateNest.live updateFunction [1, 2, 3, 4, 5] := by
    intro value hvalue
    rcases List.mem_pair.mp hvalue with rfl | rfl
    · exact Or.inr ⟨exampleDescriptor .slt, List.mem_cons_self, rfl⟩
    · exact Or.inr ⟨exampleInnerDescriptor, by simp [updateNest, exampleLoops], rfl⟩
  have houtside : ∀ value ∈ [9, 10, 30],
      value ∈ updateNest.live updateFunction [1, 2, 3, 4, 5] := by
    intro value hvalue
    refine Or.inl ?_
    revert value
    decide
  rw [hlines]
  simp [Straight.ReadsOnly, Straight.Op.operands, Straight.Line.written, hindices, houtside]

/-- All constants of the example, and zero elsewhere. -/
def exampleRegisters (value : Value) : Word := (exampleConstant value).getD ⟨32, 0⟩

theorem updateFunction_steps : ∃ config',
    updateFunction.Passes elementTarget [1, 2, 3, 4, 5]
        ⟨1, 0, exampleRegisters, fun _ => ⟨32, 0⟩⟩ config' ∧
      config'.block = 6 ∧ config'.pred = 1 ∧
      (∀ value, value ∉ updateFunction.definedIn [1, 2, 3, 4, 5] →
        config'.registers value = exampleRegisters value) ∧
      config'.memory = updateNest.execute updateFunction
        (updateFunction.interpretation elementTarget 32 exampleRegisters) fun _ => ⟨32, 0⟩ :=
  steps_of_analyzeLoopNest updateFunction exampleEvolution elementTarget exampleOuter updateNest
    [1, 2, 3, 4, 5] 32 0 6 ⟨by decide, by decide, by decide⟩ (exampleEvolution_sound rfl rfl rfl)
    (by decide) rfl updateFunction_nested (by decide) updateNest_reads
    ⟨1, 0, exampleRegisters, fun _ => ⟨32, 0⟩⟩
    (fun value c h => by
      have hconstant : exampleConstant value = some c := h
      simp [exampleRegisters, hconstant]) rfl rfl

end Program

end PolyhedralPass
