/-
Straight-line code over registers and a memory.  What it touches is known from the cells
its accesses go to, and it does the same with its registers renamed.
-/
import PolyhedralPass.Schedule.Reorder
import Mathlib.Data.Set.Insert
import Mathlib.Logic.Function.Basic

namespace Straight

section Code

/-- What a line does with its operands. -/
inductive Op (ρ : Type)
  | compute (operands : List ρ)
  | load (pointer : ρ)
  | store (value pointer : ρ)

def Op.operands {ρ : Type} : Op ρ → List ρ
  | compute operands => operands
  | load pointer => [pointer]
  | store value pointer => [value, pointer]

def Op.pointer? {ρ : Type} : Op ρ → Option ρ
  | compute _ => none
  | load pointer => some pointer
  | store _ pointer => some pointer

def Op.rename {ρ : Type} (f : ρ → ρ) : Op ρ → Op ρ
  | compute operands => compute (operands.map f)
  | load pointer => load (f pointer)
  | store value pointer => store (f value) (f pointer)

/-- A line has a register of its own, also where it leaves no result there. -/
structure Line (ρ : Type) where
  dest : ρ
  op : Op ρ

/-- What the lines compute from their operands, and the cells behind pointers. -/
structure Machine (ρ κ ω : Type) where
  result : ρ → List ω → ω
  address : ω → κ

structure State (ρ κ ω : Type) where
  registers : ρ → ω
  memory : κ → ω

variable {ρ κ ω : Type} [DecidableEq ρ] [DecidableEq κ] (machine : Machine ρ κ ω)

def Line.exec (line : Line ρ) (state : State ρ κ ω) : State ρ κ ω :=
  match line.op with
  | .compute operands =>
      let value := machine.result line.dest (operands.map state.registers)
      { state with registers := Function.update state.registers line.dest value }
  | .load pointer =>
      let value := state.memory (machine.address (state.registers pointer))
      { state with registers := Function.update state.registers line.dest value }
  | .store value pointer =>
      let cell := machine.address (state.registers pointer)
      { state with memory := Function.update state.memory cell (state.registers value) }

def exec : List (Line ρ) → State ρ κ ω → State ρ κ ω
  | [], state => state
  | line :: rest, state => exec rest (line.exec machine state)

end Code

section Footprint

variable {ρ κ ω : Type} [DecidableEq ρ] [DecidableEq κ] {machine : Machine ρ κ ω}
  {cell : ρ → κ}

/-- Every access goes to the cell that is known for its line. -/
def Follows (machine : Machine ρ κ ω) (cell : ρ → κ) : List (Line ρ) → State ρ κ ω → Prop
  | [], _ => True
  | line :: rest, state =>
      (∀ pointer, line.op.pointer? = some pointer →
        machine.address (state.registers pointer) = cell line.dest) ∧
      Follows machine cell rest (line.exec machine state)

/-- The cells of the loads. -/
def reads (cell : ρ → κ) (lines : List (Line ρ)) : Set κ :=
  { c | ∃ line ∈ lines, ∃ pointer, line.op = .load pointer ∧ c = cell line.dest }

/-- The cells of the stores. -/
def writes (cell : ρ → κ) (lines : List (Line ρ)) : Set κ :=
  { c | ∃ line ∈ lines, ∃ value pointer, line.op = .store value pointer ∧ c = cell line.dest }

omit [DecidableEq ρ] [DecidableEq κ] in
theorem reads_subset_cons (cell : ρ → κ) (line : Line ρ) (lines : List (Line ρ)) :
    reads cell lines ⊆ reads cell (line :: lines) := by
  rintro c ⟨other, hother, hload⟩
  exact ⟨other, List.mem_cons_of_mem line hother, hload⟩

omit [DecidableEq ρ] [DecidableEq κ] in
theorem writes_subset_cons (cell : ρ → κ) (line : Line ρ) (lines : List (Line ρ)) :
    writes cell lines ⊆ writes cell (line :: lines) := by
  rintro c ⟨other, hother, hstore⟩
  exact ⟨other, List.mem_cons_of_mem line hother, hstore⟩

/-- A cell that no line stores to keeps its value. -/
theorem exec_frame {lines : List (Line ρ)} {state : State ρ κ ω}
    (hfollows : Follows machine cell lines state) {c : κ} (hc : c ∉ writes cell lines) :
    (exec machine lines state).memory c = state.memory c := by
  induction lines generalizing state with
  | nil => rfl
  | cons line rest ih =>
      obtain ⟨haddress, hrest⟩ := hfollows
      rw [exec, ih hrest fun h => hc (writes_subset_cons cell line rest h)]
      cases hop : line.op with
      | compute operands => simp only [Line.exec, hop]
      | load pointer => simp only [Line.exec, hop]
      | store value pointer =>
          have hne : c ≠ machine.address (state.registers pointer) := by
            rw [haddress pointer (by rw [hop]; rfl)]
            exact fun heq => hc ⟨line, List.mem_cons_self, value, pointer, hop, heq⟩
          simp only [Line.exec, hop, Function.update_of_ne hne]

/-- Memories that agree on some cells, those of the loads among them, agree on them and on
the cells of the stores afterwards. -/
theorem exec_congr {lines : List (Line ρ)} {known : Set κ} {state state' : State ρ κ ω}
    (hfollows : Follows machine cell lines state) (hfollows' : Follows machine cell lines state')
    (hregisters : state.registers = state'.registers)
    (hmemory : ∀ c ∈ known, state.memory c = state'.memory c) (hreads : reads cell lines ⊆ known) :
    ∀ c, c ∈ known ∨ c ∈ writes cell lines →
      (exec machine lines state).memory c = (exec machine lines state').memory c := by
  induction lines generalizing known state state' with
  | nil =>
      rintro c (hc | ⟨_, hmem, _⟩)
      · exact hmemory c hc
      · exact absurd hmem List.not_mem_nil
  | cons line rest ih =>
      obtain ⟨haddress, hrest⟩ := hfollows
      obtain ⟨haddress', hrest'⟩ := hfollows'
      have hreadsRest := (reads_subset_cons cell line rest).trans hreads
      have hwritesRest : ∀ c, c ∈ writes cell (line :: rest) → c ∈ writes cell rest ∨
          ∃ value pointer, line.op = .store value pointer ∧ c = cell line.dest := by
        rintro c ⟨other, hother, hstore⟩
        rcases List.mem_cons.mp hother with rfl | hother
        · exact Or.inr hstore
        · exact Or.inl ⟨other, hother, hstore⟩
      intro c hc
      cases hop : line.op with
      | compute operands =>
          refine ih hrest hrest' ?_ ?_ hreadsRest c ?_
          · simp only [Line.exec, hop, hregisters]
          · simpa only [Line.exec, hop] using hmemory
          · exact hc.imp_right fun hc => (hwritesRest c hc).resolve_right (by simp [hop])
      | load pointer =>
          refine ih hrest hrest' ?_ ?_ hreadsRest c ?_
          · have hcell' := haddress' pointer (by rw [hop]; rfl)
            have hloaded := hmemory (cell line.dest)
              (hreads ⟨line, List.mem_cons_self, pointer, hop, rfl⟩)
            simp only [Line.exec, hop, hcell', hloaded, hregisters]
          · simpa only [Line.exec, hop] using hmemory
          · exact hc.imp_right fun hc => (hwritesRest c hc).resolve_right (by simp [hop])
      | store value pointer =>
          have hcell' := haddress' pointer (by rw [hop]; rfl)
          -- the cell of the store is known from here on
          refine @ih (insert (cell line.dest) known) _ _ hrest hrest' ?_ ?_
            (hreadsRest.trans (Set.subset_insert _ _)) c ?_
          · simpa only [Line.exec, hop] using hregisters
          · intro c hc
            simp only [Line.exec, hop, hcell', hregisters]
            by_cases heq : c = cell line.dest
            · rw [heq, Function.update_self, Function.update_self]
            · rw [Function.update_of_ne heq, Function.update_of_ne heq]
              exact hmemory c (Set.mem_of_mem_insert_of_ne hc heq)
          · rcases hc with hc | hc
            · exact Or.inl (Set.mem_insert_of_mem _ hc)
            · rcases hwritesRest c hc with hc | ⟨_, _, _, rfl⟩
              · exact Or.inr hc
              · exact Or.inl (Set.mem_insert _ _)

open Classical in
/-- The code as an instance for every entry.  Only the valid entries execute it. -/
noncomputable def effects {ι : Type} (machine : Machine ρ κ ω) (lines : List (Line ρ))
    (entry : ι → ρ → ω) (cell : ι → ρ → κ) (valid : ι → Prop)
    (h : ∀ i, valid i → ∀ memory, Follows machine (cell i) lines ⟨entry i, memory⟩) :
    Schedule.Effects ι κ ω where
  reads i := { c | valid i ∧ c ∈ reads (cell i) lines }
  writes i := { c | valid i ∧ c ∈ writes (cell i) lines }
  step i memory := if valid i then (exec machine lines ⟨entry i, memory⟩).memory else memory
  step_frame i memory c hc := by
    split_ifs with hi
    · exact exec_frame (h i hi memory) fun hwrites => hc ⟨hi, hwrites⟩
    · rfl
  step_congr i memory memory' hreads c hc := by
    rw [if_pos hc.1, if_pos hc.1]
    exact exec_congr (h i hc.1 memory) (h i hc.1 memory') rfl
      (fun c hc' => hreads c ⟨hc.1, hc'⟩) (le_refl _) c (Or.inr hc.2)

end Footprint

section Renaming

variable {ρ κ ω : Type} [DecidableEq ρ] [DecidableEq κ] {machine : Machine ρ κ ω}
  {f : ρ → ρ} {aside : Set ρ}

/-- A line with its operands renamed, or one that computes a register to be left aside. -/
inductive Renamed (f : ρ → ρ) (aside : Set ρ) : Line ρ → Line ρ → Prop
  | payload {dest : ρ} {op : Op ρ} (hdest : dest ∉ aside) (hfixed : f dest = dest)
      (hoperands : ∀ operand ∈ op.operands, operand ∉ aside) :
      Renamed f aside ⟨dest, op⟩ ⟨dest, op.rename f⟩
  | control {dest : ρ} {operands operands' : List ρ} (hdest : dest ∈ aside) :
      Renamed f aside ⟨dest, .compute operands⟩ ⟨dest, .compute operands'⟩

/-- The registers besides those left aside hold the same under their new names. -/
def SameRegisters (f : ρ → ρ) (aside : Set ρ) (registers registers' : ρ → ω) : Prop :=
  ∀ register ∉ aside, registers' (f register) = registers register

variable (hinjective : Function.Injective f) (haside : ∀ register ∉ aside, f register ∉ aside)
include hinjective haside

omit haside in
theorem SameRegisters.update {registers registers' : ρ → ω}
    (h : SameRegisters f aside registers registers') {dest : ρ} (value : ω)
    (hfixed : f dest = dest) :
    SameRegisters f aside (Function.update registers dest value)
      (Function.update registers' dest value) := by
  intro register hregister
  by_cases heq : register = dest
  · rw [heq, hfixed, Function.update_self, Function.update_self]
  · have hne : f register ≠ dest := fun hf => heq (hinjective (hf.trans hfixed.symm))
    rw [Function.update_of_ne hne, Function.update_of_ne heq]
    exact h register hregister

omit hinjective in
theorem SameRegisters.setAside {registers registers' : ρ → ω}
    (h : SameRegisters f aside registers registers') {dest : ρ} (value value' : ω)
    (hdest : dest ∈ aside) :
    SameRegisters f aside (Function.update registers dest value)
      (Function.update registers' dest value') := by
  intro register hregister
  have hne : f register ≠ dest := fun hf => haside register hregister (hf ▸ hdest)
  have hne' : register ≠ dest := fun heq => hregister (heq ▸ hdest)
  rw [Function.update_of_ne hne, Function.update_of_ne hne']
  exact h register hregister

/-- Renamed code has the effect on memory that the code has. -/
theorem exec_renamed {lines lines' : List (Line ρ)}
    (hlines : List.Forall₂ (Renamed f aside) lines lines') {state state' : State ρ κ ω}
    (hregisters : SameRegisters f aside state.registers state'.registers)
    (hmemory : state'.memory = state.memory) :
    (exec machine lines' state').memory = (exec machine lines state).memory := by
  induction hlines generalizing state state' with
  | nil => exact hmemory
  | @cons line line' rest rest' hline _ ih =>
      rw [exec, exec]
      cases hline with
      | @control dest operands operands' hdest =>
          exact ih (hregisters.setAside haside _ _ hdest) hmemory
      | @payload dest op hdest hfixed hoperands =>
          cases op with
          | compute operands =>
              have hvalues : (operands.map f).map state'.registers =
                  operands.map state.registers := by
                rw [List.map_map]
                exact List.map_congr_left fun operand h => hregisters operand (hoperands operand h)
              refine ih ?_ hmemory
              simp only [Line.exec, Op.rename, hvalues]
              exact hregisters.update hinjective _ hfixed
          | load pointer =>
              have hpointer := hregisters pointer (hoperands pointer List.mem_cons_self)
              refine ih ?_ hmemory
              simp only [Line.exec, Op.rename, hpointer, hmemory]
              exact hregisters.update hinjective _ hfixed
          | store value pointer =>
              have hvalue := hregisters value (hoperands value List.mem_cons_self)
              have hpointer := hregisters pointer
                (hoperands pointer (List.mem_cons_of_mem value List.mem_cons_self))
              refine ih hregisters ?_
              simp only [Line.exec, Op.rename, hvalue, hpointer, hmemory]

end Renaming

section Registers

variable {ρ κ ω : Type} [DecidableEq ρ] [DecidableEq κ] {machine : Machine ρ κ ω}

theorem exec_append (first second : List (Line ρ)) (state : State ρ κ ω) :
    exec machine (first ++ second) state = exec machine second (exec machine first state) := by
  induction first generalizing state with
  | nil => rfl
  | cons line rest ih => exact ih (line.exec machine state)

theorem Line.exec_of_ne {line : Line ρ} {register : ρ} (h : line.dest ≠ register)
    (state : State ρ κ ω) : (line.exec machine state).registers register =
      state.registers register := by
  cases hop : line.op with
  | compute operands => simp only [Line.exec, hop, Function.update_of_ne h.symm]
  | load pointer => simp only [Line.exec, hop, Function.update_of_ne h.symm]
  | store value pointer => simp only [Line.exec, hop]

/-- A register that no line has for its own keeps its value. -/
theorem exec_of_ne {lines : List (Line ρ)} {register : ρ}
    (h : ∀ line ∈ lines, line.dest ≠ register) (state : State ρ κ ω) :
    (exec machine lines state).registers register = state.registers register := by
  induction lines generalizing state with
  | nil => rfl
  | cons line rest ih =>
      rw [exec, ih fun other hother => h other (List.mem_cons_of_mem line hother),
        Line.exec_of_ne (h line List.mem_cons_self)]

/-- Code without stores leaves the memory as it is. -/
theorem exec_memory_of_computes {lines : List (Line ρ)}
    (h : ∀ line ∈ lines, ∃ operands, line.op = .compute operands) (state : State ρ κ ω) :
    (exec machine lines state).memory = state.memory := by
  induction lines generalizing state with
  | nil => rfl
  | cons line rest ih =>
      obtain ⟨operands, hop⟩ := h line List.mem_cons_self
      rw [exec, ih fun other hother => h other (List.mem_cons_of_mem line hother)]
      simp only [Line.exec, hop]

/-- A register that a single line computes, from operands that no line computes. -/
theorem exec_register {lines : List (Line ρ)} {dest : ρ} {operands : List ρ}
    (hmem : ⟨dest, .compute operands⟩ ∈ lines)
    (honly : ∀ line ∈ lines, line.dest = dest → line = ⟨dest, .compute operands⟩)
    (hoperands : ∀ operand ∈ operands, ∀ line ∈ lines, line.dest ≠ operand)
    (state : State ρ κ ω) : (exec machine lines state).registers dest =
      machine.result dest (operands.map state.registers) := by
  induction lines generalizing state with
  | nil => exact absurd hmem List.not_mem_nil
  | cons line rest ih =>
      have hkept : operands.map (line.exec machine state).registers =
          operands.map state.registers := by
        apply List.map_congr_left
        intro operand hoperand
        exact Line.exec_of_ne (hoperands operand hoperand line List.mem_cons_self) state
      by_cases hlater : ⟨dest, .compute operands⟩ ∈ rest
      · rw [exec, ih hlater (fun other hother => honly other (List.mem_cons_of_mem line hother))
          (fun operand hoperand other hother =>
            hoperands operand hoperand other (List.mem_cons_of_mem line hother)), hkept]
      · have hline : ⟨dest, .compute operands⟩ = line :=
          (List.mem_cons.mp hmem).resolve_right hlater
        have hrest : ∀ other ∈ rest, other.dest ≠ dest := by
          intro other hother heq
          exact hlater (honly other (List.mem_cons_of_mem line hother) heq ▸ hother)
        rw [exec, exec_of_ne hrest, ← hline]
        simp [Line.exec]

/-- The register of a line, unless it is a store. -/
def Line.written (line : Line ρ) : Set ρ :=
  match line.op with
  | .store _ _ => ∅
  | _ => {line.dest}

/-- Code that reads nothing but some registers and what it has computed itself. -/
def ReadsOnly (live : Set ρ) : List (Line ρ) → Prop
  | [] => True
  | line :: rest => (∀ operand ∈ line.op.operands, operand ∈ live) ∧
      ReadsOnly (live ∪ line.written) rest

/-- Such code has the same effect on memory wherever those registers are the same. -/
theorem exec_live {lines : List (Line ρ)} {live : Set ρ} (hreads : ReadsOnly live lines)
    {state state' : State ρ κ ω}
    (hlive : ∀ register ∈ live, state.registers register = state'.registers register)
    (hmemory : state.memory = state'.memory) :
    (exec machine lines state).memory = (exec machine lines state').memory := by
  induction lines generalizing live state state' with
  | nil => exact hmemory
  | cons line rest ih =>
      obtain ⟨hoperands, hrest⟩ := hreads
      have hwritten : ∀ value : ω, line.written = {line.dest} →
          ∀ register ∈ live ∪ line.written,
            Function.update state.registers line.dest value register =
              Function.update state'.registers line.dest value register := by
        intro value hset register hregister
        by_cases heq : register = line.dest
        · rw [heq, Function.update_self, Function.update_self]
        · rw [Function.update_of_ne heq, Function.update_of_ne heq]
          rw [hset] at hregister
          exact hlive register (hregister.resolve_right heq)
      rw [exec, exec]
      cases hop : line.op with
      | compute operands =>
          have hvalues : operands.map state.registers = operands.map state'.registers :=
            List.map_congr_left fun operand h => hlive operand (hoperands operand (by rwa [hop]))
          apply ih hrest
          · simp only [Line.exec, hop, hvalues]
            exact hwritten _ (by simp [Line.written, hop])
          · simpa only [Line.exec, hop] using hmemory
      | load pointer =>
          have hpointer := hlive pointer (hoperands pointer (by rw [hop]; exact List.mem_cons_self))
          apply ih hrest
          · simp only [Line.exec, hop, hpointer, hmemory]
            exact hwritten _ (by simp [Line.written, hop])
          · simpa only [Line.exec, hop] using hmemory
      | store value pointer =>
          have hpointer := hlive pointer (hoperands pointer (by rw [hop]; simp [Op.operands]))
          have hvalue := hlive value (hoperands value (by rw [hop]; simp [Op.operands]))
          apply ih hrest
          · simp only [Line.exec, hop, Line.written, Set.union_empty]
            exact hlive
          · simp only [Line.exec, hop, hpointer, hvalue, hmemory]

/-- A line that reads nothing but some registers leaves them the same wherever they are. -/
theorem Line.exec_agree {line : Line ρ} {live : Set ρ}
    (hoperands : ∀ operand ∈ line.op.operands, operand ∈ live) {state state' : State ρ κ ω}
    (hlive : ∀ register ∈ live, state.registers register = state'.registers register)
    (hmemory : state.memory = state'.memory) :
    (line.exec machine state).memory = (line.exec machine state').memory ∧
      ∀ register ∈ live, (line.exec machine state).registers register =
        (line.exec machine state').registers register := by
  have hupdate : ∀ value : ω, ∀ register ∈ live,
      Function.update state.registers line.dest value register =
        Function.update state'.registers line.dest value register := by
    intro value register hregister
    by_cases heq : register = line.dest
    · rw [heq, Function.update_self, Function.update_self]
    · rw [Function.update_of_ne heq, Function.update_of_ne heq]
      exact hlive register hregister
  cases hop : line.op with
  | compute operands =>
      have hvalues : operands.map state.registers = operands.map state'.registers :=
        List.map_congr_left fun operand h => hlive operand (hoperands operand (by rwa [hop]))
      simp only [Line.exec, hop, hvalues]
      exact ⟨hmemory, hupdate _⟩
  | load pointer =>
      have hpointer := hlive pointer (hoperands pointer (by rw [hop]; exact List.mem_cons_self))
      simp only [Line.exec, hop, hpointer, hmemory, true_and]
      exact hupdate _
  | store value pointer =>
      have hpointer := hlive pointer (hoperands pointer (by rw [hop]; simp [Op.operands]))
      have hvalue := hlive value (hoperands value (by rw [hop]; simp [Op.operands]))
      simp only [Line.exec, hop, hpointer, hvalue, hmemory, true_and]
      exact hlive

theorem exec_agree {lines : List (Line ρ)} {live : Set ρ}
    (hoperands : ∀ line ∈ lines, ∀ operand ∈ line.op.operands, operand ∈ live)
    {state state' : State ρ κ ω}
    (hlive : ∀ register ∈ live, state.registers register = state'.registers register)
    (hmemory : state.memory = state'.memory) :
    (exec machine lines state).memory = (exec machine lines state').memory ∧
      ∀ register ∈ live, (exec machine lines state).registers register =
        (exec machine lines state').registers register := by
  induction lines generalizing state state' with
  | nil => exact ⟨hmemory, hlive⟩
  | cons line rest ih =>
      obtain ⟨hmemory', hlive'⟩ :=
        Line.exec_agree (hoperands line List.mem_cons_self) hlive hmemory
      exact ih (fun other hother => hoperands other (List.mem_cons_of_mem line hother)) hlive'
        hmemory'

omit [DecidableEq ρ] in
/-- Renamed code reads nothing but the renamed registers, if that is so of the lines that are
left aside. -/
theorem ReadsOnly.renamed {f : ρ → ρ} {aside : Set ρ} {lines lines' : List (Line ρ)}
    (hlines : List.Forall₂ (Renamed f aside) lines lines') {live live' : Set ρ}
    (hreads : ReadsOnly live lines)
    (hlive : ∀ register ∈ live, register ∉ aside → f register ∈ live')
    (hcontrol : ∀ line ∈ lines', line.dest ∈ aside → ∀ operand ∈ line.op.operands,
      operand ∈ live') :
    ReadsOnly live' lines' := by
  induction hlines generalizing live live' with
  | nil => trivial
  | @cons line line' rest rest' hline _ ih =>
      have hrest : ∀ other ∈ rest', other.dest ∈ aside → ∀ operand ∈ other.op.operands,
          operand ∈ live' ∪ line'.written := fun other hother hdest operand hoperand =>
        Or.inl (hcontrol other (List.mem_cons_of_mem line' hother) hdest operand hoperand)
      cases hline with
      | @payload dest op hdest hfixed hoperands =>
          have hwritten :
              (⟨dest, op.rename f⟩ : Line ρ).written = (⟨dest, op⟩ : Line ρ).written := by
            cases op <;> rfl
          refine ⟨?_, ih hreads.2 ?_ hrest⟩
          · intro operand hoperand
            have hmapped : (op.rename f).operands = op.operands.map f := by cases op <;> rfl
            rw [hmapped] at hoperand
            obtain ⟨old, hold, rfl⟩ := List.mem_map.mp hoperand
            exact hlive old (hreads.1 old hold) (hoperands old hold)
          · rintro register (hregister | hregister) haside
            · exact Or.inl (hlive register hregister haside)
            · have hdest : register = dest := by
                cases op <;> simp_all [Line.written]
              rw [hwritten]
              rw [hdest, hfixed]
              exact Or.inr (hdest ▸ hregister)
      | @control dest operands operands' hdest =>
          refine ⟨hcontrol _ List.mem_cons_self hdest, ih hreads.2 ?_ hrest⟩
          rintro register (hregister | hregister) haside
          · exact Or.inl (hlive register hregister haside)
          · exact absurd (Set.mem_singleton_iff.mp hregister ▸ hdest) haside

end Registers

end Straight
