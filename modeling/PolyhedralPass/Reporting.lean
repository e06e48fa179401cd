/-
Programs that report messages on their way and may end in a fault.  What was reported
before the fault stays.
-/
import Mathlib.Data.List.Basic

namespace Reporting

/-- A program with what it has reported, from the first message to the last. -/
structure Report (μ ε α : Type) where
  messages : List μ
  result : Except ε α

variable {μ ε α β : Type}

instance : Monad (Report μ ε) where
  pure value := ⟨[], .ok value⟩
  bind program next :=
    match program.result with
    | .error fault => ⟨program.messages, .error fault⟩
    | .ok value => ⟨program.messages ++ (next value).messages, (next value).result⟩

/-- A message. -/
def say (message : μ) : Report μ ε Unit := ⟨[message], .ok ()⟩

/-- A program that reports nothing. -/
def silent (result : Except ε α) : Report μ ε α := ⟨[], result⟩

@[simp] theorem messages_pure (value : α) : (pure value : Report μ ε α).messages = [] := rfl

@[simp] theorem result_pure (value : α) : (pure value : Report μ ε α).result = .ok value := rfl

@[simp] theorem messages_silent (result : Except ε α) :
    (silent result : Report μ ε α).messages = [] := rfl

@[simp] theorem result_silent (result : Except ε α) :
    (silent result : Report μ ε α).result = result := rfl

@[simp] theorem messages_say_bind (message : μ) (next : Unit → Report μ ε β) :
    (say message >>= next).messages = message :: (next ()).messages := rfl

@[simp] theorem result_say_bind (message : μ) (next : Unit → Report μ ε β) :
    (say message >>= next).result = (next ()).result := rfl

/-- The reports do not take part in the result. -/
theorem result_bind (program : Report μ ε α) (next : α → Report μ ε β) :
    (program >>= next).result = program.result >>= fun value => (next value).result := by
  change (match program.result with
    | .error fault => (⟨program.messages, .error fault⟩ : Report μ ε β)
    | .ok value => ⟨program.messages ++ (next value).messages, (next value).result⟩).result = _
  cases program.result <;> rfl

theorem messages_bind_of_ok {program : Report μ ε α} {value : α} (h : program.result = .ok value)
    (next : α → Report μ ε β) :
    (program >>= next).messages = program.messages ++ (next value).messages := by
  change (match program.result with
    | .error fault => (⟨program.messages, .error fault⟩ : Report μ ε β)
    | .ok value => ⟨program.messages ++ (next value).messages, (next value).result⟩).messages = _
  rw [h]

theorem messages_bind_of_error {program : Report μ ε α} {fault : ε}
    (h : program.result = .error fault) (next : α → Report μ ε β) :
    (program >>= next).messages = program.messages := by
  change (match program.result with
    | .error fault => (⟨program.messages, .error fault⟩ : Report μ ε β)
    | .ok value => ⟨program.messages ++ (next value).messages, (next value).result⟩).messages = _
  rw [h]

/-- Where a step returns a value, the rest of the program starts from it. -/
theorem bind_result_ok {program : Report μ ε α} {next : α → Report μ ε β} {value : β}
    (h : (program >>= next).result = .ok value) :
    ∃ middle, program.result = .ok middle ∧ (next middle).result = .ok value := by
  rw [result_bind] at h
  cases hprogram : program.result with
  | error fault =>
      rw [hprogram] at h
      exact absurd h (by simp [bind, Except.bind])
  | ok middle =>
      rw [hprogram] at h
      exact ⟨middle, rfl, h⟩

end Reporting
