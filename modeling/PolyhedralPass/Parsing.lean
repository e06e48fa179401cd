/-
Readers that take tokens from the front of a list and leave the rest: what holds of all
that is read, and what is left.
-/
import Mathlib.Data.List.Infix

namespace Parsing

section Results

variable {α β : Type} {P Q : α → Prop} {R : β → Prop}

/-- Whatever is read has the property. -/
def Ensures (P : α → Prop) (result : Option α) : Prop := ∀ a, result = some a → P a

theorem ensures_none : Ensures P none := fun _ h => nomatch h

theorem ensures_some {a : α} : Ensures P (some a) ↔ P a := by
  refine ⟨fun h => h a rfl, fun h b hb => ?_⟩
  obtain rfl := Option.some.inj hb
  exact h

theorem Ensures.mono {result : Option α} (h : Ensures P result) (hPQ : ∀ a, P a → Q a) :
    Ensures Q result := fun a ha => hPQ a (h a ha)

theorem Ensures.bind {result : Option α} {f : α → Option β} (h : Ensures P result)
    (hf : ∀ a, P a → Ensures R (f a)) : Ensures R (result.bind f) := by
  intro b hb
  obtain ⟨a, ha, hfa⟩ := Option.bind_eq_some_iff.mp hb
  exact hf a (h a ha) b hfa

theorem Ensures.map {result : Option α} {f : α → β} (h : Ensures P result)
    (hf : ∀ a, P a → R (f a)) : Ensures R (result.map f) := by
  intro b hb
  obtain ⟨a, ha, rfl⟩ := Option.map_eq_some_iff.mp hb
  exact hf a (h a ha)

end Results

section Rests

variable {τ : Type} {tok : τ} {s s' s'' : List τ}

/-- What is left once at least one token has been taken. -/
def Behind (s s' : List τ) : Prop := ∃ tok rest, s = tok :: rest ∧ s' <:+ rest

theorem behind_cons (h : s' <:+ s) : Behind (tok :: s) s' := ⟨tok, s, rfl, h⟩

theorem Behind.suffix_of_cons (h : Behind (tok :: s) s') : s' <:+ s := by
  obtain ⟨_, _, heq, hsuffix⟩ := h
  obtain ⟨_, rfl⟩ := List.cons.inj heq
  exact hsuffix

theorem Behind.suffix (h : Behind s s') : s' <:+ s := by
  obtain ⟨tok, rest, rfl, hsuffix⟩ := h
  exact hsuffix.trans (List.suffix_cons tok rest)

theorem Behind.trans_suffix (h : Behind s s') (h' : s'' <:+ s') : Behind s s'' := by
  obtain ⟨tok, rest, heq, hsuffix⟩ := h
  exact ⟨tok, rest, heq, h'.trans hsuffix⟩

theorem Behind.of_suffix (h : s' <:+ s) (h' : Behind s' s'') : Behind s s'' := by
  obtain ⟨tok, rest, rfl, hsuffix⟩ := h'
  cases s with
  | nil => exact absurd (List.suffix_nil.mp h) (List.cons_ne_nil tok rest)
  | cons first others =>
      refine behind_cons (hsuffix.trans ?_)
      rcases List.suffix_cons_iff.mp h with heq | hothers
      · obtain ⟨_, rfl⟩ := List.cons.inj heq
        exact List.suffix_rfl
      · exact (List.suffix_cons tok rest).trans hothers

end Rests

end Parsing
