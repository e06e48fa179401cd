/-
Reading whole objects: bodies between braces, separated by semicolons.
-/
import PolyhedralPass.Isl.Formula

namespace PolyhedralPass.Isl

/-- What follows a body. -/
def EndsBody (s : Stream) : Prop := ∃ s', s = .char ';' :: s' ∨ s = .char '}' :: s'

section Objects

variable {α : Type} (eqEq : Bool) (toks : α → Stream) (body : α → Option Body)

/-- The text of an item is read as its body, or not at all. -/
structure ReadsBody (item : α) : Prop where
  read : ∀ s, EndsBody s → objReadBody eqEq (toks item ++ s) = (body item).map fun body => (body, s)
  head : ∀ s s', toks item ++ s ≠ .char '}' :: s'

variable {eqEq toks body}

theorem joinTokens_ne_brace {item : α} {items : List α}
    (hitems : ∀ i ∈ item :: items, ReadsBody eqEq toks body i) (s s' : Stream) :
    joinTokens (.char ';') ((item :: items).map toks) ++ .char '}' :: s ≠ .char '}' :: s' := by
  have hstart := (hitems item (by simp)).head
  cases items with
  | nil => exact hstart (.char '}' :: s) s'
  | cons next items =>
      simpa [joinTokens] using hstart (.char ';' ::
        (joinTokens (.char ';') ((next :: items).map toks) ++ .char '}' :: s)) s'

theorem objReadDisjunctsLoop_items {items : List α} (hne : items ≠ [])
    (hitems : ∀ item ∈ items, ReadsBody eqEq toks body item) (s : Stream) {fuel : Nat}
    (hfuel : items.length ≤ fuel) :
    objReadDisjunctsLoop eqEq fuel
        (joinTokens (.char ';') (items.map toks) ++ .char '}' :: s) =
      (items.mapM body).map fun bodies => (bodies, .char '}' :: s) := by
  induction items generalizing fuel with
  | nil => exact absurd rfl hne
  | cons item items ih =>
      obtain ⟨fuel, rfl⟩ : ∃ k, fuel = k + 1 :=
        ⟨fuel - 1, by simp only [List.length_cons] at hfuel; omega⟩
      have hitem := (hitems item (by simp)).read
      rw [List.mapM_cons]
      cases items with
      | nil =>
          have hlast := hitem (.char '}' :: s) ⟨s, Or.inr rfl⟩
          simp only [List.map_cons, List.map_nil, joinTokens, objReadDisjunctsLoop, hlast,
            List.mapM_nil]
          cases body item <;> rfl
      | cons next items =>
          have hnext := ih (by simp) (fun i hi => hitems i (List.mem_cons_of_mem item hi))
            (by simpa using hfuel : (next :: items).length ≤ fuel)
          have hhead := joinTokens_ne_brace
            (fun i hi => hitems i (List.mem_cons_of_mem item hi)) s
          obtain ⟨tail, htail⟩ : ∃ tail, joinTokens (.char ';')
              ((next :: items).map toks) ++ .char '}' :: s = tail := ⟨_, rfl⟩
          have hjoin : joinTokens (.char ';') ((item :: next :: items).map toks) ++
              .char '}' :: s = toks item ++ .char ';' :: tail := by
            rw [← htail]
            simp [joinTokens]
          rw [htail] at hnext hhead
          rw [hjoin, objReadDisjunctsLoop, hitem _ ⟨_, Or.inl rfl⟩]
          cases body item with
          | none => rfl
          | some first =>
              simp only [Option.map_some, Option.bind_some]
              rw [hnext]
              cases (next :: items).mapM body <;> rfl

/-- An object with at least one body. -/
theorem objRead_items {items : List α} (hne : items ≠ [])
    (hitems : ∀ item ∈ items, ReadsBody eqEq toks body item) (s : Stream) :
    objRead eqEq (.char '{' :: (joinTokens (.char ';') (items.map toks) ++ .char '}' :: s)) =
      items.mapM body := by
  have hhead : ∀ s', joinTokens (.char ';') (items.map toks) ++ .char '}' :: s ≠
      .char '}' :: s' := by
    cases items with
    | nil => exact absurd rfl hne
    | cons item items => exact joinTokens_ne_brace hitems s
  have hlength := length_le_joinTokens (.char ';') (items.map toks)
  rw [List.length_map] at hlength
  have hfuel : items.length ≤
      (joinTokens (.char ';') (items.map toks) ++ .char '}' :: s).length + 1 := by
    rw [List.length_append, List.length_cons]
    omega
  have hloop := objReadDisjunctsLoop_items hne hitems s hfuel
  rw [objRead, objReadDisjuncts, hloop]
  · cases items.mapM body <;> rfl
  · exact hhead

/-- An object with one body. -/
theorem objRead_one {s rest : Stream} {out : Option Body}
    (hread : objReadBody eqEq s = out.map fun body => (body, .char '}' :: rest))
    (hhead : ∀ s', s ≠ .char '}' :: s') :
    objRead eqEq (.char '{' :: s) = out.map fun body => [body] := by
  rw [objRead, objReadDisjuncts, objReadDisjunctsLoop, hread]
  · cases out <;> rfl
  · exact hhead

end Objects

end PolyhedralPass.Isl
