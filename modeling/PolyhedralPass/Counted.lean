/-
Objects with reference counts.  Whoever makes or copies an object holds a reference to
it, some operations take the references they are handed, and the others are to be freed.
-/
import Mathlib.Data.Multiset.OrderedMonoid

namespace Counted

section Objects

/-- A reference to an object, whose value never changes. -/
structure Handle (α : Type) where
  id : Nat
  value : α

/-- A pointer is null where there is no object. -/
abbrev Pointer (α : Type) := Option (Handle α)

/-- The objects of a context.  An object is there as often as it is referenced. -/
structure Objects where
  references : Multiset Nat
  next : Nat
  fresh : ∀ id ∈ references, id < next

def noObjects : Objects := ⟨0, 0, fun id hid => absurd hid (Multiset.notMem_zero id)⟩

/-- One reference more to an object. -/
def Objects.retain (objects : Objects) (id : Nat) (h : id ∈ objects.references) : Objects where
  references := id ::ₘ objects.references
  next := objects.next
  fresh := by
    intro other hother
    rcases Multiset.mem_cons.mp hother with rfl | hother
    · exact objects.fresh _ h
    · exact objects.fresh _ hother

/-- One reference less; the object is gone with its last one. -/
def Objects.release (objects : Objects) (id : Nat) : Objects where
  references := objects.references.erase id
  next := objects.next
  fresh := fun other hother => objects.fresh other (Multiset.mem_of_mem_erase hother)

/-- A new object. -/
def Objects.add (objects : Objects) : Objects where
  references := objects.next ::ₘ objects.references
  next := objects.next + 1
  fresh := by
    intro other hother
    rcases Multiset.mem_cons.mp hother with rfl | hother
    · exact Nat.lt_succ_self _
    · exact Nat.lt_succ_of_lt (objects.fresh _ hother)

/-- The use of an object that has been freed. -/
structure Freed where
  id : Nat
deriving DecidableEq

/-- A program that makes, uses and frees objects. -/
abbrev Act := StateT Objects (Except Freed)

end Objects

section Operations

variable {α β γ : Type}

def pointee (pointer : Pointer α) : Option α := pointer.map Handle.value

/-- An operation that returns a new object, or null. -/
def create (result : Option α) : Act (Pointer α) := fun objects =>
  match result with
  | none => .ok (none, objects)
  | some value => .ok (some ⟨objects.next, value⟩, objects.add)

/-- An operation that keeps its argument. -/
def keep (pointer : Pointer α) (f : Option α → β) : Act β := fun objects =>
  match pointer with
  | none => .ok (f none, objects)
  | some handle =>
      if handle.id ∈ objects.references then .ok (f (some handle.value), objects)
      else .error ⟨handle.id⟩

def copy (pointer : Pointer α) : Act (Pointer α) := fun objects =>
  match pointer with
  | none => .ok (none, objects)
  | some handle =>
      if h : handle.id ∈ objects.references then .ok (pointer, objects.retain handle.id h)
      else .error ⟨handle.id⟩

def free (pointer : Pointer α) : Act Unit := fun objects =>
  match pointer with
  | none => .ok ((), objects)
  | some handle =>
      if handle.id ∈ objects.references then .ok ((), objects.release handle.id)
      else .error ⟨handle.id⟩

/-- An operation that takes its argument. -/
def take (pointer : Pointer α) : Act (Option α) := do
  let value ← keep pointer id
  free pointer
  return value

/-- An operation on one object, which it takes. -/
def map₁ (f : Option α → Option β) (pointer : Pointer α) : Act (Pointer β) := do
  create (f (← take pointer))

/-- An operation on two objects, which it takes. -/
def map₂ (f : Option α → Option β → Option γ) (first : Pointer α) (second : Pointer β) :
    Act (Pointer γ) := do
  let value ← take first
  let value' ← take second
  create (f value value')

end Operations

section Triples

variable {α β γ δ : Type}

/-- The reference that a pointer stands for. -/
def held : Pointer α → Multiset Nat
  | none => 0
  | some handle => {handle.id}

@[simp] theorem held_none : held (none : Pointer α) = 0 := rfl

@[simp] theorem pointee_none : pointee (none : Pointer α) = none := rfl

theorem pointee_isNone {pointer : Pointer α} : (pointee pointer).isNone = pointer.isNone := by
  cases pointer <;> rfl

/-- The program holds the references `own`, uses no freed object whatever references
there are besides, and ends with the references `left` and a result as described. -/
def Triple (own : Multiset Nat) (act : Act α) (left : α → Multiset Nat) (result : α → Prop) :
    Prop :=
  ∀ objects others, objects.references = own + others →
    ∃ a objects', act objects = .ok (a, objects') ∧
      objects'.references = left a + others ∧ result a

section Rules

variable {own own' others : Multiset Nat} {act : Act α} {left left' : α → Multiset Nat}
  {result result' : α → Prop} {next : α → Act β} {leftNext : β → Multiset Nat}
  {resultNext : β → Prop}

theorem Triple.pure {a : α} (hleft : left a = own) (ha : result a) :
    Triple own (Pure.pure a) left result := by
  intro objects others hown
  exact ⟨a, objects, rfl, hleft ▸ hown, ha⟩

theorem Triple.frame (h : Triple own act left result) (others : Multiset Nat) :
    Triple (own + others) act (fun a => left a + others) result := by
  intro objects rest hown
  rw [add_assoc] at hown
  obtain ⟨a, objects', hact, hleft, ha⟩ := h objects _ hown
  exact ⟨a, objects', hact, by rw [hleft, add_assoc], ha⟩

theorem Triple.weaken (h : Triple own act left result)
    (hleft : ∀ a, result a → left a = left' a) (hresult : ∀ a, result a → result' a) :
    Triple own act left' result' := by
  intro objects others hown
  obtain ⟨a, objects', hact, hreferences, ha⟩ := h objects others hown
  exact ⟨a, objects', hact, by rw [hreferences, hleft a ha], hresult a ha⟩

theorem Triple.bind (h : Triple own act left result)
    (hnext : ∀ a, result a → Triple (left a) (next a) leftNext resultNext) :
    Triple own (act >>= next) leftNext resultNext := by
  intro objects others hown
  obtain ⟨a, objects', hact, hleft, ha⟩ := h objects others hown
  obtain ⟨b, objects'', hb, hrest⟩ := hnext a ha objects' others hleft
  refine ⟨b, objects'', ?_, hrest⟩
  change (act objects >>= fun state => next state.1 state.2) = _
  rw [hact]
  exact hb

/-- A step that leaves the references `others` aside. -/
theorem Triple.step (h : Triple own act left result) (hown : own' = own + others)
    (hnext : ∀ a, result a → Triple (left a + others) (next a) leftNext resultNext) :
    Triple own' (act >>= next) leftNext resultNext :=
  hown ▸ (h.frame others).bind hnext

end Rules

variable {own : Multiset Nat}

theorem triple_create (result : Option α) :
    Triple 0 (create result) held fun pointer => pointee pointer = result := by
  intro objects others hown
  cases result with
  | none => exact ⟨none, objects, rfl, hown, rfl⟩
  | some value =>
      refine ⟨some ⟨objects.next, value⟩, objects.add, rfl, ?_, rfl⟩
      rw [zero_add] at hown
      change objects.next ::ₘ objects.references = {objects.next} + others
      rw [hown, Multiset.singleton_add]

theorem triple_keep (pointer : Pointer α) (f : Option α → β) (hown : held pointer ≤ own) :
    Triple own (keep pointer f) (fun _ => own) fun b => b = f (pointee pointer) := by
  intro objects others hreferences
  cases pointer with
  | none => exact ⟨f none, objects, rfl, hreferences, rfl⟩
  | some handle =>
      have hmem : handle.id ∈ objects.references := by
        rw [hreferences]
        exact Multiset.mem_add.mpr (Or.inl (Multiset.singleton_le.mp hown))
      exact ⟨f (some handle.value), objects, if_pos hmem, hreferences, rfl⟩

theorem triple_copy (pointer : Pointer α) (hown : held pointer ≤ own) :
    Triple own (copy pointer) (fun copied => held copied + own)
      fun copied => pointee copied = pointee pointer := by
  intro objects others hreferences
  cases pointer with
  | none => exact ⟨none, objects, rfl, by simpa using hreferences, rfl⟩
  | some handle =>
      have hmem : handle.id ∈ objects.references := by
        rw [hreferences]
        exact Multiset.mem_add.mpr (Or.inl (Multiset.singleton_le.mp hown))
      refine ⟨some handle, objects.retain handle.id hmem, dif_pos hmem, ?_, rfl⟩
      change handle.id ::ₘ objects.references = {handle.id} + own + others
      rw [add_assoc, Multiset.singleton_add, hreferences]

theorem triple_free (pointer : Pointer α) :
    Triple (held pointer) (free pointer) (fun _ => 0) fun _ => True := by
  intro objects others hreferences
  cases pointer with
  | none => exact ⟨(), objects, rfl, hreferences, trivial⟩
  | some handle =>
      have hmem : handle.id ∈ objects.references := by
        rw [hreferences]
        exact Multiset.mem_add.mpr (Or.inl (Multiset.mem_singleton_self _))
      refine ⟨(), objects.release handle.id, if_pos hmem, ?_, trivial⟩
      rw [zero_add]
      change objects.references.erase handle.id = others
      rw [hreferences, held, Multiset.singleton_add, Multiset.erase_cons_head]

theorem triple_take (pointer : Pointer α) :
    Triple (held pointer) (take pointer) (fun _ => 0) fun value => value = pointee pointer := by
  apply (triple_keep pointer id le_rfl).bind
  rintro value rfl
  apply (triple_free pointer).bind
  intro _ _
  exact Triple.pure rfl rfl

theorem triple_map₁ (f : Option α → Option β) (pointer : Pointer α) :
    Triple (held pointer) (map₁ f pointer) held fun made => pointee made = f (pointee pointer) := by
  apply (triple_take pointer).bind
  rintro value rfl
  exact triple_create _

theorem triple_map₂ (f : Option α → Option β → Option γ) (first : Pointer α)
    (second : Pointer β) :
    Triple (held first + held second) (map₂ f first second) held
      fun made => pointee made = f (pointee first) (pointee second) := by
  apply (triple_take first).step rfl
  rintro value rfl
  rw [zero_add]
  apply (triple_take second).bind
  rintro value' rfl
  exact triple_create _

section Steps

variable {act : Unit → Act β} {next : Pointer α → Act β} {others : Multiset Nat}
  {left : β → Multiset Nat} {result : β → Prop} {pointer : Pointer α}

/-- A program that goes on with a new object. -/
theorem Triple.create {made : Option α}
    (hnext : ∀ pointer, pointee pointer = made → Triple (held pointer + own) (next pointer) left
      result) : Triple own (Counted.create made >>= next) left result :=
  (triple_create made).step (zero_add own).symm hnext

/-- A program that goes on without one of its objects. -/
theorem Triple.free (hown : own = held pointer + others)
    (hact : Triple others (act ()) left result) :
    Triple own (Counted.free pointer >>= act) left result := by
  apply (triple_free pointer).step hown
  intro _ _
  rwa [zero_add]

end Steps

end Triples

end Counted
