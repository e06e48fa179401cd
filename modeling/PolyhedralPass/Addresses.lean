/-
The subscripts of a pointer and the bytes behind it.  `flattenGEP` keeps the
indices of a chain of address computations and forgets the sizes and offsets they
stand for, so that lists of subscripts tell elements apart only where the indices
and the bytes go together.
-/
import PolyhedralPass.Aliasing
import PolyhedralPass.LinearForm

namespace PolyhedralPass

open LinearForm (const rename IsMultiple content map_eval_rename)

section Chain

variable (F : Function)

theorem gepOffset_eq (values : Value → Int) (fuel : Nat) (pointer : Value) :
    gepOffset F values fuel pointer =
      ((chainIndices F fuel pointer).map (GepIndex.offset values)).sum := by
  induction fuel generalizing pointer with
  | zero => rfl
  | succ fuel ih =>
      rw [gepOffset]
      split
      · rename_i base indices hinst
        simp only [chainIndices, hinst, List.map_append, List.sum_append, ih]
      · rename_i hinst
        rw [chainIndices]
        split
        · rename_i base indices hgep
          exact absurd hgep (hinst _ _ base indices)
        · rfl

/-- The element a list of subscripts names, an empty one being read as zero. -/
def elementAt (subscripts : List AffineExpr) (symbols : Value → Int) : List Int :=
  (if subscripts.isEmpty then [{}] else subscripts).map (AffineExpr.eval symbols)

theorem cell_eq_elementAt (nest : LoopNestDescriptor) (access : MemoryAccess) (x : List Int) :
    nest.cell access x = elementAt access.subscripts (nest.valuation x) := rfl

end Chain

section Forms

-- The index operands, as affine functions of the symbols.
variable (form : Value → LinearForm Value)

/-- The bytes an index adds to an address. -/
noncomputable def GepIndex.bytes : GepIndex → LinearForm Value
  | elem index stride => (stride : ℤ) • form index
  | field _ offset => const offset

/-- The bytes between the base pointer and the end of a chain. -/
noncomputable def chainBytes (indices : List GepIndex) : LinearForm Value :=
  (indices.map (GepIndex.bytes form)).sum

/-- The indices of a chain, none being read as zero. -/
noncomputable def chainElement (indices : List GepIndex) : List (LinearForm Value) :=
  if indices.isEmpty then [const 0] else indices.map fun index => form index.value

theorem eval_chainBytes (symbols : Value → Int) (indices : List GepIndex) :
    LinearForm.eval symbols (chainBytes form indices) =
      (indices.map (GepIndex.offset fun v => LinearForm.eval symbols (form v))).sum := by
  rw [chainBytes, map_list_sum, List.map_map]
  congr 2
  funext index
  cases index with
  | elem index stride => simp [GepIndex.bytes, GepIndex.offset, mul_comm]
  | field index offset => simp [GepIndex.bytes, GepIndex.offset]

-- The symbols with one value in all iterations of the nest.
variable (fixed : Value → Bool)

/-- The symbols in the second of two iterations. -/
def inSecond (v : Value) : Value ⊕ Value :=
  if fixed v then .inl v else .inr v

/-- The distance between the addresses of two chains with one base in two
iterations. -/
noncomputable def distance (first second : List GepIndex) : LinearForm (Value ⊕ Value) :=
  rename Sum.inl (chainBytes form first) - rename (inSecond fixed) (chainBytes form second)

/-- At each distance that the coefficients allow and at which two accesses share a
byte, the chains have as many indices, and the differences of these are multiples of
what is missing to the distance. -/
def DistancesTell (first second : List GepIndex) (size size' : Nat) : Prop :=
  0 < size → 0 < size' → ∀ d : Int, -size < d → d < size' →
    (distance form fixed first second).content ∣ d - (distance form fixed first second).1 →
    List.Forall₂ (fun index index' => IsMultiple (index - index')
        (distance form fixed first second - const d))
      ((chainElement form first).map (rename Sum.inl))
      ((chainElement form second).map (rename (inSecond fixed)))

theorem eval_inSecond {symbols symbols' : Value → Int}
    (hfixed : ∀ v, fixed v = true → symbols v = symbols' v) :
    Sum.elim symbols symbols' ∘ inSecond fixed = symbols' := by
  funext v
  rw [Function.comp_apply, inSecond]
  split_ifs with hv
  · exact hfixed v hv
  · rfl

theorem inSecond_eq (m : Value ⊕ Value → Int) (v : Value) (hv : fixed v = true) :
    (m ∘ Sum.inl) v = (m ∘ inSecond fixed) v := by
  rw [Function.comp_apply, Function.comp_apply, inSecond, if_pos hv]

theorem eval_distance (first second : List GepIndex) (m : Value ⊕ Value → Int) :
    LinearForm.eval m (distance form fixed first second) =
      LinearForm.eval (m ∘ Sum.inl) (chainBytes form first) -
        LinearForm.eval (m ∘ inSecond fixed) (chainBytes form second) := by
  rw [distance, map_sub, LinearForm.eval_rename, LinearForm.eval_rename]

end Forms

section Pointers

variable (F : Function) (SE : ScalarEvolution) (form : Value → LinearForm Value)
  (fixed : Value → Bool) (p q : Value) (size size' : Nat)

/-- `createExprFromSCEV` reads the indices of a pointer as the affine functions they
are. -/
def ReadsIndices (pointer : Value) : Prop :=
  ∀ index ∈ chainIndices F F.allInsts.length pointer, ∀ symbols,
    (SE.expr F (SE.getSCEV index.value)).eval symbols =
      LinearForm.eval symbols (form index.value)

/-- The distance of a pointer from its base in an iteration. -/
noncomputable def bytesAt (symbols : Value → Int) (pointer : Value) : Int :=
  gepOffset F (fun v => LinearForm.eval symbols (form v)) F.allInsts.length pointer

/-- Where two accesses share a byte in two iterations, their subscripts name one
element. -/
def AliasingKept : Prop :=
  ∀ (address : Value → Int) (symbols symbols' : Value → Int),
    (∀ v, fixed v = true → symbols v = symbols' v) →
    Overlap (address (flattenPointer F SE p).1 + bytesAt F form symbols p) size
      (address (flattenPointer F SE q).1 + bytesAt F form symbols' q) size' →
    elementAt (flattenPointer F SE p).2 symbols = elementAt (flattenPointer F SE q).2 symbols'

variable {F SE form p q}

theorem elementAt_flattenPointer {pointer : Value} (hreads : ReadsIndices F SE form pointer)
    (symbols : Value → Int) : elementAt (flattenPointer F SE pointer).2 symbols =
      (chainElement form (chainIndices F F.allInsts.length pointer)).map
        (LinearForm.eval symbols) := by
  rw [elementAt, flattenPointer, flattenGEP_eq, chainElement, List.isEmpty_map]
  split_ifs
  · simp [AffineExpr.eval]
  · rw [List.map_map, List.map_map]
    refine List.map_congr_left fun index hindex => ?_
    exact hreads index hindex symbols

theorem bytesAt_eq (symbols : Value → Int) (pointer : Value) :
    bytesAt F form symbols pointer =
      LinearForm.eval symbols (chainBytes form (chainIndices F F.allInsts.length pointer)) := by
  rw [bytesAt, gepOffset_eq, eval_chainBytes]

/-- Subscripts keep the aliasing of two pointers with one base exactly if the bytes
between them tell the indices. -/
theorem aliasingKept_iff (hbase : (flattenPointer F SE p).1 = (flattenPointer F SE q).1)
    (hp : ReadsIndices F SE form p) (hq : ReadsIndices F SE form q) :
    AliasingKept F SE form fixed p q size size' ↔
      DistancesTell form fixed (chainIndices F F.allInsts.length p)
        (chainIndices F F.allInsts.length q) size size' := by
  simp only [AliasingKept, elementAt_flattenPointer hp, elementAt_flattenPointer hq, hbase,
    overlap_iff, bytesAt_eq]
  constructor
  · intro h hsize hsize' d hlow hhigh hd
    rw [← LinearForm.map_eval_eq_iff hd]
    intro m hm
    rw [eval_distance] at hm
    have heq := h 0 (m ∘ Sum.inl) (m ∘ inSecond fixed) (inSecond_eq fixed m)
      ⟨by omega, by omega, by simp only [Pi.zero_apply]; omega, by simp only [Pi.zero_apply]; omega⟩
    simpa only [map_eval_rename] using heq
  · rintro h address symbols symbols' hfixed ⟨hsize, hsize', hlow, hhigh⟩
    let m : Value ⊕ Value → Int := Sum.elim symbols symbols'
    have hsecond : m ∘ inSecond fixed = symbols' := eval_inSecond fixed hfixed
    have hm := eval_distance form fixed (chainIndices F F.allInsts.length p)
      (chainIndices F F.allInsts.length q) m
    rw [hsecond, Sum.elim_comp_inl] at hm
    have hd := (LinearForm.exists_eval_eq_iff (distance form fixed
      (chainIndices F F.allInsts.length p) (chainIndices F F.allInsts.length q)) _).mp ⟨m, hm⟩
    have hall := h (by omega) (by omega) _ (by omega) (by omega) hd
    rw [← LinearForm.map_eval_eq_iff hd] at hall
    have heq := hall m hm
    simpa only [map_eval_rename, hsecond, Sum.elim_comp_inl, m] using heq

end Pointers

section Examples

/-- `A[i]` and `A[j]` in an array of 8-byte numbers, and the first row of the same
array with two indices. -/
def rowPayload : Payload where
  inner := [⟨41, .ptr, .gep 30 [.elem 1 8]⟩, ⟨42, .ptr, .gep 30 [.elem 2 8]⟩,
    ⟨43, .ptr, .gep 30 [.elem 8 64, .elem 1 8]⟩]

noncomputable def exampleForm (v : Value) : LinearForm Value :=
  if v = 8 then const 0 else .var v

theorem rowPayload_reads (pointer : Value) (hpointer : pointer ∈ [30, 41, 42, 43]) :
    ReadsIndices (rowPayload.function .slt) exampleEvolution exampleForm pointer := by
  intro index hindex symbols
  have hvalue : index.value ∈ [1, 2, 8] := by
    have hall : ∀ pointer ∈ [30, 41, 42, 43], ∀ index ∈ chainIndices (rowPayload.function .slt)
      (rowPayload.function .slt).allInsts.length pointer, index.value ∈ [1, 2, 8] := by decide
    exact hall pointer hpointer index hindex
  have hexpr : ∀ v ∈ [1, 2, 8], exampleEvolution.expr (rowPayload.function .slt)
      (exampleEvolution.getSCEV v) = if v = 8 then {} else makeUnknownExpr v := by decide
  rw [hexpr _ hvalue, exampleForm]
  split_ifs
  · simp [AffineExpr.eval]
  · rw [eval_makeUnknownExpr, LinearForm.eval_var]

theorem rowPayload_aliasingKept : AliasingKept (rowPayload.function .slt) exampleEvolution
    exampleForm (fun _ => false) 41 42 8 8 := by
  refine (aliasingKept_iff (p := 41) (q := 42) (fun _ => false) 8 8 rfl
    (rowPayload_reads 41 (by decide)) (rowPayload_reads 42 (by decide))).mpr ?_
  intro _ _ d hlow hhigh hd
  have hfirst : chainIndices (rowPayload.function .slt)
    (rowPayload.function .slt).allInsts.length 41 = [.elem 1 8] := rfl
  have hsecond : chainIndices (rowPayload.function .slt)
    (rowPayload.function .slt).allInsts.length 42 = [.elem 2 8] := rfl
  rw [hfirst, hsecond] at hd ⊢
  obtain ⟨m, hm⟩ := (LinearForm.exists_eval_eq_iff _ _).mpr hd
  rw [eval_distance, eval_chainBytes, eval_chainBytes] at hm
  simp [GepIndex.offset, exampleForm] at hm
  have hzero : d = 0 := by omega
  subst hzero
  refine .cons (LinearForm.isMultiple_of_eval (k := 8) (n := 1) (by decide) fun m => ?_) .nil
  rw [map_sub, map_sub, eval_distance, eval_chainBytes, eval_chainBytes]
  simp [GepIndex.offset, GepIndex.value]
  ring

/-- The element `A[0]` through the array type and without: the lists of subscripts
have different lengths. -/
theorem not_aliasingKept : ¬ ∀ (F : Function) (SE : ScalarEvolution)
    (form : Value → LinearForm Value) (fixed : Value → Bool) (p q : Value) (size size' : Nat),
    (flattenPointer F SE p).1 = (flattenPointer F SE q).1 → ReadsIndices F SE form p →
    ReadsIndices F SE form q → AliasingKept F SE form fixed p q size size' := by
  intro hall
  have hkept := hall (rowPayload.function .slt) exampleEvolution exampleForm (fun _ => false)
    30 43 8 8 rfl (rowPayload_reads 30 (by decide)) (rowPayload_reads 43 (by decide)) 0 0 0
    (fun _ _ => rfl) ?_
  · exact absurd hkept (by decide)
  · have hdirect : bytesAt (rowPayload.function .slt) exampleForm 0 30 = 0 := rfl
    have hrow : bytesAt (rowPayload.function .slt) exampleForm 0 43 = 0 := by
      have hindices : chainIndices (rowPayload.function .slt)
        (rowPayload.function .slt).allInsts.length 43 = [.elem 8 64, .elem 1 8] := rfl
      rw [bytesAt, gepOffset_eq, hindices]
      simp [GepIndex.offset, exampleForm]
    rw [hdirect, hrow]
    exact ⟨0, by decide, by decide⟩

end Examples

end PolyhedralPass
