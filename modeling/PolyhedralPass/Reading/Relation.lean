/-
The relation `getDependencies` returns, in terms of what isl reads in the
strings: which strings it can read, and which pairs of iterations it keeps.
-/
import PolyhedralPass.Dependence
import PolyhedralPass.Reading.Access

namespace PolyhedralPass

open Isl

section Relation

variable (F : Function) (nest : LoopNestDescriptor)

/-- The iterations of the domain string. -/
def InDomain (x : Point) : Prop :=
  ∃ body, domainBody F nest = some body ∧ x ∈ body.toUnionSet

/-- The array elements one access touches at an iteration. -/
def Touches (access : MemoryAccess) (x cell : Point) : Prop :=
  ∃ body, accessBody F nest access = some body ∧ (x, cell) ∈ body.toUnionMap

/-- The pairs of the order string. -/
def Before (x y : Point) : Prop :=
  ∃ dom ran vars, pairScope nest = some (dom, ran, vars) ∧
    (x, y) ∈ (Body.map ⟨"Stmt", dom⟩ ⟨"Stmt", ran⟩ .tt).toUnionMap ∧
    precedes vars (x.coords ++ y.coords) [] nest.identifiers

/-- The pairs that violate one dimension. -/
def Violates (word : String) (x y : Point) : Prop :=
  ∃ dom ran vars, pairScope nest = some (dom, ran, vars) ∧
    (x, y) ∈ (Body.map ⟨"Stmt", dom⟩ ⟨"Stmt", ran⟩ .tt).toUnionMap ∧
    comparesPrimed vars .gt word (x.coords ++ y.coords)

/-- Two accesses, one of them a store, touch an element in common. -/
def Conflict (x y : Point) : Prop :=
  ∃ a ∈ nest.accesses, ∃ b ∈ nest.accesses,
    (a.accessKind = .store ∨ b.accessKind = .store) ∧
      ∃ cell, Touches F nest a x cell ∧ Touches F nest b y cell

variable {F nest}

theorem LoopNestDescriptor.WellFormed.loops_ne_nil (hwf : nest.WellFormed F) :
    nest.loops ≠ [] := by
  intro hnil
  have hdepth := hwf.depth_ge
  simp [LoopNestDescriptor.depth, hnil] at hdepth

theorem wordReadable_primed (word : String) : wordReadable (word ++ "_p") := by
  simp [wordReadable, checkKeywords_primed]

/-- A second tuple of primed words is readable behind any first one. -/
theorem pairScope_isSome : (pairScope nest).isSome = nest.identifiers.all wordReadable := by
  rw [← tupleItems_word_isSome [], pairScope]
  cases hdom : tupleItems wordElem [] nest.identifiers with
  | none => rfl
  | some scope =>
      obtain ⟨dom, vars⟩ := scope
      have hran : (tupleItems wordElem vars nest.primed).isSome := by
        rw [tupleItems_word_isSome, List.all_eq_true]
        intro word hword
        obtain ⟨id, _, rfl⟩ := List.mem_map.mp hword
        exact wordReadable_primed id
      simpa using hran

theorem pairScope_of_domainBody {body : Body} (hbody : domainBody F nest = some body) :
    ∃ dom ran vars, pairScope nest = some (dom, ran, vars) := by
  obtain ⟨scope, hscope, _⟩ := Option.bind_eq_some_iff.mp hbody
  have hwords := tupleItems_word_isSome [] nest.identifiers
  rw [hscope, ← pairScope_isSome, Option.isSome_some] at hwords
  obtain ⟨⟨dom, ran, vars⟩, hpair⟩ := Option.isSome_iff_exists.mp hwords.symm
  exact ⟨dom, ran, vars, hpair⟩

/-- The pairs of one kind of accesses, as a set. -/
theorem mem_bodies_iff {kind : AccessKind} {bodies : List Body}
    (hbodies : (nest.accesses.filter (·.accessKind == kind)).mapM (accessBody F nest) =
      some bodies) (x cell : Point) :
    (∃ body ∈ bodies, (x, cell) ∈ body.toUnionMap) ↔
      ∃ access ∈ nest.accesses, access.accessKind = kind ∧ Touches F nest access x cell := by
  constructor
  · rintro ⟨body, hbody, hmem⟩
    obtain ⟨access, haccess, hread⟩ := (mapM_option_mem hbodies body).mp hbody
    obtain ⟨haccess, hkind⟩ := List.mem_filter.mp haccess
    exact ⟨access, haccess, by simpa using hkind, body, hread, hmem⟩
  · rintro ⟨access, haccess, hkind, body, hread, hmem⟩
    refine ⟨body, (mapM_option_mem hbodies body).mpr ⟨access, ?_, hread⟩, hmem⟩
    exact List.mem_filter.mpr ⟨haccess, by simpa using hkind⟩

/-- The union of the write-write, write-read and read-write pairs. -/
theorem mem_conflicts_iff (reads writes : UnionMap) (x y : Point) :
    (x, y) ∈ applyRange writes (reverse writes) ∪ applyRange writes (reverse reads) ∪
        applyRange reads (reverse writes) ↔
      ∃ cell, ((x, cell) ∈ writes ∧ (y, cell) ∈ writes) ∨
        ((x, cell) ∈ writes ∧ (y, cell) ∈ reads) ∨ ((x, cell) ∈ reads ∧ (y, cell) ∈ writes) := by
  constructor
  · rintro ((⟨cell, hx, hy⟩ | ⟨cell, hx, hy⟩) | ⟨cell, hx, hy⟩)
    · exact ⟨cell, Or.inl ⟨hx, hy⟩⟩
    · exact ⟨cell, Or.inr (Or.inl ⟨hx, hy⟩)⟩
    · exact ⟨cell, Or.inr (Or.inr ⟨hx, hy⟩)⟩
  · rintro ⟨cell, ⟨hx, hy⟩ | ⟨hx, hy⟩ | ⟨hx, hy⟩⟩
    · exact Or.inl (Or.inl ⟨cell, hx, hy⟩)
    · exact Or.inl (Or.inr ⟨cell, hx, hy⟩)
    · exact Or.inr ⟨cell, hx, hy⟩

theorem inDomain_iff {body : Body} (hbody : domainBody F nest = some body) (x : Point) :
    InDomain F nest x ↔ x ∈ body.toUnionSet := by
  constructor
  · rintro ⟨body', hbody', hx⟩
    obtain rfl : body = body' := Option.some.inj (hbody.symm.trans hbody')
    exact hx
  · exact fun hx => ⟨body, hbody, hx⟩

theorem before_iff {dom ran : List (Option Aff)} {vars : Vars} {cond : Formula}
    (hscope : pairScope nest = some (dom, ran, vars))
    (hholds : ∀ env, cond.holds env ↔ precedes vars env [] nest.identifiers) (x y : Point) :
    Before nest x y ↔ (x, y) ∈ (Body.map ⟨"Stmt", dom⟩ ⟨"Stmt", ran⟩ cond).toUnionMap := by
  simp only [Before, hscope, Option.some.injEq, Prod.mk.injEq, Body.toUnionMap,
    Set.mem_ofPred_eq, Formula.holds, and_true]
  constructor
  · rintro ⟨_, _, _, ⟨rfl, rfl, rfl⟩, ⟨hx, hy, hdom, hran⟩, hcond⟩
    exact ⟨hx, hy, hdom, hran, (hholds _).mpr hcond⟩
  · rintro ⟨hx, hy, hdom, hran, hcond⟩
    exact ⟨_, _, _, ⟨rfl, rfl, rfl⟩, ⟨hx, hy, hdom, hran⟩, (hholds _).mp hcond⟩

/-- An element that is a word is equated with what the word stands for behind
it, or the word stands for its position. -/
theorem wordElem_wordAff {vars vars' : Vars} {word : String} {elem : Option Aff}
    (h : wordElem vars word = some (elem, vars')) :
    ∃ aff, wordAff vars' word = some aff ∧
      (elem = some aff ∨ elem = none ∧ aff = .add (.cst 0) (.var vars.length)) := by
  have hkeep := wordAff_append_none vars word
  unfold wordElem at h
  split at h
  · rename_i name htoken hpos
    simp only [Option.some.injEq, Prod.mk.injEq] at h
    obtain ⟨rfl, rfl⟩ := h
    have hname : name = word := by
      rcases wordToken_eq word with hword | ⟨kw, hword⟩
      · rw [hword] at htoken
        exact (Token.ident.inj htoken).symm
      · rw [hword] at htoken
        exact absurd htoken (by simp)
    have hnew : varsPos (vars ++ [some name]) name = some vars.length := by
      subst hname
      rw [varsPos] at hpos ⊢
      rw [List.findIdx?_append, hpos]
      simp
    refine ⟨_, ?_, Or.inr ⟨rfl, rfl⟩⟩
    unfold wordAff
    rw [htoken]
    simp [hnew]
  · obtain ⟨aff, haff, heq⟩ := Option.map_eq_some_iff.mp h
    simp only [Prod.mk.injEq] at heq
    obtain ⟨rfl, rfl⟩ := heq
    exact ⟨aff, hkeep.trans haff, Or.inl rfl⟩

/-- Where a tuple of words admits a point, every word has the value of each of its
positions. -/
theorem tupleItems_admits {vars vars' : Vars} {words : List String} {elems : List (Option Aff)}
    (h : tupleItems wordElem vars words = some (elems, vars')) {name : String} {env : List Int}
    (hadmits : (⟨name, elems⟩ : Tuple).admits vars.length env) (more : Vars) {i : Nat}
    (hi : i < words.length) :
    wordEval (vars' ++ more) words[i] env = env[vars.length + i]? := by
  induction words generalizing vars elems i with
  | nil => exact absurd hi (by simp)
  | cons word words ih =>
      obtain ⟨⟨first, vars₁⟩, hfirst, hrest⟩ := Option.bind_eq_some_iff.mp h
      obtain ⟨⟨rest, vars₂⟩, htail, heq⟩ := Option.map_eq_some_iff.mp hrest
      simp only [Prod.mk.injEq] at heq
      obtain ⟨rfl, rfl⟩ := heq
      obtain ⟨⟨later, hlater, _⟩, _⟩ := tupleItems_word_vars vars₁ htail
      obtain ⟨entry, hvars, hword⟩ := wordElem_vars vars hfirst
      have hlength : vars₁.length = vars.length + 1 := by simp [hvars]
      cases i with
      | zero =>
          obtain ⟨aff, haff, helem⟩ := wordElem_wordAff hfirst
          have hmore : wordAff (vars₂ ++ more) word = some aff := by
            rw [hlater, List.append_assoc, wordAff_append _ (by rw [haff]; rfl), haff]
          rw [List.getElem_cons_zero, ← eval_wordAff hmore, Nat.add_zero]
          rcases helem with rfl | ⟨_, rfl⟩
          · exact hadmits 0 aff rfl
          · simp [Aff.eval]
      | succ i =>
          have hadmits' : (⟨name, rest⟩ : Tuple).admits vars₁.length env := by
            intro k expr hk
            have hvalue := hadmits (k + 1) expr hk
            rwa [hlength, Nat.add_assoc, Nat.add_comm 1 k]
          have hvalue := ih htail hadmits' (by simpa using hi)
          rw [hlength] at hvalue
          simpa [Nat.add_assoc, Nat.add_comm 1 i] using hvalue

theorem length_tupleItems {α : Type} {elem : Vars → α → Option (Option Aff × Vars)}
    {vars vars' : Vars} {items : List α} {elems : List (Option Aff)}
    (h : tupleItems elem vars items = some (elems, vars')) : elems.length = items.length := by
  induction items generalizing vars elems with
  | nil =>
      simp only [tupleItems, Option.some.injEq, Prod.mk.injEq] at h
      rw [← h.1]
      rfl
  | cons item items ih =>
      obtain ⟨⟨first, vars₁⟩, _, hrest⟩ := Option.bind_eq_some_iff.mp h
      obtain ⟨⟨rest, vars₂⟩, htail, heq⟩ := Option.map_eq_some_iff.mp hrest
      simp only [Prod.mk.injEq] at heq
      obtain ⟨rfl, rfl⟩ := heq
      rw [List.length_cons, ih htail, List.length_cons]

theorem wordEval_append {vars : Vars} {word : String} {env : List Int} {v : Int}
    (h : wordEval vars word env = some v) (more : List Int) :
    wordEval vars word (env ++ more) = some v := by
  obtain ⟨pos, hpos, hvalue⟩ := Option.bind_eq_some_iff.mp h
  obtain ⟨hlt, _⟩ := List.getElem?_eq_some_iff.mp hvalue
  rw [wordEval, hpos, Option.bind_some, wordValue, List.getElem?_append_left hlt]
  exact hvalue

/-- A pair of iterations in a relation over two tuples gives every word the value
of each of its positions. -/
theorem wordEval_of_pairScope {dom ran : List (Option Aff)} {vars : Vars} {cond : Formula}
    (hscope : pairScope nest = some (dom, ran, vars)) {x y : Point}
    (hmem : (x, y) ∈ (Body.map ⟨"Stmt", dom⟩ ⟨"Stmt", ran⟩ cond).toUnionMap) :
    x.coords.length = nest.depth ∧ y.coords.length = nest.depth ∧
      ∀ i (hi : i < nest.identifiers.length),
        wordEval vars nest.identifiers[i] (x.coords ++ y.coords) = x.coords[i]? ∧
        wordEval vars (nest.identifiers[i] ++ "_p") (x.coords ++ y.coords) = y.coords[i]? := by
  obtain ⟨⟨dom', vars₁⟩, hdom, hrest⟩ := Option.bind_eq_some_iff.mp hscope
  obtain ⟨⟨ran', vars₂⟩, hran, heq⟩ := Option.map_eq_some_iff.mp hrest
  simp only [Prod.mk.injEq] at heq
  obtain ⟨rfl, rfl, rfl⟩ := heq
  obtain ⟨⟨_, hx⟩, ⟨_, hy⟩, hdomAdmits, hranAdmits, _⟩ := hmem
  obtain ⟨⟨names, hnames, hlength⟩, _⟩ := tupleItems_word_vars [] hdom
  obtain ⟨⟨later, hlater, _⟩, _⟩ := tupleItems_word_vars vars₁ hran
  have hids := identifiers_length nest
  have hvars : vars₁.length = dom'.length := by
    rw [hnames, length_tupleItems hdom, List.nil_append, hlength]
  rw [length_tupleItems hdom, hids] at hx
  rw [length_tupleItems hran, LoopNestDescriptor.primed, List.length_map, hids] at hy
  refine ⟨hx, hy, ?_⟩
  intro i hi
  constructor
  · have hvalue := tupleItems_admits hdom hdomAdmits later hi
    rw [← hlater, List.length_nil, Nat.zero_add, List.getElem?_eq_getElem (by omega)] at hvalue
    rw [wordEval_append hvalue, List.getElem?_eq_getElem]
  · have hprimed : i < nest.primed.length := by
      rw [LoopNestDescriptor.primed, List.length_map]
      exact hi
    rw [← hvars] at hranAdmits
    have hvalue := tupleItems_admits hran hranAdmits [] hprimed
    have hfirst : vars₁.length = x.coords.length := by
      rw [hvars, length_tupleItems hdom, hids, hx]
    have hright : (x.coords ++ y.coords)[vars₁.length + i]? = y.coords[i]? := by
      rw [hfirst, List.getElem?_append_right (Nat.le_add_right _ _), Nat.add_sub_cancel_left]
    rw [List.append_nil, hright] at hvalue
    simpa [LoopNestDescriptor.primed] using hvalue

section Calls

variable (hwf : nest.WellFormed F)
include hwf

theorem unionSetReadFromStr_domain (eqEq : Bool) :
    unionSetReadFromStr eqEq (domainStr F nest) = (domainBody F nest).map Body.toUnionSet :=
  unionSetReadFromStr_domainStr F nest eqEq hwf.loops_ne_nil hwf.lower_constant
    hwf.upper_hasSymbols

theorem unionMapReadFromStr_access (eqEq : Bool) (kind : AccessKind) :
    unionMapReadFromStr eqEq (accessStr F nest kind) =
      ((nest.accesses.filter (·.accessKind == kind)).mapM (accessBody F nest)).map fun bodies =>
        { pair | ∃ body ∈ bodies, pair ∈ body.toUnionMap } :=
  unionMapReadFromStr_accessStr F nest eqEq hwf.loops_ne_nil hwf.subscript_hasSymbols kind

/-- The null tests and the calls of `getDependencies`, one string after the
other. -/
theorem getDependencies_eq : getDependencies true F nest =
    (domainBody F nest).bind fun _ =>
    ((nest.accesses.filter (·.accessKind == .load)).mapM (accessBody F nest)).bind fun _ =>
    ((nest.accesses.filter (·.accessKind == .store)).mapM (accessBody F nest)).map fun _ =>
      { pair | InDomain F nest pair.1 ∧ InDomain F nest pair.2 ∧ Before nest pair.1 pair.2 ∧
        Conflict F nest pair.1 pair.2 } := by
  unfold getDependencies readStr writeStr
  rw [unionSetReadFromStr_domain hwf, unionMapReadFromStr_access hwf,
    unionMapReadFromStr_access hwf]
  cases hdomain : domainBody F nest with
  | none => rfl
  | some domain =>
      cases hreads : (nest.accesses.filter (·.accessKind == .load)).mapM (accessBody F nest) with
      | none => rfl
      | some reads =>
          cases hwrites : (nest.accesses.filter (·.accessKind == .store)).mapM
              (accessBody F nest) with
          | none => rfl
          | some writes =>
              obtain ⟨dom, ran, vars, hscope⟩ := pairScope_of_domainBody hdomain
              obtain ⟨cond, hbefore, hholds⟩ :=
                unionMapReadFromStr_beforeStr hwf.loops_ne_nil hscope
              simp only [Option.map_some, Option.bind_eq_bind, Option.bind_some, hbefore,
                intersect, Option.some.injEq]
              ext ⟨x, y⟩
              rw [Set.mem_inter_iff, mem_conflicts_iff, ← before_iff hscope hholds]
              simp only [intersectDomain, Set.mem_ofPred_eq, ← inDomain_iff hdomain,
                mem_bodies_iff hreads, mem_bodies_iff hwrites]
              constructor
              · rintro ⟨⟨cell, h⟩, hbefore⟩
                rcases h with ⟨⟨⟨a, ha, hak, hx⟩, hxd⟩, ⟨b, hb, hbk, hy⟩, hyd⟩ |
                  ⟨⟨⟨a, ha, hak, hx⟩, hxd⟩, ⟨b, hb, hbk, hy⟩, hyd⟩ |
                  ⟨⟨⟨a, ha, hak, hx⟩, hxd⟩, ⟨b, hb, hbk, hy⟩, hyd⟩
                · exact ⟨hxd, hyd, hbefore, a, ha, b, hb, Or.inl hak, cell, hx, hy⟩
                · exact ⟨hxd, hyd, hbefore, a, ha, b, hb, Or.inl hak, cell, hx, hy⟩
                · exact ⟨hxd, hyd, hbefore, a, ha, b, hb, Or.inr hbk, cell, hx, hy⟩
              · rintro ⟨hxd, hyd, hbefore, a, ha, b, hb, hkind, cell, hx, hy⟩
                refine ⟨⟨cell, ?_⟩, hbefore⟩
                cases hak : a.accessKind with
                | store =>
                    cases hbk : b.accessKind with
                    | store => exact Or.inl ⟨⟨⟨a, ha, hak, hx⟩, hxd⟩, ⟨b, hb, hbk, hy⟩, hyd⟩
                    | load =>
                        exact Or.inr (Or.inl ⟨⟨⟨a, ha, hak, hx⟩, hxd⟩, ⟨b, hb, hbk, hy⟩, hyd⟩)
                | load =>
                    have hbk : b.accessKind = .store := by simpa [hak] using hkind
                    exact Or.inr (Or.inr ⟨⟨⟨a, ha, hak, hx⟩, hxd⟩, ⟨b, hb, hbk, hy⟩, hyd⟩)

/-- The pairs `getDependencies` returns. -/
theorem mem_getDependencies {deps : UnionMap}
    (hdeps : getDependencies true F nest = some deps) (x y : Point) :
    (x, y) ∈ deps ↔
      InDomain F nest x ∧ InDomain F nest y ∧ Before nest x y ∧ Conflict F nest x y := by
  rw [getDependencies_eq hwf] at hdeps
  obtain ⟨domain, _, hdeps⟩ := Option.bind_eq_some_iff.mp hdeps
  obtain ⟨reads, _, hdeps⟩ := Option.bind_eq_some_iff.mp hdeps
  obtain ⟨writes, _, rfl⟩ := Option.map_eq_some_iff.mp hdeps
  rfl

/-- When isl can read the strings of `getDependencies`. -/
theorem getDependencies_isSome :
    (getDependencies true F nest).isSome ↔ (domainBody F nest).isSome ∧
      ∀ access ∈ nest.accesses, (accessBody F nest access).isSome := by
  have hkinds : (∀ access ∈ nest.accesses, (accessBody F nest access).isSome) ↔
      ((nest.accesses.filter (·.accessKind == .load)).mapM (accessBody F nest)).isSome ∧
      ((nest.accesses.filter (·.accessKind == .store)).mapM (accessBody F nest)).isSome := by
    rw [mapM_option_isSome, mapM_option_isSome]
    constructor
    · intro hall
      exact ⟨fun a ha => hall a (List.mem_of_mem_filter ha),
        fun a ha => hall a (List.mem_of_mem_filter ha)⟩
    · rintro ⟨hloads, hstores⟩ a ha
      cases hkind : a.accessKind with
      | load => exact hloads a (List.mem_filter.mpr ⟨ha, by simp [hkind]⟩)
      | store => exact hstores a (List.mem_filter.mpr ⟨ha, by simp [hkind]⟩)
  rw [hkinds, getDependencies_eq hwf]
  cases domainBody F nest with
  | none => simp
  | some domain =>
      cases (nest.accesses.filter (·.accessKind == .load)).mapM (accessBody F nest) with
      | none => simp
      | some reads => simp


end Calls

section Legality

variable (eqEq : Bool)

theorem violates_iff {dom ran : List (Option Aff)} {vars : Vars} {cond : Formula} {word : String}
    (hscope : pairScope nest = some (dom, ran, vars))
    (hholds : ∀ env, cond.holds env ↔ comparesPrimed vars .gt word env) (x y : Point) :
    Violates nest word x y ↔
      (x, y) ∈ (Body.map ⟨"Stmt", dom⟩ ⟨"Stmt", ran⟩ cond).toUnionMap := by
  simp only [Violates, hscope, Option.some.injEq, Prod.mk.injEq, Body.toUnionMap,
    Set.mem_ofPred_eq, Formula.holds, and_true, hholds]
  constructor
  · rintro ⟨_, _, _, ⟨rfl, rfl, rfl⟩, ⟨hx, hy, hdom, hran⟩, hcond⟩
    exact ⟨hx, hy, hdom, hran, hcond⟩
  · rintro ⟨hx, hy, hdom, hran, hcond⟩
    exact ⟨_, _, _, ⟨rfl, rfl, rfl⟩, ⟨hx, hy, hdom, hran⟩, hcond⟩

theorem unionMapReadFromStr_negativeDistStr_none (hscope : pairScope nest = none) {k : Nat}
    (hk : k < nest.identifiers.length) :
    unionMapReadFromStr eqEq (negativeDistStr nest k) = none := by
  have hne : nest.loops ≠ [] := by
    rintro hnil
    simp [LoopNestDescriptor.identifiers, hnil] at hk
  rw [unionMapReadFromStr, tokens_negativeDistStr hk, objRead_pairTokens_none hne hscope]
  rfl

/-- The test of one dimension.  A relation isl cannot read makes the emptiness
test fail, which the negation takes for a success. -/
theorem dimensionLegal_iff (deps : UnionMap) {k : Nat} (hk : k < nest.identifiers.length) :
    (unionMapIsEmpty (intersect (some deps)
        (unionMapReadFromStr eqEq (negativeDistStr nest k)))).not = false ↔
      ∀ x y, (x, y) ∈ deps → ¬ Violates nest nest.identifiers[k] x y := by
  cases hscope : pairScope nest with
  | none =>
      rw [unionMapReadFromStr_negativeDistStr_none eqEq hscope hk, intersect_none]
      simp [Violates, hscope, unionMapIsEmpty, Bool3.not]
  | some scope =>
      obtain ⟨dom, ran, vars⟩ := scope
      obtain ⟨cond, hread, hholds⟩ := unionMapReadFromStr_negativeDistStr eqEq hscope hk
      have hempty : ∀ umap : UnionMap, (unionMapIsEmpty (some umap)).not = false ↔ umap = ∅ := by
        intro umap
        by_cases h : umap = ∅ <;> simp [unionMapIsEmpty, h, Bool3.not]
      rw [hread, intersect, Option.bind_some, Option.map_some, hempty,
        Set.eq_empty_iff_forall_notMem]
      constructor
      · intro hnone x y hdeps hviolates
        exact hnone (x, y) ⟨hdeps, (violates_iff hscope hholds x y).mp hviolates⟩
      · rintro hlegal ⟨x, y⟩ ⟨hdeps, hviolates⟩
        exact hlegal x y hdeps ((violates_iff hscope hholds x y).mpr hviolates)

/-- The legality test as a statement on pairs. -/
theorem isTilingLegal_iff (hdepth : 2 ≤ nest.depth) (deps : UnionMap) :
    isTilingLegal eqEq nest (some deps) = true ↔
      ∀ word ∈ nest.identifiers, ∀ x y, (x, y) ∈ deps → ¬ Violates nest word x y := by
  have htests : isTilingLegal eqEq nest (some deps) = true ↔
      ∀ k < nest.identifiers.length, (unionMapIsEmpty (intersect (some deps)
        (unionMapReadFromStr eqEq (negativeDistStr nest k)))).not = false := by
    rw [identifiers_length]
    simp [isTilingLegal, Nat.not_lt.mpr hdepth]
  rw [htests]
  constructor
  · intro h word hword
    obtain ⟨k, hk, rfl⟩ := List.getElem_of_mem hword
    exact (dimensionLegal_iff eqEq deps hk).mp (h k hk)
  · intro h k hk
    exact (dimensionLegal_iff eqEq deps hk).mpr (h _ (List.getElem_mem hk))

end Legality

end Relation

end PolyhedralPass
