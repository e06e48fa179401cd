/-
The choice between the loops of a nest: which symbol wins the count, which loop it
leads to, and what the order of the pointers decides.
-/
import PolyhedralPass.Algebra
import PolyhedralPass.Placement

namespace PolyhedralPass

section StrictMax

variable {α : Type} (rank score : α → Nat)

/-- A run over the keys that remembers the best one so far. -/
def strictMax (keys : List α) : Option α × Nat :=
  keys.foldl (fun best key => if score key > best.2 then (some key, score key) else best) (none, 0)

/-- The key with the largest score, and with the lowest rank of those. -/
structure Leads (keys : List α) (key : α) : Prop where
  mem : key ∈ keys
  pos : 0 < score key
  score_le : ∀ other ∈ keys, score other ≤ score key
  rank_le : ∀ other ∈ keys, score other = score key → rank key ≤ rank other

variable {rank score}

theorem Leads.concat {keys : List α} {key last : α} (h : Leads rank score keys key)
    (hscore : score last ≤ score key) (hrank : rank key ≤ rank last) :
    Leads rank score (keys ++ [last]) key where
  mem := List.mem_append_left _ h.mem
  pos := h.pos
  score_le := by
    intro other hother
    rcases List.mem_append.mp hother with hother | hother
    · exact h.score_le other hother
    · rwa [List.mem_singleton.mp hother]
  rank_le := by
    intro other hother hsame
    rcases List.mem_append.mp hother with hother | hother
    · exact h.rank_le other hother hsame
    · rwa [List.mem_singleton.mp hother]

theorem leads_concat {keys : List α} {last : α} (h : ∀ other ∈ keys, score other < score last)
    (hpos : 0 < score last) : Leads rank score (keys ++ [last]) last where
  mem := by simp
  pos := hpos
  score_le := by
    intro other hother
    rcases List.mem_append.mp hother with hother | hother
    · exact (h other hother).le
    · rw [List.mem_singleton.mp hother]
  rank_le := by
    intro other hother hsame
    rcases List.mem_append.mp hother with hother | hother
    · exact absurd hsame (h other hother).ne
    · rw [List.mem_singleton.mp hother]

/-- Over keys in the order of their ranks, the first maximum leads. -/
theorem strictMax_cases (score : α → Nat) {keys : List α}
    (hsorted : keys.Pairwise fun a b => rank a ≤ rank b) :
    (strictMax score keys = (none, 0) ∧ ∀ key ∈ keys, score key = 0) ∨
      ∃ key, strictMax score keys = (some key, score key) ∧ Leads rank score keys key := by
  induction keys using List.reverseRecOn with
  | nil => exact .inl ⟨rfl, by simp⟩
  | append_singleton keys last ih =>
      obtain ⟨hkeys, _, hlast⟩ := List.pairwise_append.mp hsorted
      have hstep : strictMax score (keys ++ [last]) =
          if score last > (strictMax score keys).2 then (some last, score last)
          else strictMax score keys := by
        rw [strictMax, List.foldl_append]
        rfl
      rw [hstep]
      rcases ih hkeys with ⟨hnone, hzero⟩ | ⟨key, hsome, hleads⟩
      · rw [hnone]
        by_cases hpos : score last > 0
        · rw [if_pos hpos]
          refine .inr ⟨last, rfl, leads_concat (fun other hother => ?_) hpos⟩
          rw [hzero other hother]
          exact hpos
        · rw [if_neg hpos]
          refine .inl ⟨rfl, fun key hkey => ?_⟩
          rcases List.mem_append.mp hkey with hkey | hkey
          · exact hzero key hkey
          · rw [List.mem_singleton.mp hkey]
            omega
      · rw [hsome]
        by_cases hgt : score last > score key
        · rw [if_pos hgt]
          refine .inr ⟨last, rfl, leads_concat (fun other hother => ?_) (by omega)⟩
          exact (hleads.score_le other hother).trans_lt hgt
        · rw [if_neg hgt]
          have hrank := hlast key hleads.mem last (by simp)
          exact .inr ⟨key, rfl, hleads.concat (not_lt.mp hgt) hrank⟩

theorem Leads.unique (hrank : Function.Injective rank) {keys : List α} {first second : α}
    (h : Leads rank score keys first) (h' : Leads rank score keys second) : first = second := by
  have hscore : score second = score first :=
    (h.score_le second h'.mem).antisymm (h'.score_le first h.mem)
  exact hrank ((h.rank_le second h'.mem hscore).antisymm (h'.rank_le first h.mem hscore.symm))

end StrictMax

section Score

variable {nest : LoopNestDescriptor} {address : Value → Nat}

/-- The accesses whose last subscript has a term for the symbol. -/
def LoopNestDescriptor.accessCount (nest : LoopNestDescriptor) (symbol : Value) : Nat :=
  nest.accesses.countP fun access =>
    access.subscripts.getLast?.any fun last => last.terms.any (·.symbol == some symbol)

/-- The subscripts are expressions that the pass builds. -/
def LoopNestDescriptor.SubscriptsBuilt (nest : LoopNestDescriptor) : Prop :=
  ∀ access ∈ nest.accesses, ∀ expr ∈ access.subscripts, AffineExpr.Built expr

theorem count_terms {expr : AffineExpr} (h : expr.OneTermEach) (symbol : Value) :
    (expr.terms.filterMap AffineTerm.symbol).count symbol =
      if expr.terms.any (·.symbol == some symbol) then 1 else 0 := by
  have hcount : (expr.terms.filterMap AffineTerm.symbol).count symbol =
      (expr.terms.map AffineTerm.symbol).count (some symbol) := by
    induction expr.terms with
    | nil => rfl
    | cons term rest ih =>
        rw [List.map_cons, List.count_cons, ← ih]
        cases hsymbol : term.symbol with
        | none => simp [hsymbol]
        | some other => simp [hsymbol, List.count_cons]
  rw [hcount, List.Nodup.count h]
  congr 1
  simp only [List.mem_map, List.any_eq_true, beq_iff_eq]

/-- A symbol scores once for every access whose last subscript it occurs in. -/
theorem count_lastSubscriptSymbols (h : nest.SubscriptsBuilt) (symbol : Value) :
    (lastSubscriptSymbols nest).count symbol = nest.accessCount symbol := by
  obtain ⟨loops, accesses⟩ := nest
  unfold LoopNestDescriptor.SubscriptsBuilt at h
  unfold lastSubscriptSymbols LoopNestDescriptor.accessCount
  simp only at h ⊢
  induction accesses with
  | nil => rfl
  | cons access rest ih =>
      have hrest := ih fun later hlater => h later (List.mem_cons_of_mem access hlater)
      rw [List.flatMap_cons, List.count_append, hrest, List.countP_cons, add_comm]
      congr 1
      cases hlast : access.subscripts.getLast? with
      | none => simp
      | some last =>
          have hbuilt := h access List.mem_cons_self last (List.mem_of_getLast? hlast)
          simpa using count_terms hbuilt.oneTermEach symbol

/-- The symbol that `bestIV` returns: the one with the largest score and, among those,
with the lowest address. -/
def LoopNestDescriptor.Wins (nest : LoopNestDescriptor) (address : Value → Nat)
    (symbol : Value) : Prop :=
  Leads address (fun symbol => (lastSubscriptSymbols nest).count symbol)
    (lastSubscriptSymbols nest) symbol

/-- A symbol with the largest score. -/
def LoopNestDescriptor.IsTop (nest : LoopNestDescriptor) (symbol : Value) : Prop :=
  symbol ∈ lastSubscriptSymbols nest ∧ ∀ other ∈ lastSubscriptSymbols nest,
    (lastSubscriptSymbols nest).count other ≤ (lastSubscriptSymbols nest).count symbol

theorem bestIV_cases (nest : LoopNestDescriptor) (address : Value → Nat) :
    (bestIV address nest = none ∧ lastSubscriptSymbols nest = []) ∨
      ∃ symbol, bestIV address nest = some symbol ∧ nest.Wins address symbol := by
  let keys := (lastSubscriptSymbols nest).dedup.insertionSort fun a b => address a ≤ address b
  let score := fun symbol => (lastSubscriptSymbols nest).count symbol
  have hmem : ∀ key, key ∈ keys ↔ key ∈ lastSubscriptSymbols nest := by
    intro key
    rw [List.mem_insertionSort, List.mem_dedup]
  have hsorted : keys.Pairwise fun a b => address a ≤ address b := by
    have : Std.Total fun a b : Value => address a ≤ address b := ⟨fun a b => le_total _ _⟩
    have : IsTrans Value fun a b => address a ≤ address b := ⟨fun a b c => le_trans⟩
    exact List.pairwise_insertionSort _ _
  have hbest : bestIV address nest = (strictMax score keys).1 := rfl
  rw [hbest]
  rcases strictMax_cases score hsorted with ⟨hnone, hzero⟩ | ⟨key, hsome, hleads⟩
  · rw [hnone]
    refine .inl ⟨rfl, List.eq_nil_iff_forall_not_mem.mpr fun symbol hsymbol => ?_⟩
    have hcount : 0 < score symbol := List.count_pos_iff.mpr hsymbol
    exact hcount.ne' (hzero symbol ((hmem symbol).mpr hsymbol))
  · rw [hsome]
    exact .inr ⟨key, rfl, (hmem key).mp hleads.mem, hleads.pos,
      fun other hother => hleads.score_le other ((hmem other).mpr hother),
      fun other hother => hleads.rank_le other ((hmem other).mpr hother)⟩

theorem bestIV_eq_some_iff (haddress : Function.Injective address) {symbol : Value} :
    bestIV address nest = some symbol ↔ nest.Wins address symbol := by
  rcases bestIV_cases nest address with ⟨hnone, hnil⟩ | ⟨winner, hsome, hwins⟩
  · constructor
    · intro h
      rw [hnone] at h
      exact absurd h (by simp)
    · intro h
      have hmem : symbol ∈ lastSubscriptSymbols nest := h.mem
      rw [hnil] at hmem
      exact absurd hmem (by simp)
  · rw [hsome, Option.some.injEq]
    constructor
    · rintro rfl
      exact hwins
    · exact hwins.unique haddress

end Score

section Decision

variable (address : Value → Nat) (F : Function) (nest : LoopNestDescriptor)

/-- The loop a symbol leads to is not the innermost one, and has its type. -/
def LoopNestDescriptor.CanMove (nest : LoopNestDescriptor) (F : Function) (symbol : Value) :
    Prop :=
  bestIdx nest symbol ≠ nest.depth - 1 ∧
    ∃ loop innermost, nest.loops[bestIdx nest symbol]? = some loop ∧
      nest.loops[nest.depth - 1]? = some innermost ∧
        F.type loop.induction = F.type innermost.induction

/-- The loop that changes places with the innermost one when the symbol wins. -/
def movedLoop (symbol : Value) : Option Nat :=
  if bestIdx nest symbol = nest.depth - 1 then none
  else match nest.loops[bestIdx nest symbol]?, nest.loops[nest.depth - 1]? with
    | some loop, some innermost =>
        if F.type loop.induction = F.type innermost.induction then some (bestIdx nest symbol)
        else none
    | _, _ => none

/-- The loop that changes places with the innermost one, if there is one. -/
def orderChoice : Option Nat :=
  if nest.depth < 2 then none else (bestIV address nest).bind (movedLoop F nest)

variable {address F nest}

theorem movedLoop_eq_some_iff {symbol : Value} {idx : Nat} :
    movedLoop F nest symbol = some idx ↔ idx = bestIdx nest symbol ∧ nest.CanMove F symbol := by
  unfold movedLoop
  constructor
  · intro h
    split_ifs at h with hlast
    split at h
    · rename_i loop innermost hloop hinnermost
      split_ifs at h with htype
      obtain rfl := Option.some.inj h
      exact ⟨rfl, hlast, loop, innermost, hloop, hinnermost, htype⟩
    · exact absurd h (by simp)
  · rintro ⟨rfl, hlast, loop, innermost, hloop, hinnermost, htype⟩
    rw [if_neg hlast, hloop, hinnermost]
    simp only
    rw [if_pos htype]

theorem two_le_depth_of_movedLoop {symbol : Value} {idx : Nat}
    (h : movedLoop F nest symbol = some idx) : 2 ≤ nest.depth := by
  obtain ⟨rfl, hlast, loop, _, hloop, _⟩ := movedLoop_eq_some_iff.mp h
  have hidx : bestIdx nest symbol < nest.depth := (List.getElem?_eq_some_iff.mp hloop).1
  omega

theorem orderChoice_eq_some_iff (haddress : Function.Injective address) {idx : Nat} :
    orderChoice address F nest = some idx ↔
      ∃ symbol, nest.Wins address symbol ∧ movedLoop F nest symbol = some idx := by
  constructor
  · intro h
    unfold orderChoice at h
    split_ifs at h
    obtain ⟨symbol, hbest, hmoved⟩ := Option.bind_eq_some_iff.mp h
    exact ⟨symbol, (bestIV_eq_some_iff haddress).mp hbest, hmoved⟩
  · rintro ⟨symbol, hwins, hmoved⟩
    have hdepth := two_le_depth_of_movedLoop hmoved
    rw [orderChoice, if_neg (by omega), (bestIV_eq_some_iff haddress).mpr hwins]
    exact hmoved

/-- A symbol leads to the loop it is the induction variable of. -/
theorem bestIdx_induction {symbol : Value} (h : ∃ loop ∈ nest.loops, loop.induction = symbol) :
    ∃ loop, nest.loops[bestIdx nest symbol]? = some loop ∧ loop.induction = symbol := by
  obtain ⟨loop, hloop, rfl⟩ := h
  have hsome : (nest.loops.findIdx? (·.induction == loop.induction)).isSome := by
    rw [List.findIdx?_isSome, List.any_eq_true]
    exact ⟨loop, hloop, beq_self_eq_true _⟩
  obtain ⟨idx, hidx⟩ := Option.isSome_iff_exists.mp hsome
  obtain ⟨hlt, hinduction, _⟩ := List.findIdx?_eq_some_iff_getElem.mp hidx
  have hbest : bestIdx nest loop.induction = idx := by rw [bestIdx, hidx, Option.getD_some]
  rw [hbest]
  exact ⟨nest.loops[idx], List.getElem?_eq_getElem hlt, beq_iff_eq.mp hinduction⟩

variable (renamed : Function → Value → String) {SE : ScalarEvolution} {editor : Editor}

/-- The pass makes the interchange that is chosen, and no other. -/
theorem optimizeLoopOrder_eq (address : Value → Nat) (nest : LoopNestDescriptor)
    (editor : Editor) : optimizeLoopOrder renamed address nest editor =
      (orderChoice address editor.function nest).elim (.ok (false, nest, editor))
        fun idx => applyLoopInterchange renamed nest idx (nest.depth - 1) editor := by
  unfold optimizeLoopOrder orderChoice
  split_ifs with hdepth
  · rfl
  · cases hbest : bestIV address nest with
    | none => rfl
    | some symbol =>
        simp only [Option.bind_some, movedLoop]
        by_cases hlast : bestIdx nest symbol = nest.depth - 1
        · simp [hlast]
        · rw [if_pos hlast, if_neg hlast]
          cases hloop : nest.loops[bestIdx nest symbol]? with
          | none => simp [applyLoopInterchange, hloop]
          | some loop =>
              cases hinnermost : nest.loops[nest.depth - 1]? with
              | none => simp [applyLoopInterchange, hloop, hinnermost]
              | some innermost =>
                  by_cases htype : editor.function.type loop.induction =
                      editor.function.type innermost.induction
                  · simp [htype]
                  · simp [applyLoopInterchange, hloop, hinnermost, htype]

theorem exists_interchange_of_moved {nest : LoopNestDescriptor} (editor : Editor)
    (hloops : ∀ loop ∈ nest.loops, ∃ L, Describes editor.function SE L loop) {symbol : Value}
    {idx : Nat} (h : movedLoop editor.function nest symbol = some idx) : ∃ nest' editor',
      applyLoopInterchange renamed nest idx (nest.depth - 1) editor =
        .ok (true, nest', editor') := by
  obtain ⟨rfl, _, loop, innermost, hloop, hinnermost, htype⟩ := movedLoop_eq_some_iff.mp h
  obtain ⟨_, hdescribes⟩ := hloops loop (List.mem_of_getElem? hloop)
  obtain ⟨_, hdescribes'⟩ := hloops innermost (List.mem_of_getElem? hinnermost)
  obtain ⟨preOuter, hpreOuter⟩ := hdescribes.startBlock_ok
  obtain ⟨preInner, hpreInner⟩ := hdescribes'.startBlock_ok
  unfold applyLoopInterchange
  simp only [hloop, hinnermost]
  rw [if_neg (not_not.mpr htype), hpreOuter, hpreInner]
  exact ⟨_, _, rfl⟩

/-- The induction variable of the loop occurs in the last subscript of more accesses than
that of the innermost loop, and of no fewer than that of any loop. -/
def LoopNestDescriptor.GainsBy (nest : LoopNestDescriptor) (loop : LoopDescriptor) : Prop :=
  (∀ innermost, nest.loops[nest.depth - 1]? = some innermost →
    nest.accessCount innermost.induction < nest.accessCount loop.induction) ∧
  ∀ other ∈ nest.loops, nest.accessCount other.induction ≤ nest.accessCount loop.induction

/-- A symbol that wins and moves a loop is an induction variable of the nest, and that of
the innermost loop does not tie with it. -/
def LoopNestDescriptor.WinsAlone (nest : LoopNestDescriptor) (F : Function)
    (address : Value → Nat) : Prop :=
  ∀ symbol, nest.Wins address symbol → nest.CanMove F symbol →
    (∃ loop ∈ nest.loops, loop.induction = symbol) ∧
      ∀ innermost, nest.loops[nest.depth - 1]? = some innermost →
        nest.accessCount innermost.induction ≠ nest.accessCount symbol

theorem LoopNestDescriptor.Wins.accessCount_le {nest : LoopNestDescriptor}
    {address : Value → Nat} (hbuilt : nest.SubscriptsBuilt) {symbol : Value}
    (h : nest.Wins address symbol) (other : Value) :
    nest.accessCount other ≤ nest.accessCount symbol := by
  rw [← count_lastSubscriptSymbols hbuilt, ← count_lastSubscriptSymbols hbuilt]
  by_cases hother : other ∈ lastSubscriptSymbols nest
  · exact h.score_le other hother
  · rw [List.count_eq_zero_of_not_mem hother]
    exact Nat.zero_le _

/-- Where the pass makes an interchange, the symbol that won is the induction variable of
the loop that moves to the innermost position, and the nest gains by that loop. -/
def OrderGains (address : Value → Nat) (nest : LoopNestDescriptor) (editor : Editor) : Prop :=
  ∀ nest' editor', optimizeLoopOrder renamed address nest editor = .ok (true, nest', editor') →
    ∃ idx loop, orderChoice address editor.function nest = some idx ∧
      applyLoopInterchange renamed nest idx (nest.depth - 1) editor = .ok (true, nest', editor') ∧
      nest.loops[idx]? = some loop ∧ bestIV address nest = some loop.induction ∧ nest.GainsBy loop

theorem orderGains_iff (SE : ScalarEvolution) (nest : LoopNestDescriptor) (editor : Editor)
    (address : Value → Nat)
    (haddress : Function.Injective address)
    (hloops : ∀ loop ∈ nest.loops, ∃ L, Describes editor.function SE L loop)
    (hbuilt : nest.SubscriptsBuilt) :
    OrderGains renamed address nest editor ↔ nest.WinsAlone editor.function address := by
  constructor
  · intro h symbol hwins hmoved
    have hidx := movedLoop_eq_some_iff.mpr ⟨rfl, hmoved⟩
    have hchoice := (orderChoice_eq_some_iff haddress).mpr ⟨symbol, hwins, hidx⟩
    obtain ⟨nest', editor', happly⟩ := exists_interchange_of_moved renamed editor hloops hidx
    have horder : optimizeLoopOrder renamed address nest editor = .ok (true, nest', editor') := by
      rw [optimizeLoopOrder_eq, hchoice]
      exact happly
    obtain ⟨_, loop, _, _, hloop, hbest, hgains⟩ := h nest' editor' horder
    obtain rfl : loop.induction = symbol :=
      ((bestIV_eq_some_iff haddress).mp hbest).unique haddress hwins
    exact ⟨⟨loop, List.mem_of_getElem? hloop, rfl⟩,
      fun innermost hinnermost => (hgains.1 innermost hinnermost).ne⟩
  · intro h nest' editor' horder
    rw [optimizeLoopOrder_eq] at horder
    cases hchoice : orderChoice address editor.function nest with
    | none =>
        rw [hchoice] at horder
        exact absurd (Prod.mk.inj (Except.ok.inj horder)).1 (by simp)
    | some idx =>
        rw [hchoice] at horder
        obtain ⟨symbol, hwins, hmoved⟩ := (orderChoice_eq_some_iff haddress).mp hchoice
        obtain ⟨rfl, hcan⟩ := movedLoop_eq_some_iff.mp hmoved
        obtain ⟨hsymbol, hdiffers⟩ := h symbol hwins hcan
        obtain ⟨loop, hloop, rfl⟩ := bestIdx_induction hsymbol
        refine ⟨_, loop, rfl, horder, hloop, (bestIV_eq_some_iff haddress).mpr hwins, ?_, ?_⟩
        · intro innermost hinnermost
          exact (hwins.accessCount_le hbuilt _).lt_of_ne (hdiffers innermost hinnermost)
        · intro other _
          exact hwins.accessCount_le hbuilt _

end Decision

section Reproducibility

variable {F : Function} {nest : LoopNestDescriptor}

/-- Where one of the symbols with the largest score can move its loop, all of them lead
to that loop. -/
def LoopNestDescriptor.TopsAgree (nest : LoopNestDescriptor) (F : Function) : Prop :=
  ∀ first second, nest.IsTop first → nest.IsTop second → nest.CanMove F first →
    bestIdx nest second = bestIdx nest first

theorem LoopNestDescriptor.TopsAgree.movedLoop_eq (h : nest.TopsAgree F) {first second : Value}
    (hfirst : nest.IsTop first) (hsecond : nest.IsTop second) :
    movedLoop F nest first = movedLoop F nest second := by
  by_cases hcan : nest.CanMove F first
  · simp only [movedLoop, h first second hfirst hsecond hcan]
  · by_cases hcan' : nest.CanMove F second
    · simp only [movedLoop, h second first hsecond hfirst hcan']
    · have hnone : movedLoop F nest first = none :=
        Option.eq_none_iff_forall_ne_some.mpr fun _ hidx =>
          hcan (movedLoop_eq_some_iff.mp hidx).2
      have hnone' : movedLoop F nest second = none :=
        Option.eq_none_iff_forall_ne_some.mpr fun _ hidx =>
          hcan' (movedLoop_eq_some_iff.mp hidx).2
      rw [hnone, hnone']

theorem LoopNestDescriptor.Wins.isTop {address : Value → Nat} {symbol : Value}
    (h : nest.Wins address symbol) : nest.IsTop symbol := ⟨h.mem, h.score_le⟩

/-- The addresses that put one value in front of all others. -/
def addressFirst (first value : Value) : Nat := if value = first then 0 else value + 1

theorem addressFirst_injective (first : Value) : Function.Injective (addressFirst first) := by
  intro a b hab
  unfold addressFirst at hab
  split_ifs at hab with ha hb hb
  · rw [ha, hb]
  · exact Nat.succ.inj hab

theorem LoopNestDescriptor.IsTop.wins {symbol : Value} (h : nest.IsTop symbol) :
    nest.Wins (addressFirst symbol) symbol where
  mem := h.1
  pos := List.count_pos_iff.mpr h.1
  score_le := h.2
  rank_le := by
    intro other _ _
    simp [addressFirst]

theorem orderChoice_eq_movedLoop {address : Value → Nat} (haddress : Function.Injective address)
    {symbol : Value} (h : nest.Wins address symbol) :
    orderChoice address F nest = movedLoop F nest symbol := by
  apply Option.ext
  intro idx
  rw [orderChoice_eq_some_iff haddress]
  constructor
  · rintro ⟨winner, hwins, hmoved⟩
    rwa [h.unique haddress hwins]
  · intro hmoved
    exact ⟨symbol, h, hmoved⟩

/-- The addresses do not matter just when ties do not. -/
theorem orderChoice_reproducible_iff :
    ((∀ first second : Value → Nat, first.Injective → second.Injective →
      orderChoice first F nest = orderChoice second F nest) ↔ nest.TopsAgree F) ∧
    ∀ renamed address editor, optimizeLoopOrder renamed address nest editor =
      (orderChoice address editor.function nest).elim (.ok (false, nest, editor))
        fun idx => applyLoopInterchange renamed nest idx (nest.depth - 1) editor := by
  refine ⟨⟨?_, ?_⟩, fun renamed address editor => optimizeLoopOrder_eq renamed address nest editor⟩
  · intro h first second hfirst hsecond hcan
    have hinjective := addressFirst_injective first
    have hinjective' := addressFirst_injective second
    have hsame := h _ _ hinjective hinjective'
    rw [orderChoice_eq_movedLoop hinjective hfirst.wins,
      orderChoice_eq_movedLoop hinjective' hsecond.wins,
      movedLoop_eq_some_iff.mpr ⟨rfl, hcan⟩] at hsame
    exact (movedLoop_eq_some_iff.mp hsame.symm).1.symm
  · intro h first second hfirst hsecond
    rcases bestIV_cases nest first with ⟨hnone, hnil⟩ | ⟨winner, _, hwins⟩
    · rcases bestIV_cases nest second with ⟨hnone', _⟩ | ⟨winner, _, hwins⟩
      · simp [orderChoice, hnone, hnone']
      · have hmem : winner ∈ lastSubscriptSymbols nest := hwins.mem
        rw [hnil] at hmem
        exact absurd hmem (by simp)
    · rcases bestIV_cases nest second with ⟨_, hnil⟩ | ⟨winner', _, hwins'⟩
      · have hmem : winner ∈ lastSubscriptSymbols nest := hwins.mem
        rw [hnil] at hmem
        exact absurd hmem (by simp)
      · rw [orderChoice_eq_movedLoop hfirst hwins, orderChoice_eq_movedLoop hsecond hwins']
        exact h.movedLoop_eq hwins.isTop hwins'.isTop

end Reproducibility

section Examples

theorem subscriptsBuilt_of_analyzeLoopNest {F : Function} {SE : ScalarEvolution} {root : Loop}
    {nest : LoopNestDescriptor} (h : analyzeLoopNest F SE root = some nest) :
    nest.SubscriptsBuilt := by
  intro access haccess
  rw [(describes_of_analyzeLoopNest h).2.2] at haccess
  exact collectMemoryAccesses_built haccess

/-- A load of `A[j][i]`. -/
def columnFunction : Function :=
  Payload.function { inner := [⟨40, .ptr, .gep 30 [.elem 2 32, .elem 1 4]⟩,
    ⟨41, .int 32, .load 40⟩] } .slt

def columnNest : LoopNestDescriptor :=
  exampleLoops [⟨.load, 41, 30, "A", [makeUnknownExpr 2, makeUnknownExpr 1]⟩]

theorem analyze_columnFunction :
    analyzeLoopNest columnFunction exampleEvolution exampleOuter = some columnNest := rfl

theorem columnNest_winsAlone : columnNest.WinsAlone columnFunction id := by
  intro symbol hwins _
  obtain rfl : symbol = 1 := List.mem_singleton.mp hwins.mem
  refine ⟨⟨exampleDescriptor .slt, by simp [columnNest, exampleLoops], rfl⟩, ?_⟩
  intro innermost hinnermost
  obtain rfl : exampleInnerDescriptor = innermost := Option.some.inj hinnermost
  decide

/-- The loop over `i` moves inwards, and rightly so. -/
theorem columnNest_gains :
    OrderGains (fun _ _ => "i") id columnNest (.ofFunction columnFunction 100) := by
  refine (orderGains_iff (fun _ _ => "i") exampleEvolution columnNest
    (.ofFunction columnFunction 100) id Function.injective_id ?_ ?_).mpr columnNest_winsAlone
  · intro loop hloop
    obtain ⟨L, _, hL⟩ := exists_describes analyze_columnFunction hloop
    exact ⟨L, hL⟩
  · exact subscriptsBuilt_of_analyzeLoopNest analyze_columnFunction

/-- `A[i][k]` is read and `B[j][k]` is written, where `k` is an argument. -/
def foreignFunction : Function :=
  Payload.function { inner := [⟨40, .ptr, .gep 30 [.elem 1 32, .elem 32 4]⟩,
    ⟨41, .int 32, .load 40⟩, ⟨42, .ptr, .gep 31 [.elem 2 32, .elem 32 4]⟩,
    ⟨43, .void, .store 41 42⟩] } .slt

def foreignNest : LoopNestDescriptor :=
  exampleLoops [⟨.load, 41, 30, "A", [makeUnknownExpr 1, makeUnknownExpr 32]⟩,
    ⟨.store, 43, 31, "B", [makeUnknownExpr 2, makeUnknownExpr 32]⟩]

theorem analyze_foreignFunction :
    analyzeLoopNest foreignFunction exampleEvolution exampleOuter = some foreignNest := rfl

/-- The argument wins, and the outermost loop moves for it. -/
theorem foreignNest_not_gains :
    analyzeLoopNest foreignFunction exampleEvolution exampleOuter = some foreignNest ∧
      ¬ OrderGains (fun _ _ => "i") id foreignNest (.ofFunction foreignFunction 100) := by
  refine ⟨analyze_foreignFunction, fun h => ?_⟩
  have hmoved : movedLoop foreignFunction foreignNest 32 = some 0 := by decide
  have hchoice : orderChoice id foreignFunction foreignNest = some 0 := by decide
  have hbest : bestIV id foreignNest = some 32 := by decide
  have hloops : ∀ loop ∈ foreignNest.loops, ∃ L,
      Describes foreignFunction exampleEvolution L loop := by
    intro loop hloop
    obtain ⟨L, _, hL⟩ := exists_describes analyze_foreignFunction hloop
    exact ⟨L, hL⟩
  obtain ⟨nest', editor', happly⟩ := exists_interchange_of_moved (fun _ _ => "i")
    (.ofFunction foreignFunction 100) hloops hmoved
  have horder : optimizeLoopOrder (fun _ _ => "i") id foreignNest
      (.ofFunction foreignFunction 100) = .ok (true, nest', editor') := by
    rw [optimizeLoopOrder_eq]
    change (orderChoice id foreignFunction foreignNest).elim _ _ = _
    rw [hchoice]
    exact happly
  obtain ⟨idx, loop, hidx, _, hloop, hwinner, _⟩ := h nest' editor' horder
  obtain rfl : 0 = idx := Option.some.inj (hchoice.symm.trans hidx)
  obtain rfl : exampleDescriptor .slt = loop := Option.some.inj hloop
  exact absurd (Option.some.inj (hbest.symm.trans hwinner)) (by decide)

/-- `B[j][i] = A[i][j]` -/
def transposeFunction : Function :=
  Payload.function { inner := [⟨40, .ptr, .gep 30 [.elem 1 32, .elem 2 4]⟩,
    ⟨41, .int 32, .load 40⟩, ⟨42, .ptr, .gep 31 [.elem 2 32, .elem 1 4]⟩,
    ⟨43, .void, .store 41 42⟩] } .slt

def transposeNest : LoopNestDescriptor :=
  exampleLoops [⟨.load, 41, 30, "A", [makeUnknownExpr 1, makeUnknownExpr 2]⟩,
    ⟨.store, 43, 31, "B", [makeUnknownExpr 2, makeUnknownExpr 1]⟩]

/-- Both induction variables score once: the one with the lower address wins. -/
theorem transposeNest_not_reproducible :
    analyzeLoopNest transposeFunction exampleEvolution exampleOuter = some transposeNest ∧
      ¬ ∀ first second : Value → Nat, first.Injective → second.Injective →
        orderChoice first transposeFunction transposeNest =
          orderChoice second transposeFunction transposeNest := by
  refine ⟨rfl, fun h => ?_⟩
  have houter : orderChoice (addressFirst 1) transposeFunction transposeNest = some 0 := by decide
  have hinner : orderChoice (addressFirst 2) transposeFunction transposeNest = none := by decide
  have hsame := h _ _ (addressFirst_injective 1) (addressFirst_injective 2)
  rw [houter, hinner] at hsame
  exact absurd hsame (by simp)

end Examples

end PolyhedralPass
