import Mathlib.Data.List.Forall2
import Zippity.Framework.System

/-! # Systems whose instances fork

    An instance of a `Forking` system takes steps, and it can be duplicated: a
    fork leaves the instance in a state and makes a new one.  The instances that
    come of one are a pool, and their steps come in any order.  When the steps
    and the forks of one system have counterparts in another, so have the runs
    of its pools.
-/

namespace Framework

universe u v w

/-- A labelled transition system with forks. -/
structure Forking (State : Type u) (Label : Type v) (Fork : Type w) where
  init : State → Prop
  step : State → Label → State → Prop
  /-- The instance that forks, the one it becomes and the new one. -/
  fork : State → Fork → State → State → Prop

/-- What happens in a pool. -/
inductive PoolLabel (Label : Type v) (Fork : Type w) where
  /-- An instance takes a step. -/
  | step (i : Nat) (l : Label)
  /-- An instance forks; the new one joins the pool. -/
  | fork (i : Nat) (f : Fork)

namespace Forking

variable {State : Type u} {State' : Type*} {Label : Type v} {Fork : Type w}
  {sys : Forking State Label Fork} {sys' : Forking State' Label Fork}

/-- The pools of a forking system, from one instance on. -/
def pool (sys : Forking State Label Fork) : System (List State) (PoolLabel Label Fork) where
  init states := ∃ s, sys.init s ∧ states = [s]
  step states l states' :=
    match l with
    | .step i l => ∃ s s', states[i]? = some s ∧ sys.step s l s' ∧ states' = states.set i s'
    | .fork i f => ∃ s left new, states[i]? = some s ∧ sys.fork s f left new ∧
      states' = states.set i left ++ [new]

/-- A relation between the instances of two pools, one by one. -/
theorem forall₂_getElem? {R : State → State' → Prop} {states : List State}
    {states' : List State'} (h : List.Forall₂ R states states') {i : Nat} {s : State}
    (hs : states[i]? = some s) : ∃ s', states'[i]? = some s' ∧ R s s' := by
  induction h generalizing i with
  | nil => simp at hs
  | cons hR _ ih =>
    cases i with
    | zero =>
      cases hs
      exact ⟨_, rfl, hR⟩
    | succ i => exact ih hs

theorem forall₂_getElem?_right {R : State → State' → Prop} {states : List State}
    {states' : List State'} (h : List.Forall₂ R states states') {i : Nat} {s' : State'}
    (hs' : states'[i]? = some s') : ∃ s, states[i]? = some s ∧ R s s' := by
  have hflip : List.Forall₂ (flip R) states' states := List.Forall₂.flip h
  exact forall₂_getElem? hflip hs'

theorem forall₂_set {R : State → State' → Prop} {states : List State} {states' : List State'}
    (h : List.Forall₂ R states states') {s : State} {s' : State'} (hR : R s s') (i : Nat) :
    List.Forall₂ R (states.set i s) (states'.set i s') := by
  induction h generalizing i with
  | nil => exact .nil
  | cons hR' hrest ih =>
    cases i with
    | zero => exact .cons hR hrest
    | succ i => exact .cons hR' (ih i)

/-- A transitive relation is one of lists too. -/
theorem forall₂_trans {R : State → State → Prop} (htrans : ∀ s s' s'', R s s' → R s' s'' → R s s'')
    {states states' states'' : List State} (h : List.Forall₂ R states states')
    (h' : List.Forall₂ R states' states'') : List.Forall₂ R states states'' := by
  induction h generalizing states'' with
  | nil =>
    cases h'
    exact .nil
  | cons hR _ ih =>
    cases h' with
    | cons hR' hrest => exact .cons (htrans _ _ _ hR hR') (ih hrest)

/-- **Pools simulate as their instances do.** -/
theorem pool_simulate (R : State → State' → Prop)
    (hstep : ∀ s t l s', R s t → sys.step s l s' → ∃ t', sys'.step t l t' ∧ R s' t')
    (hfork : ∀ s t f left new, R s t → sys.fork s f left new →
      ∃ left' new', sys'.fork t f left' new' ∧ R left left' ∧ R new new')
    {states states₁ : List State} {states' : List State'} {labels : List (PoolLabel Label Fork)}
    (hrun : sys.pool.Run states labels states₁) (hR : List.Forall₂ R states states') :
    ∃ states₁', sys'.pool.Run states' labels states₁' ∧ List.Forall₂ R states₁ states₁' := by
  refine hrun.simulate (List.Forall₂ R) hR ?_
  intro states states' l states₁ hR hst
  cases l with
  | step i l =>
    obtain ⟨s, s₁, hs, hst, rfl⟩ := hst
    obtain ⟨t, ht, hRst⟩ := forall₂_getElem? hR hs
    obtain ⟨t₁, hst', hR'⟩ := hstep s t l s₁ hRst hst
    exact ⟨_, ⟨t, t₁, ht, hst', rfl⟩, forall₂_set hR hR' i⟩
  | fork i f =>
    obtain ⟨s, left, new, hs, hfk, rfl⟩ := hst
    obtain ⟨t, ht, hRst⟩ := forall₂_getElem? hR hs
    obtain ⟨left', new', hfk', hleft, hnew⟩ := hfork s t f left new hRst hfk
    exact ⟨_, ⟨t, left', new', ht, hfk', rfl⟩,
      List.rel_append (forall₂_set hR hleft i) (.cons hnew .nil)⟩

/-- **An invariant of the instances** that every step and every fork keeps holds of all instances
    of a pool, in every order of their steps. -/
theorem pool_forall {P : State → Prop} (hstep : ∀ s l s', P s → sys.step s l s' → P s')
    (hfork : ∀ s f left new, P s → sys.fork s f left new → P left ∧ P new)
    {states states' : List State} {labels : List (PoolLabel Label Fork)}
    (hrun : sys.pool.Run states labels states') (hinit : ∀ s ∈ states, P s) :
    ∀ s ∈ states', P s := by
  apply hrun.invariant (fun _ states => ∀ s ∈ states, P s) hinit
  intro _ states l states' hstates hst
  cases l with
  | step i l =>
    obtain ⟨s, s', hs, hst, rfl⟩ := hst
    intro s₁ hs₁
    rcases List.mem_or_eq_of_mem_set hs₁ with hold | rfl
    · exact hstates s₁ hold
    · exact hstep s l _ (hstates s (List.mem_of_getElem? hs)) hst
  | fork i f =>
    obtain ⟨s, left, new, hs, hfk, rfl⟩ := hst
    have hboth := hfork s f left new (hstates s (List.mem_of_getElem? hs)) hfk
    intro s₁ hs₁
    rcases List.mem_append.mp hs₁ with hold | hnew
    · rcases List.mem_or_eq_of_mem_set hold with hold | rfl
      · exact hstates s₁ hold
      · exact hboth.1
    · rw [List.mem_singleton.mp hnew]
      exact hboth.2

end Forking

end Framework
