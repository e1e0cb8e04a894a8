import Mathlib.Data.List.Induction

/-! # Labelled transition systems and their runs

    A `System` has initial states and labelled steps.  A `Run` is a list of
    labels with the state it leads to; labels are added at the end, so an
    invariant may speak of the whole history of the run.
-/

namespace Framework

universe u v

/-- A labelled transition system. -/
structure System (State : Type u) (Label : Type v) where
  init : State → Prop
  step : State → Label → State → Prop

namespace System

variable {State : Type u} {Label : Type v} {sys : System State Label}

/-- `Run sys s labels s'`: the labels lead from `s` to `s'`. -/
inductive Run (sys : System State Label) (s : State) : List Label → State → Prop where
  | nil : Run sys s [] s
  | snoc {labels : List Label} {s' s'' : State} {l : Label} :
      Run sys s labels s' → sys.step s' l s'' → Run sys s (labels ++ [l]) s''

/-- A step before a run. -/
theorem Run.cons {s s' s'' : State} {l : Label} {labels : List Label} (hst : sys.step s l s')
    (h : sys.Run s' labels s'') : sys.Run s (l :: labels) s'' := by
  induction h with
  | nil => exact .snoc .nil hst
  | snoc _ hst' ih => exact .snoc ih hst'

/-- The last step of a run. -/
theorem Run.snoc_inv {s s'' : State} {labels : List Label} {l : Label}
    (h : sys.Run s (labels ++ [l]) s'') : ∃ s', sys.Run s labels s' ∧ sys.step s' l s'' := by
  -- a run is built by its last step, so the labels are split there
  generalize heq : labels ++ [l] = all at h
  cases h with
  | nil => simp at heq
  | @snoc labels' s' _ l' hrun hst =>
    obtain ⟨hlabels, hl⟩ := List.append_inj' heq rfl
    cases hlabels
    cases hl
    exact ⟨s', hrun, hst⟩

/-- A run may be split wherever its labels are. -/
theorem Run.split {s s'' : State} {before after : List Label}
    (h : sys.Run s (before ++ after) s'') : ∃ s', sys.Run s before s' ∧ sys.Run s' after s'' := by
  -- from the end, where the steps are
  induction after using List.reverseRecOn generalizing s'' with
  | nil =>
    rw [List.append_nil] at h
    exact ⟨s'', h, .nil⟩
  | append_singleton after l ih =>
    rw [← List.append_assoc] at h
    obtain ⟨s₁, hrun, hst⟩ := h.snoc_inv
    obtain ⟨s', hbefore, hafter⟩ := ih hrun
    exact ⟨s', hbefore, hafter.snoc hst⟩

/-- The first step of a run. -/
theorem Run.cons_inv {s s'' : State} {l : Label} {labels : List Label}
    (h : sys.Run s (l :: labels) s'') : ∃ s', sys.step s l s' ∧ sys.Run s' labels s'' := by
  rw [← List.singleton_append] at h
  obtain ⟨s', hfirst, hrest⟩ := h.split
  rw [← List.nil_append [l]] at hfirst
  obtain ⟨s₁, hnil, hst⟩ := hfirst.snoc_inv
  generalize hlabels : ([] : List Label) = none at hnil
  cases hnil with
  | nil => exact ⟨s', hst, hrest⟩
  | snoc => simp at hlabels

/-- Two runs in a row. -/
theorem Run.append {s s' s'' : State} {before after : List Label} (h : sys.Run s before s')
    (h' : sys.Run s' after s'') : sys.Run s (before ++ after) s'' := by
  induction h' with
  | nil => rwa [List.append_nil]
  | snoc _ hst ih =>
    rw [← List.append_assoc]
    exact ih.snoc hst

/-- A step that changes nothing may be left out of a run. -/
theorem Run.skip {s s'' : State} {before after : List Label} {l : Label}
    (h : sys.Run s (before ++ l :: after) s'') (hskip : ∀ s s', sys.step s l s' → s' = s) :
    sys.Run s (before ++ after) s'' := by
  obtain ⟨s', hbefore, hrest⟩ := h.split
  obtain ⟨s₁, hst, hafter⟩ := hrest.cons_inv
  obtain rfl := hskip s' s₁ hst
  exact hbefore.append hafter

/-- When every step leads to one state, so does every run. -/
theorem Run.deterministic {s s₁ s₂ : State} {labels : List Label}
    (hdet : ∀ s l s₁ s₂, sys.step s l s₁ → sys.step s l s₂ → s₁ = s₂)
    (h₁ : sys.Run s labels s₁) (h₂ : sys.Run s labels s₂) : s₁ = s₂ := by
  induction h₁ generalizing s₂ with
  | nil =>
    generalize hnil : ([] : List Label) = labels at h₂
    cases h₂ with
    | nil => rfl
    | snoc _ _ => simp at hnil
  | snoc _ hst ih =>
    obtain ⟨s', hrun, hst'⟩ := h₂.snoc_inv
    obtain rfl := ih hrun
    exact hdet _ _ _ _ hst hst'

/-- A state is reachable when a run from an initial state ends in it. -/
def Reachable (sys : System State Label) (s : State) : Prop :=
  ∃ s₀ labels, sys.init s₀ ∧ sys.Run s₀ labels s

/-- What a reachable state leads to is reachable. -/
theorem Reachable.run {s s' : State} {labels : List Label} (h : sys.Reachable s)
    (hrun : sys.Run s labels s') : sys.Reachable s' := by
  obtain ⟨s₀, before, hinit, hbefore⟩ := h
  exact ⟨s₀, before ++ labels, hinit, hbefore.append hrun⟩

/-- **Invariance along a run**: what holds of the empty history and is preserved by every step
    holds of every run. -/
theorem Run.invariant {s s' : State} {labels : List Label} (h : sys.Run s labels s')
    (I : List Label → State → Prop) (hinit : I [] s)
    (hstep : ∀ labels s' l s'', I labels s' → sys.step s' l s'' → I (labels ++ [l]) s'') :
    I labels s' := by
  induction h with
  | nil => exact hinit
  | snoc _ hst ih => exact hstep _ _ _ _ ih hst

/-- **Invariance under a step condition**: as `Run.invariant`, for runs whose labels all meet a
    condition on the label and the state before it. -/
theorem Run.invariant_of {s s' : State} {labels : List Label} (h : sys.Run s labels s')
    (P : Label → Prop) (hP : ∀ l ∈ labels, P l) (I : List Label → State → Prop) (hinit : I [] s)
    (hstep : ∀ labels s' l s'', I labels s' → P l → sys.step s' l s'' → I (labels ++ [l]) s'') :
    I labels s' := by
  induction h with
  | nil => exact hinit
  | snoc _ hst ih =>
    refine hstep _ _ _ _ (ih fun l hl => hP l (by simp [hl])) (hP _ (by simp)) hst

/-- **Simulation along a run**: when every step of one system has a step of another with the same
    label between related states, so has every run. -/
theorem Run.simulate {State' : Type*} {sys' : System State' Label} {s s₁ : State} {t : State'}
    {labels : List Label} (h : sys.Run s labels s₁) (R : State → State' → Prop) (hR : R s t)
    (hstep : ∀ s t l s', R s t → sys.step s l s' → ∃ t', sys'.step t l t' ∧ R s' t') :
    ∃ t₁, sys'.Run t labels t₁ ∧ R s₁ t₁ := by
  induction h with
  | nil => exact ⟨t, .nil, hR⟩
  | snoc _ hst ih =>
    obtain ⟨t', hrun, hR'⟩ := ih
    obtain ⟨t'', hst', hR''⟩ := hstep _ _ _ _ hR' hst
    exact ⟨t'', hrun.snoc hst', hR''⟩

/-- **Refinement along a run**: when every step of one system is a run of another between related
    states, so is every run. -/
theorem Run.refine {State' Label' : Type*} {sys' : System State' Label'} {s s₁ : State}
    {t : State'} {labels : List Label} (h : sys.Run s labels s₁) (R : State → State' → Prop)
    (hR : R s t) (hstep : ∀ s t l s', R s t → sys.step s l s' →
      ∃ labels' t', sys'.Run t labels' t' ∧ R s' t') :
    ∃ labels' t₁, sys'.Run t labels' t₁ ∧ R s₁ t₁ := by
  induction h with
  | nil => exact ⟨[], t, .nil, hR⟩
  | snoc _ hst ih =>
    obtain ⟨before, t', hbefore, hR'⟩ := ih
    obtain ⟨after, t'', hafter, hR''⟩ := hstep _ _ _ _ hR' hst
    exact ⟨before ++ after, t'', hbefore.append hafter, hR''⟩

/-- The steps of a system that also meet a condition on the state before and the label. -/
def restrict (sys : System State Label) (C : State → Label → Prop) : System State Label where
  init := sys.init
  step := fun s l s' => C s l ∧ sys.step s l s'

/-- A run of the restricted system is a run of the system. -/
theorem Run.of_restrict {C : State → Label → Prop} {s s' : State} {labels : List Label}
    (h : (sys.restrict C).Run s labels s') : sys.Run s labels s' := by
  induction h with
  | nil => exact .nil
  | snoc _ hst ih => exact .snoc ih hst.2

/-- A run whose labels meet the condition in every state is a run of the restricted system. -/
theorem Run.restrict {C : State → Label → Prop} {s s' : State} {labels : List Label}
    (h : sys.Run s labels s') (hC : ∀ l ∈ labels, ∀ s, C s l) :
    (sys.restrict C).Run s labels s' := by
  induction h with
  | nil => exact .nil
  | snoc _ hst ih => exact .snoc (ih fun l hl => hC l (by simp [hl])) ⟨hC _ (by simp) _, hst⟩

end System

end Framework
