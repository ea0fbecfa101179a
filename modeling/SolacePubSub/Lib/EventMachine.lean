import Mathlib.Data.List.Infix
import Mathlib.Data.List.Chain
import Mathlib.Order.Basic

/-!
# Deterministic event machines

A machine says which events a state enables and what each event does to it.
All nondeterminism is in the choice of the next event, so a run is a list of
events and its final state is a fold. The rules below carry an invariant, a
monotone quantity and a projection to a component from one step to a run.
-/

structure Machine (σ ε : Type*) where
  Enabled : ε → σ → Prop
  apply : ε → σ → σ

namespace Machine
variable {σ ε τ η : Type*} (M : Machine σ ε)

inductive Run : σ → List ε → σ → Prop where
  | nil (s : σ) : Run s [] s
  | cons {s t : σ} {e : ε} {es : List ε} :
      M.Enabled e s → Run (M.apply e s) es t → Run s (e :: es) t

def Reachable (s t : σ) : Prop := ∃ es, M.Run s es t

def ReachableOn (P : ε → Prop) (s t : σ) : Prop := ∃ es, (∀ e ∈ es, P e) ∧ M.Run s es t

def Throughout (P : σ → Prop) (s : σ) (es : List ε) : Prop :=
  ∀ fs t, fs <+: es → M.Run s fs t → P t

def Legal : List ε → σ → Prop
  | [], _ => True
  | e :: es, s => M.Enabled e s ∧ Legal es (M.apply e s)

def final (es : List ε) (s : σ) : σ := es.foldl (fun t e => M.apply e t) s

instance legalDecidable [∀ e s, Decidable (M.Enabled e s)] :
    ∀ (es : List ε) (s : σ), Decidable (M.Legal es s)
  | [], _ => inferInstanceAs (Decidable True)
  | e :: es, s =>
    haveI := legalDecidable es (M.apply e s)
    inferInstanceAs (Decidable (M.Enabled e s ∧ M.Legal es (M.apply e s)))

variable {M}

@[simp] theorem run_nil_iff {s t : σ} : M.Run s [] t ↔ s = t := by
  constructor
  · intro h
    cases h
    rfl
  · intro h
    exact h ▸ .nil s

@[simp] theorem run_cons_iff {s t : σ} {e : ε} {es : List ε} :
    M.Run s (e :: es) t ↔ M.Enabled e s ∧ M.Run (M.apply e s) es t := by
  constructor
  · intro h
    cases h with
    | cons he hr => exact ⟨he, hr⟩
  · intro h
    exact .cons h.1 h.2

theorem run_iff_legal {s t : σ} {es : List ε} :
    M.Run s es t ↔ M.Legal es s ∧ M.final es s = t := by
  induction es generalizing s with
  | nil => simp [Legal, final]
  | cons e es ih =>
    rw [run_cons_iff, ih, Legal, and_assoc]
    rfl

theorem Legal.run {s : σ} {es : List ε} (h : M.Legal es s) : M.Run s es (M.final es s) :=
  run_iff_legal.mpr ⟨h, rfl⟩

theorem Run.final_eq {s t : σ} {es : List ε} (h : M.Run s es t) : M.final es s = t :=
  (run_iff_legal.mp h).2

theorem run_append_iff {s t : σ} {es fs : List ε} :
    M.Run s (es ++ fs) t ↔ ∃ u, M.Run s es u ∧ M.Run u fs t := by
  induction es generalizing s with
  | nil => simp
  | cons e es ih => simp [ih, and_assoc]

theorem Run.append {s u t : σ} {es fs : List ε} (h : M.Run s es u) (h' : M.Run u fs t) :
    M.Run s (es ++ fs) t :=
  run_append_iff.mpr ⟨u, h, h'⟩

theorem Run.invariant_on {P : ε → Prop} {I : σ → Prop}
    (step : ∀ e s, P e → M.Enabled e s → I s → I (M.apply e s))
    {s t : σ} {es : List ε} (h : M.Run s es t) (hP : ∀ e ∈ es, P e) (h0 : I s) : I t := by
  induction h with
  | nil => exact h0
  | @cons s t e es he _ ih =>
    have hhead := hP e List.mem_cons_self
    exact ih (fun f hf => hP f (List.mem_cons_of_mem e hf)) (step e s hhead he h0)

theorem Run.invariant {I : σ → Prop}
    (step : ∀ e s, M.Enabled e s → I s → I (M.apply e s))
    {s t : σ} {es : List ε} (h : M.Run s es t) (h0 : I s) : I t :=
  h.invariant_on (P := fun _ => True) (fun e s _ he hi => step e s he hi) (by simp) h0

theorem Reachable.invariant {I : σ → Prop}
    (step : ∀ e s, M.Enabled e s → I s → I (M.apply e s))
    {s t : σ} (h : M.Reachable s t) (h0 : I s) : I t := by
  obtain ⟨es, hr⟩ := h
  exact hr.invariant step h0

theorem ReachableOn.refl {P : ε → Prop} (s : σ) : M.ReachableOn P s s := ⟨[], by simp, .nil s⟩

theorem ReachableOn.trans {P : ε → Prop} {s u t : σ} (h : M.ReachableOn P s u)
    (h' : M.ReachableOn P u t) : M.ReachableOn P s t := by
  obtain ⟨es, he, hr⟩ := h
  obtain ⟨fs, hf, hr'⟩ := h'
  exact ⟨es ++ fs, fun e hm => (List.mem_append.mp hm).elim (he e) (hf e), hr.append hr'⟩

/-- The simulation rule: each step of `M` is matched by events of `N` that lie in `P`. -/
theorem Run.simulate {N : Machine τ η} {P : η → Prop} {R : σ → τ → Prop}
    (step : ∀ e s t, M.Enabled e s → R s t → ∃ u, N.ReachableOn P t u ∧ R (M.apply e s) u)
    {s s' : σ} {es : List ε} (h : M.Run s es s') {t : τ} (hR : R s t) :
    ∃ u, N.ReachableOn P t u ∧ R s' u := by
  induction h generalizing t with
  | nil => exact ⟨t, .refl t, hR⟩
  | @cons s s' e es he _ ih =>
    obtain ⟨u, hu, hR'⟩ := step e s t he hR
    obtain ⟨v, hv, hR''⟩ := ih hR'
    exact ⟨v, hu.trans hv, hR''⟩

/-- A component `π` that follows its own machine `N` along the events selected
by `f`, and is untouched by the others, makes a run of `N`. -/
theorem Run.project {N : Machine τ η} (π : σ → τ) (f : ε → Option η)
    (step : ∀ e s, M.Enabled e s → match f e with
      | some d => N.Enabled d (π s) ∧ π (M.apply e s) = N.apply d (π s)
      | none => π (M.apply e s) = π s)
    {s t : σ} {es : List ε} (h : M.Run s es t) : N.Run (π s) (es.filterMap f) (π t) := by
  induction h with
  | nil => exact .nil _
  | @cons s t e es he _ ih =>
    have hs := step e s he
    cases hf : f e with
    | none =>
      simp only [hf] at hs
      rw [List.filterMap_cons_none hf, ← hs]
      exact ih
    | some d =>
      simp only [hf] at hs
      rw [List.filterMap_cons_some hf]
      exact .cons hs.1 (hs.2 ▸ ih)

end Machine
