import SolacePubSub.Lib.RunLedger
import Mathlib.Algebra.Group.Nat.Defs
import Mathlib.Algebra.GroupWithZero.Nat

/-!
# Potentials and variants along runs

A potential is a natural number of which a step may use up no more than it
earns. So a run spends at most what it earns and what the potential was at first.
A variant is one that every step of a kind decreases. Runs of such steps are no
longer than the variant is large, and each of them extends to one that cannot go
on, whatever the order of its steps.
-/

namespace Machine
variable {σ ε : Type*} {M : Machine σ ε} {P : ε → Prop} {v : σ → ℕ}

theorem Run.amortized {I : σ → Prop} {f g : ε → σ → ℕ}
    (keep : ∀ e s, M.Enabled e s → I s → I (M.apply e s))
    (step : ∀ e s, P e → M.Enabled e s → I s → f e s + v (M.apply e s) ≤ g e s + v s)
    {s t : σ} {es : List ε} (h : M.Run s es t) (hP : ∀ e ∈ es, P e) (h0 : I s) :
    M.total f es s + v t ≤ M.total g es s + v s := by
  induction h with
  | nil s => exact le_rfl
  | @cons s t e es he _ ih =>
    have hfirst := step e s (hP e List.mem_cons_self) he h0
    have hrest := ih (fun d hd => hP d (List.mem_cons_of_mem e hd)) (keep e s he h0)
    rw [total_cons, total_cons]
    omega

theorem total_charges (p : ε → Bool) (c : ℕ) (es : List ε) (s : σ) :
    M.total (fun e _ => if p e then c else 0) es s = c * es.countP p := by
  induction es generalizing s with
  | nil => rfl
  | cons e es ih =>
    rw [total_cons, ih, List.countP_cons]
    cases p e <;> simp [Nat.mul_add, Nat.add_comm]

/-- If an event `p` costs `c`, while an event `r` earns `1` and an event `q` earns
`c`, then the events `p` come at a rate of at most one in `c` events `r`. -/
theorem Run.rate {I : σ → Prop} {p q r : ε → Bool} {c : ℕ}
    (keep : ∀ e s, M.Enabled e s → I s → I (M.apply e s))
    (step : ∀ e s, M.Enabled e s → I s → (if p e then c else 0) + v (M.apply e s) ≤
      (if r e then 1 else 0) + (if q e then c else 0) + v s)
    {s t : σ} {es : List ε} (h : M.Run s es t) (h0 : I s) :
    c * es.countP p + v t ≤ es.countP r + c * es.countP q + v s := by
  have hspent := h.amortized (P := fun _ => True) keep (fun e u _ he hi => step e u he hi)
    (fun _ _ => trivial) h0
  rwa [total_add, total_charges, total_charges, total_charges, one_mul] at hspent

def Stuck (M : Machine σ ε) (P : ε → Prop) (s : σ) : Prop := ∀ e, P e → ¬ M.Enabled e s

theorem Run.length_add_le (step : ∀ e s, P e → M.Enabled e s → v (M.apply e s) + 1 ≤ v s)
    {s t : σ} {es : List ε} (h : M.Run s es t) (hP : ∀ e ∈ es, P e) :
    es.length + v t ≤ v s := by
  have hspent : ∀ e u, P e → M.Enabled e u → True → 1 + v (M.apply e u) ≤ 0 + v u := by
    intro e u hPe he _
    have hfirst := step e u hPe he
    omega
  have htotal := h.amortized (fun _ _ _ _ => trivial) hspent hP trivial
  have hlength : M.total (fun _ _ => 1) es s = es.length := by
    simpa using total_charges (M := M) (fun _ => true) 1 es s
  rwa [total_zero, Nat.zero_add, hlength] at htotal

theorem exists_stuck (step : ∀ e s, P e → M.Enabled e s → v (M.apply e s) + 1 ≤ v s) (s : σ) :
    ∃ t, M.ReachableOn P s t ∧ M.Stuck P t := by
  induction hn : v s using Nat.strong_induction_on generalizing s with
  | _ n ih =>
    by_cases hstuck : M.Stuck P s
    · exact ⟨s, .refl s, hstuck⟩
    · obtain ⟨e, hP, he⟩ : ∃ e, P e ∧ M.Enabled e s := by
        simpa [Stuck] using hstuck
      have hfirst := step e s hP he
      obtain ⟨t, ht, hend⟩ := ih (v (M.apply e s)) (by omega) (M.apply e s) rfl
      have hone : M.ReachableOn P s (M.apply e s) :=
        ⟨[e], by simpa using hP, .cons he (.nil _)⟩
      exact ⟨t, hone.trans ht, hend⟩

end Machine
