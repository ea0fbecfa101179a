import SolacePubSub.Lib.EventMachine
import Mathlib.Algebra.Group.Defs
import Mathlib.Algebra.Ring.Defs
import Mathlib.Tactic.Abel

/-!
# Accounts along runs

What the events of a run add up to, each valued in the state it happens in, and
the rule that carries an account from one step to a run: if every step moves
between two quantities of the state only what it pays in or takes out, so does
the run.
-/

namespace Machine
variable {σ ε G : Type*} {M : Machine σ ε}

def total [AddCommMonoid G] (M : Machine σ ε) (f : ε → σ → G) : List ε → σ → G
  | [], _ => 0
  | e :: es, s => f e s + M.total f es (M.apply e s)

@[simp] theorem total_nil [AddCommMonoid G] (f : ε → σ → G) (s : σ) : M.total f [] s = 0 := rfl

@[simp] theorem total_cons [AddCommMonoid G] (f : ε → σ → G) (e : ε) (es : List ε) (s : σ) :
    M.total f (e :: es) s = f e s + M.total f es (M.apply e s) := rfl

theorem total_zero [AddCommMonoid G] (es : List ε) (s : σ) :
    M.total (fun _ _ => (0 : G)) es s = 0 := by
  induction es generalizing s with
  | nil => rfl
  | cons e es ih => rw [total_cons, ih, add_zero]

theorem Run.total_eq_zero [AddCommMonoid G] {I : σ → Prop} {f : ε → σ → G}
    (keep : ∀ e s, M.Enabled e s → I s → I (M.apply e s))
    (zero : ∀ e s, M.Enabled e s → I s → f e s = 0) {s t : σ} {es : List ε} (h : M.Run s es t)
    (h0 : I s) : M.total f es s = 0 := by
  induction h with
  | nil => rfl
  | @cons s t e es he _ ih => rw [total_cons, zero e s he h0, ih (keep e s he h0), add_zero]

theorem total_add [AddCommMonoid G] (f g : ε → σ → G) (es : List ε) (s : σ) :
    M.total (fun e s => f e s + g e s) es s = M.total f es s + M.total g es s := by
  induction es generalizing s with
  | nil => exact (add_zero 0).symm
  | cons e es ih => rw [total_cons, total_cons, total_cons, ih, add_add_add_comm]

theorem total_mul_left [NonUnitalNonAssocSemiring G] (c : G) (f : ε → σ → G) (es : List ε) (s : σ) :
    M.total (fun e s => c * f e s) es s = c * M.total f es s := by
  induction es generalizing s with
  | nil => exact (mul_zero c).symm
  | cons e es ih => rw [total_cons, total_cons, ih, mul_add]

/-- `g` is paid in and `l` taken out, and `w` records what came in otherwise. -/
theorem Run.balance [AddCancelCommMonoid G] {v w : σ → G} {g l : ε → σ → G}
    (step : ∀ e s, M.Enabled e s →
      v (M.apply e s) + l e s + w s = v s + g e s + w (M.apply e s))
    {s t : σ} {es : List ε} (h : M.Run s es t) :
    v t + M.total l es s + w s = v s + M.total g es s + w t := by
  induction h with
  | nil s => rfl
  | @cons s t e es he _ ih =>
    have hfirst := step e s he
    rw [total_cons, total_cons]
    apply add_right_cancel (b := v (M.apply e s) + w (M.apply e s))
    calc v t + (l e s + M.total l es (M.apply e s)) + w s +
          (v (M.apply e s) + w (M.apply e s))
        = (v t + M.total l es (M.apply e s) + w (M.apply e s)) +
            (v (M.apply e s) + l e s + w s) := by abel
      _ = (v (M.apply e s) + M.total g es (M.apply e s) + w t) +
            (v s + g e s + w (M.apply e s)) := by rw [ih, hfirst]
      _ = v s + (g e s + M.total g es (M.apply e s)) + w t +
            (v (M.apply e s) + w (M.apply e s)) := by abel

end Machine
