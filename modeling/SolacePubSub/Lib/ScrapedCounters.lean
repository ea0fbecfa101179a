import SolacePubSub.Lib.EventMachine
import Mathlib.Logic.Function.Basic
import Mathlib.Order.Defs.LinearOrder

/-!
# Sampled counters

The increase of a counter over its samples, where a sample below the one before
it is read as a restart from zero. Samples of one counter never show a larger
increase than was counted, whatever restarts fall between them.
-/

namespace ScrapedCounters

def rise (v w : ℕ) : ℕ := if v ≤ w then w - v else w

def increase : List ℕ → ℕ
  | v :: w :: vs => rise v w + increase (w :: vs)
  | _ => 0

@[simp] theorem increase_singleton (v : ℕ) : increase [v] = 0 := rfl

@[simp] theorem increase_cons_cons (v w : ℕ) (vs : List ℕ) :
    increase (v :: w :: vs) = rise v w + increase (w :: vs) := rfl

theorem rise_of_le {v w : ℕ} (h : v ≤ w) : v + rise v w = w := by
  rw [rise, if_pos h]
  omega

@[simp] theorem rise_self (v : ℕ) : rise v v = 0 := by simp [rise]

@[simp] theorem rise_zero (v : ℕ) : rise v 0 = 0 := by
  unfold rise
  split_ifs <;> omega

theorem rise_succ_le (v w : ℕ) : rise v (w + 1) ≤ rise v w + 1 := by
  unfold rise
  split_ifs <;> omega

theorem le_add_rise (v w : ℕ) : w ≤ v + rise v w := by
  unfold rise
  split_ifs <;> omega

theorem le_head_add_increase {v x : ℕ} {vs : List ℕ} (h : x ∈ v :: vs) :
    x ≤ v + increase (v :: vs) := by
  induction vs generalizing v with
  | nil =>
    rw [List.mem_singleton.mp h]
    exact Nat.le_add_right _ _
  | cons w vs ih =>
    rw [increase_cons_cons]
    rcases List.mem_cons.mp h with h | h
    · omega
    · have htail := ih h
      have hrise := le_add_rise v w
      omega

theorem increase_of_isChain {v w : ℕ} {vs : List ℕ} (h : (v :: vs).IsChain (· ≤ ·))
    (hw : w ∈ (v :: vs).getLast?) : v + increase (v :: vs) = w := by
  induction vs generalizing v with
  | nil => simpa using hw
  | cons u vs ih =>
    obtain ⟨hvu, hchain⟩ := List.isChain_cons_cons.mp h
    have htail := ih hchain (by simpa using hw)
    have hrise := rise_of_le hvu
    rw [increase_cons_cons]
    omega

theorem increase_map {α : Type*} (f : α → ℕ) {w : List α} (hw : w.Pairwise fun x y => f x ≤ f y)
    {first last : α} (hfirst : w.head? = some first) (hlast : w.getLast? = some last) :
    f first + increase (w.map f) = f last := by
  obtain ⟨vs, rfl⟩ := List.head?_eq_some_iff.mp hfirst
  apply increase_of_isChain
  · exact (List.pairwise_map.mpr hw).isChain
  · rw [← List.map_cons, List.getLast?_map, hlast]
    rfl

section Pods
variable {κ : Type*}

/-- `counted` is what all counters together had counted at the sample. -/
structure Sample (κ : Type*) where
  pod : κ
  value : ℕ
  counted : ℕ

def WithinCount (w : List (Sample κ)) : Prop :=
  ∀ first ∈ w.head?, ∀ last ∈ w.getLast?, increase (w.map (·.value)) + first.counted ≤ last.counted

def Within (a b : Sample κ) : Prop := rise a.value b.value + a.counted ≤ b.counted

theorem withinCount_of_isChain {w : List (Sample κ)} (h : w.IsChain Within) : WithinCount w := by
  cases w with
  | nil => simp [WithinCount]
  | cons a w =>
    induction w generalizing a with
    | nil => simp [WithinCount]
    | cons b w ih =>
      obtain ⟨hab, hchain⟩ := List.isChain_cons_cons.mp h
      have htail := ih b hchain
      intro first hfirst last hlast
      rw [← Option.some.inj hfirst]
      have hrest := htail b rfl last (by simpa using hlast)
      simp only [List.map_cons, increase_cons_cons, Within] at hab hrest ⊢
      omega

theorem not_withinCount {v x : Sample κ} {w : List (Sample κ)} (hv : w.head? = some v)
    (hcounted : ∀ a ∈ w, a.counted = v.counted) (hx : x ∈ w) (hlt : v.value < x.value) :
    ¬ WithinCount w := by
  intro h
  obtain ⟨vs, rfl⟩ := List.head?_eq_some_iff.mp hv
  have hne : v :: vs ≠ [] := List.cons_ne_nil v vs
  have hbound := h v rfl _ (List.getLast?_eq_some_getLast hne)
  rw [hcounted _ (List.getLast_mem hne)] at hbound
  have hrise := le_head_add_increase (List.mem_map_of_mem (f := (·.value)) hx)
  simp only [List.map_cons] at hbound hrise
  omega

structure State (κ : Type*) where
  counter : κ → ℕ
  counted : ℕ
  series : List (Sample κ)

inductive Event (κ : Type*)
  | count (j : κ)
  | restart (j : κ)
  | scrape (j : κ)

structure State.Honest (s : State κ) : Prop where
  series : s.series.Pairwise fun a b => a.pod = b.pod → Within a b
  current : ∀ a ∈ s.series, Within a ⟨a.pod, s.counter a.pod, s.counted⟩

theorem State.Honest.withinCount {s : State κ} (hs : s.Honest) {w : List (Sample κ)}
    (hw : w <:+: s.series) (hone : ∀ a ∈ w, ∀ b ∈ w, a.pod = b.pod) : WithinCount w := by
  apply withinCount_of_isChain
  have hpair := hs.series.sublist hw.sublist
  have hwithin : w.Pairwise Within :=
    hpair.imp_of_mem fun ha hb hab => hab (hone _ ha _ hb)
  exact hwithin.isChain

variable [DecidableEq κ]

def Event.apply (s : State κ) : Event κ → State κ
  | .count j =>
    { s with
      counter := Function.update s.counter j (s.counter j + 1)
      counted := s.counted + 1 }
  | .restart j => { s with counter := Function.update s.counter j 0 }
  | .scrape j => { s with series := s.series ++ [⟨j, s.counter j, s.counted⟩] }

def machine (κ : Type*) [DecidableEq κ] : Machine (State κ) (Event κ) where
  Enabled _ _ := True
  apply e s := e.apply s

theorem honest_step (e : Event κ) (s : State κ) (hs : s.Honest) : (e.apply s).Honest := by
  cases e with
  | count j =>
    refine ⟨hs.series, ?_⟩
    intro a ha
    have hold := hs.current a ha
    by_cases haj : a.pod = j
    · subst j
      have hrise := rise_succ_le a.value (s.counter a.pod)
      simp only [Event.apply, Within, Function.update_self] at hold ⊢
      omega
    · simp only [Event.apply, Within, Function.update_of_ne haj] at hold ⊢
      omega
  | restart j =>
    refine ⟨hs.series, ?_⟩
    intro a ha
    have hold := hs.current a ha
    by_cases haj : a.pod = j
    · subst j
      simp only [Event.apply, Within, Function.update_self, rise_zero] at hold ⊢
      omega
    · simpa only [Event.apply, Within, Function.update_of_ne haj] using hold
  | scrape j =>
    constructor
    · refine List.pairwise_append.mpr ⟨hs.series, List.pairwise_singleton _ _, ?_⟩
      intro a ha b hb hpod
      rw [List.mem_singleton.mp hb] at hpod ⊢
      have hold := hs.current a ha
      rwa [hpod] at hold
    · intro a ha
      rcases List.mem_append.mp ha with ha | ha
      · exact hs.current a ha
      · rw [List.mem_singleton.mp ha]
        simp [Event.apply, Within]

theorem run_honest {s t : State κ} {es : List (Event κ)} (h : (machine κ).Run s es t)
    (hs : s.Honest) : t.Honest :=
  h.invariant (fun e s _ => honest_step e s) hs

end Pods
end ScrapedCounters
