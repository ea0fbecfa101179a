import SolacePubSub.Broker
import SolacePubSub.Producer
import SolacePubSub.Lib.ReflectedWalk
import Mathlib.Algebra.BigOperators.Fin
import Mathlib.Algebra.Order.Group.Int

/-!
# Backlog under scaled-out consumers

Time passes in ticks of one millisecond. A producer sleeps between publishes, a
callback occupies its receiver, transfers take no time, and time does not pass
while the queue could deliver. The queue that `startConsumer` declares is
exclusive: it serves one receiver however many are bound, so that its backlog
is the work in front of a single server.
-/

namespace SolacePubSub.Scaling
open Consumer (AccessType callbackPause)
open Producer (publishPause)

/-- `asleep` and `busy` count the ticks left of a producer's sleep and of a
receiver's callback, `waiting` the messages on the queue. -/
structure State (ι κ : Type*) where
  asleep : ι → ℕ
  waiting : ℕ
  busy : κ → ℕ
  published : ℕ
  completed : ℕ

inductive Event (ι κ : Type*)
  | publish (i : ι)
  | handOver (j : κ)
  | tick

variable {ι κ : Type*}

def State.initial : State ι κ where
  asleep := fun _ => 0
  waiting := 0
  busy := fun _ => 0
  published := 0
  completed := 0

def State.backlog (s : State ι κ) : ℕ := s.published - s.completed

def Event.work : Event ι κ → ℤ
  | .publish _ => callbackPause
  | .handOver _ => 0
  | .tick => -1

def isPublish : Event ι κ → Bool
  | .publish _ => true
  | _ => false

def isTick : Event ι κ → Bool
  | .tick => true
  | _ => false

def State.Ready (access : AccessType) (bound : List κ) (s : State ι κ) (j : κ) : Prop :=
  Permits access bound j ∧ s.busy j = 0 ∧ 0 < s.waiting

/-- Time passes only when the queue can deliver to no receiver. -/
def Event.Enabled (access : AccessType) (bound : List κ) (s : State ι κ) : Event ι κ → Prop
  | .publish i => s.asleep i = 0
  | .handOver j => s.Ready access bound j
  | .tick => ∀ j, ¬ s.Ready access bound j

structure State.SingleServer (a : κ) (s : State ι κ) : Prop where
  others : ∀ j, j ≠ a → s.busy j = 0
  bounded : s.busy a ≤ callbackPause
  account : s.published = s.completed + s.waiting + if s.busy a = 0 then 0 else 1

def State.load (a : κ) (s : State ι κ) : ℕ := callbackPause * s.waiting + s.busy a

theorem permits_startConsumer {queueName : String} {bound : List κ} {a j : κ}
    (ha : bound.head? = some a) (h : Permits (Consumer.startConsumer queueName).access bound j) :
    j = a := by
  have hj : bound.head? = some j := h
  rw [ha] at hj
  exact (Option.some.inj hj).symm

theorem singleServer_initial (a : κ) : (State.initial (ι := ι)).SingleServer a where
  others _ _ := rfl
  bounded := Nat.zero_le _
  account := rfl

theorem backlog_le_iff {a : κ} {s : State ι κ} (hs : s.SingleServer a) (n : ℕ) :
    s.backlog ≤ n ↔ s.load a ≤ callbackPause * n := by
  have hacc := hs.account
  have hbound := hs.bounded
  simp only [State.backlog, State.load, callbackPause] at hbound ⊢
  split_ifs at hacc with hidle <;> omega

theorem sum_work (es : List (Event ι κ)) :
    (es.map Event.work).sum = callbackPause * es.countP isPublish - es.countP isTick := by
  induction es with
  | nil => rfl
  | cons e es ih =>
    rw [List.map_cons, List.sum_cons, ih, List.countP_cons, List.countP_cons]
    cases e <;> simp [Event.work, isPublish, isTick, callbackPause] <;> omega

section Step
variable [Fintype κ]

theorem completions_single {a : κ} {s : State ι κ} (hs : s.SingleServer a) :
    (∑ j, if s.busy j = 1 then 1 else 0) = if s.busy a = 1 then 1 else 0 := by
  apply Finset.sum_eq_single a
  · intro j _ hj
    rw [hs.others j hj]
    rfl
  · intro ha
    exact absurd (Finset.mem_univ a) ha

variable [DecidableEq ι] [DecidableEq κ]

def Event.apply (s : State ι κ) : Event ι κ → State ι κ
  | .publish i =>
    { s with
      asleep := Function.update s.asleep i publishPause
      waiting := s.waiting + 1
      published := s.published + 1 }
  | .handOver j =>
    { s with
      waiting := s.waiting - 1
      busy := Function.update s.busy j callbackPause }
  | .tick =>
    { s with
      asleep := fun i => s.asleep i - 1
      busy := fun j => s.busy j - 1
      completed := s.completed + ∑ j, if s.busy j = 1 then 1 else 0 }

def machine (ι κ : Type*) [DecidableEq ι] [DecidableEq κ] [Fintype κ] (access : AccessType)
    (bound : List κ) : Machine (State ι κ) (Event ι κ) where
  Enabled e s := e.Enabled access bound s
  apply e s := e.apply s

variable {queueName : String} {bound : List κ} {a : κ}

theorem load_step (ha : bound.head? = some a) {e : Event ι κ} {s : State ι κ}
    (he : e.Enabled (Consumer.startConsumer queueName).access bound s) (hs : s.SingleServer a) :
    (e.apply s).SingleServer a ∧ ((e.apply s).load a : ℤ) = max 0 (s.load a + e.work) := by
  have hacc := hs.account
  have hbound := hs.bounded
  cases e with
  | publish i =>
    refine ⟨⟨hs.others, hbound, ?_⟩, ?_⟩
    · simp only [Event.apply, hacc]
      omega
    · simp only [Event.apply, State.load, Event.work, callbackPause]
      omega
  | handOver j =>
    obtain ⟨hj, hidle, hwait⟩ := he
    have hja := permits_startConsumer ha hj
    subst j
    rw [if_pos hidle] at hacc
    refine ⟨⟨?_, ?_, ?_⟩, ?_⟩
    · intro k hk
      simp only [Event.apply, Function.update_of_ne hk]
      exact hs.others k hk
    · simp [Event.apply]
    · simp only [Event.apply, Function.update_self, callbackPause, hacc, OfNat.ofNat_ne_zero,
        ↓reduceIte]
      omega
    · simp only [Event.apply, State.load, Event.work, Function.update_self, callbackPause, hidle]
      omega
  | tick =>
    have hdone := completions_single hs
    refine ⟨⟨?_, ?_, ?_⟩, ?_⟩
    · intro k hk
      simp only [Event.apply, hs.others k hk]
    · exact (Nat.sub_le _ _).trans hbound
    · simp only [Event.apply, hdone]
      split_ifs at hacc ⊢ <;> omega
    · -- An idle server that may not be handed a message has an empty queue.
      have hempty : s.busy a = 0 → s.waiting = 0 := by
        intro hidle
        by_contra hwait
        exact he a ⟨ha, hidle, Nat.pos_of_ne_zero hwait⟩
      simp only [Event.apply, State.load, Event.work, callbackPause]
      omega

theorem run_load (ha : bound.head? = some a) {s t : State ι κ} {es : List (Event ι κ)}
    (h : (machine ι κ (Consumer.startConsumer queueName).access bound).Run s es t)
    (hs : s.SingleServer a) (ds : List ℤ) (hd : (s.load a : ℤ) = ReflectedWalk.level ds) :
    t.SingleServer a ∧ (t.load a : ℤ) = ReflectedWalk.level (ds ++ es.map Event.work) := by
  induction h generalizing ds with
  | nil => simpa using ⟨hs, hd⟩
  | @cons s t e es he _ ih =>
    obtain ⟨hnext, hload⟩ := load_step ha he hs
    rw [hd, ← ReflectedWalk.level_concat] at hload
    have hrest := ih hnext (ds ++ [e.work]) hload
    rwa [List.append_assoc, List.singleton_append, ← List.map_cons] at hrest

theorem throughout_backlog_le_iff (ha : bound.head? = some a) {es : List (Event ι κ)}
    {t : State ι κ} (n : ℕ)
    (h : (machine ι κ (Consumer.startConsumer queueName).access bound).Run .initial es t) :
    (machine ι κ (Consumer.startConsumer queueName).access bound).Throughout
        (fun s => s.backlog ≤ n) .initial es ↔
      ∀ seg, seg <:+: es →
        callbackPause * seg.countP isPublish ≤ callbackPause * n + seg.countP isTick := by
  have hlevel := ReflectedWalk.levels_le_iff (es.map Event.work) (callbackPause * n : ℤ)
  have hstretch : (∀ seg, seg <:+: es.map Event.work → seg.sum ≤ (callbackPause * n : ℤ)) ↔
      ∀ seg, seg <:+: es →
        callbackPause * seg.countP isPublish ≤ callbackPause * n + seg.countP isTick := by
    constructor
    · intro hsum seg hseg
      have hseg' := hsum _ (hseg.map Event.work)
      rw [sum_work] at hseg'
      omega
    · intro hcount seg hseg
      obtain ⟨fs, hfs, rfl⟩ := List.infix_map_iff.mp hseg
      have hfs' := hcount fs hfs
      rw [sum_work]
      omega
  have hstate : ∀ fs u, (machine ι κ (Consumer.startConsumer queueName).access bound).Run
      .initial fs u →
        (u.backlog ≤ n ↔ ReflectedWalk.level (fs.map Event.work) ≤ (callbackPause * n : ℤ)) := by
    intro fs u hu
    obtain ⟨hserver, hload⟩ := run_load ha hu (singleServer_initial a) [] rfl
    rw [backlog_le_iff hserver, ← List.nil_append (fs.map Event.work), ← hload]
    norm_cast
  rw [← hstretch, ← hlevel]
  constructor
  · intro hthrough p hp
    obtain ⟨fs, hfs, rfl⟩ := List.prefix_map_iff.mp hp
    obtain ⟨gs, rfl⟩ := hfs
    obtain ⟨u, hu, _⟩ := Machine.run_append_iff.mp h
    exact (hstate fs u hu).mp (hthrough fs u ⟨gs, rfl⟩ hu)
  · intro hle fs u hfs hu
    exact (hstate fs u hu).mpr (hle _ (hfs.map Event.work))

theorem exists_cycle (queueName : String) (ha : bound.head? = some a) (i : ι) {s : State ι κ}
    (hi : s.asleep i = 0) :
    ∃ es t, (machine ι κ (Consumer.startConsumer queueName).access bound).Run s es t ∧
      t.asleep i = 0 ∧ t.load a = s.load a + 9 := by
  have hready : ∀ {u : State ι κ} {j : κ}, u.busy a ≠ 0 →
      ¬ u.Ready (Consumer.startConsumer queueName).access bound j := by
    intro u j hbusy hready
    obtain ⟨hj, hidle, _⟩ := hready
    rw [permits_startConsumer ha hj] at hidle
    exact hbusy hidle
  by_cases hidle : s.busy a = 0
  · refine ⟨[.publish i, .handOver a, .tick], _,
      .cons hi (.cons ⟨ha, hidle, Nat.succ_pos _⟩ (.cons ?_ (.nil _))), ?_, ?_⟩
    · intro j
      exact hready (by simp [machine, Event.apply, callbackPause])
    · simp [machine, Event.apply, publishPause]
    · simp [machine, Event.apply, State.load, callbackPause, hidle]
  · refine ⟨[.publish i, .tick], _, .cons hi (.cons ?_ (.nil _)), ?_, ?_⟩
    · intro j
      exact hready hidle
    · simp [machine, Event.apply, publishPause]
    · simp only [machine, Event.apply, State.load, callbackPause]
      omega

theorem exists_load (queueName : String) (ha : bound.head? = some a) (i : ι) (n : ℕ) :
    ∃ es t, (machine ι κ (Consumer.startConsumer queueName).access bound).Run .initial es t ∧
      t.asleep i = 0 ∧ t.load a = 9 * n := by
  induction n with
  | zero => exact ⟨[], .initial, .nil _, rfl, rfl⟩
  | succ n ih =>
    obtain ⟨es, s, hr, hi, hload⟩ := ih
    obtain ⟨fs, t, hr', hi', hload'⟩ := exists_cycle queueName ha i hi
    exact ⟨es ++ fs, t, hr.append hr', hi', by omega⟩

theorem exists_backlog (queueName : String) {bound : List κ} (hne : bound ≠ []) (i : ι) (n : ℕ) :
    ∃ es t, (machine ι κ (Consumer.startConsumer queueName).access bound).Run .initial es t ∧
      n < t.backlog := by
  have ha := List.head?_eq_some_head hne
  obtain ⟨es, t, hr, _, hload⟩ := exists_load queueName ha i (2 * n + 2)
  have hserver := (run_load ha hr (singleServer_initial _) [] rfl).1
  refine ⟨es, t, hr, ?_⟩
  by_contra hle
  have hle' := (backlog_le_iff hserver n).mp (Nat.le_of_not_lt hle)
  simp only [callbackPause] at hle'
  omega

end Step

/-- For `p` producers and any `c ≥ 10 * p` receivers on the queue, the backlog
stays at most `20 * p` through a run exactly if no stretch of the run publishes
more than one message every ten ticks and `20 * p` messages more; no backlog is
too large for some run. -/
theorem backlog_bounded_iff (queueName : String) (p c : ℕ) (hp : 1 ≤ p) (hc : 10 * p ≤ c)
    (bound : List (Fin c)) (hbound : ∀ j, j ∈ bound) :
    (∀ es t, (machine (Fin p) (Fin c) (Consumer.startConsumer queueName).access bound).Run
        .initial es t →
      ((machine (Fin p) (Fin c) (Consumer.startConsumer queueName).access bound).Throughout
          (fun s => s.backlog ≤ 20 * p) .initial es ↔
        ∀ seg, seg <:+: es →
          callbackPause * seg.countP isPublish ≤
            callbackPause * (20 * p) + seg.countP isTick)) ∧
      ∀ n, ∃ es t, (machine (Fin p) (Fin c) (Consumer.startConsumer queueName).access bound).Run
        .initial es t ∧ n < t.backlog := by
  have hne : bound ≠ [] := List.ne_nil_of_mem (hbound ⟨0, by omega⟩)
  refine ⟨?_, exists_backlog queueName hne ⟨0, hp⟩⟩
  intro es t h
  exact throughout_backlog_le_iff (List.head?_eq_some_head hne) (20 * p) h

theorem backlog_bounded_iff_ten :
    (∀ es t, (machine (Fin 1) (Fin 10) (Consumer.startConsumer "q.tick.receiver").access
        (List.finRange 10)).Run .initial es t →
      ((machine (Fin 1) (Fin 10) (Consumer.startConsumer "q.tick.receiver").access
          (List.finRange 10)).Throughout (fun s => s.backlog ≤ 20 * 1) .initial es ↔
        ∀ seg, seg <:+: es →
          callbackPause * seg.countP isPublish ≤
            callbackPause * (20 * 1) + seg.countP isTick)) ∧
      ∀ n, ∃ es t, (machine (Fin 1) (Fin 10) (Consumer.startConsumer "q.tick.receiver").access
        (List.finRange 10)).Run .initial es t ∧ n < t.backlog :=
  backlog_bounded_iff _ 1 10 (by decide) (by decide) _ List.mem_finRange

theorem backlog_not_bounded :
    ¬ ∀ (queueName : String) (p c : ℕ), 1 ≤ p → 10 * p ≤ c → ∀ bound : List (Fin c),
      (∀ j, j ∈ bound) → ∀ es t,
        (machine (Fin p) (Fin c) (Consumer.startConsumer queueName).access bound).Run
          .initial es t → t.backlog ≤ 20 * p := by
  intro h
  have hne : List.finRange 10 ≠ [] := List.ne_nil_of_mem (List.mem_finRange 0)
  obtain ⟨es, t, hr, hlt⟩ := exists_backlog "q.tick.receiver" hne (0 : Fin 1) 20
  have hle := h "q.tick.receiver" 1 10 (by decide) (by decide) _ List.mem_finRange es t hr
  exact absurd hle (Nat.not_le.mpr hlt)

end SolacePubSub.Scaling
