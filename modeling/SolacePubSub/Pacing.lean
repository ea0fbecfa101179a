import SolacePubSub.ProducerAccounting
import SolacePubSub.Lib.RunVariant

/-!
# Pacing

The processes with a clock that ticks every millisecond. A producer sleeps after
a publish that succeeded and a callback sleeps before it counts, so that both
are paced by the clock, in every stretch of time and through all restarts. After
a `Publish` that failed the loop continues at once, and nothing paces it.
-/

namespace SolacePubSub

namespace Producer

/-- What the clock requires, with `asleep` ticks of the sleep left. -/
def Event.Due (asleep : ℕ) : Event → Prop
  | .wake => asleep = 0
  | _ => True

instance dueDecidable (n : ℕ) : ∀ e : Event, Decidable (e.Due n)
  | .wake => inferInstanceAs (Decidable (n = 0))
  | .connect _ | .build _ | .start _ | .publish _ _ | .publishFails | .incErrors | .incPublished
  | .accept _ | .reject _ | .sigterm | .disconnect | .mainReturns | .die | .launch =>
    .isTrue trivial

def Event.asleepAfter (asleep : ℕ) : Event → ℕ
  | .incPublished => publishPause
  | _ => asleep

def Event.isPublish : Event → Bool
  | .publish _ _ => true
  | _ => false

def Event.isLaunch : Event → Bool
  | .launch => true
  | _ => false

def Process.rested (p : Process) (asleep : ℕ) : ℕ :=
  match p.loop with
  | .handed _ => 0
  | .asleep => publishPause - asleep
  | _ => publishPause

theorem Process.rested_le (p : Process) (n : ℕ) : p.rested n ≤ publishPause := by
  unfold Process.rested
  split <;> omega

theorem Process.rested_tick (p : Process) (n : ℕ) : p.rested (n - 1) ≤ 1 + p.rested n := by
  unfold Process.rested
  split <;> omega

theorem rested_apply (cfg : Config) {p : Process} {e : Event} {n : ℕ} (hb : p.Balanced)
    (he : e.Enabled p) (hdue : e.Due n) :
    (if e.isPublish then publishPause else 0) + (e.apply cfg p).rested (e.asleepAfter n) ≤
      (if e.isLaunch then publishPause else 0) + p.rested n := by
  cases e with
  | publish id price => simp [Event.isPublish, Event.isLaunch, Event.apply, Process.rested, he.2]
  | publishFails => simp [Event.isPublish, Event.isLaunch, Event.apply, Process.rested, he.2]
  | incErrors => simp [Event.isPublish, Event.isLaunch, Event.apply, Process.rested, he.2]
  | incPublished =>
    simp [Event.isPublish, Event.isLaunch, Event.apply, Event.asleepAfter, Process.rested]
  | wake =>
    have hn : n = 0 := hdue
    simp [Event.isPublish, Event.isLaunch, Event.apply, Process.rested, he.2, hn]
  | start ok =>
    have hl := hb.unstarted (.inr (.inr he))
    cases ok <;>
      simp [Event.isPublish, Event.isLaunch, Event.apply, Process.startFails, Process.rested, hl]
  | launch =>
    simp [Event.isPublish, Event.isLaunch, Event.apply, Process.fresh, Process.rested]
  | build ok => cases ok <;> exact le_rfl
  | _ => exact le_rfl

end Producer

namespace Consumer

/-- What the clock and the receiver require: callbacks run one at a time. -/
def Event.Due (p : Process) (busy : ℕ) : Event → Prop
  | .callback _ => p.sleeping = [] ∧ p.counted = []
  | .incConsumed _ => busy = 0
  | _ => True

instance dueDecidable (p : Process) (n : ℕ) : ∀ e : Event, Decidable (e.Due p n)
  | .callback _ => inferInstanceAs (Decidable (p.sleeping = [] ∧ p.counted = []))
  | .incConsumed _ => inferInstanceAs (Decidable (n = 0))
  | .connect _ | .build _ | .start _ | .receiveAsync _ | .deliver _ | .callbackReturns _ | .ack _
  | .loseAck _ | .reconnect _ | .sigterm | .terminate | .disconnect | .mainReturns | .die
  | .launch => .isTrue trivial

def Event.busyAfter (busy : ℕ) : Event → ℕ
  | .callback _ => callbackPause
  | _ => busy

def Event.isIncrement : Event → Bool
  | .incConsumed _ => true
  | _ => false

def Process.slept (p : Process) (busy : ℕ) : ℕ :=
  if p.sleeping = [] then 0 else callbackPause - busy

theorem Process.slept_le (p : Process) (n : ℕ) : p.slept n ≤ callbackPause := by
  unfold Process.slept
  split_ifs <;> omega

theorem Process.slept_tick (p : Process) (n : ℕ) : p.slept (n - 1) ≤ 1 + p.slept n := by
  unfold Process.slept
  split_ifs <;> omega

def Process.Sequential (p : Process) : Prop := p.sleeping.length ≤ 1

theorem sequential_apply {b : ReceiverBuilder} {p : Process} {e : Event} {n : ℕ}
    (hdue : e.Due p n) (hp : p.Sequential) : (e.apply b p).Sequential := by
  cases e with
  | callback m => simp [Event.apply, Process.Sequential, hdue.1]
  | incConsumed m => exact (List.erase_sublist.length_le).trans hp
  | build ok => cases ok <;> exact hp
  | start ok => cases ok <;> exact hp
  | mainReturns => exact Nat.zero_le _
  | die => exact Nat.zero_le _
  | launch => exact Nat.zero_le _
  | _ => exact hp

theorem slept_apply {b : ReceiverBuilder} {p : Process} {e : Event} {n : ℕ}
    (he : e.Enabled p) (hdue : e.Due p n) (hp : p.Sequential) :
    (if e.isIncrement then callbackPause else 0) + (e.apply b p).slept (e.busyAfter n) ≤
      p.slept n := by
  cases e with
  | callback m =>
    simp [Event.isIncrement, Event.apply, Event.busyAfter, Process.slept, hdue.1]
  | incConsumed m =>
    have hn : n = 0 := hdue
    have hone : p.sleeping = [m] := by
      obtain ⟨a, ha⟩ := List.length_eq_one_iff.mp
        (Nat.le_antisymm hp (List.length_pos_of_mem he.2))
      have hm := he.2
      rw [ha] at hm ⊢
      rw [List.mem_singleton.mp hm]
    simp [Event.isIncrement, Event.apply, Process.slept, hn, hone]
  | build ok => cases ok <;> exact (Nat.zero_add _).le
  | start ok => cases ok <;> exact (Nat.zero_add _).le
  | mainReturns => exact Nat.zero_le _
  | die => exact Nat.zero_le _
  | launch => exact Nat.zero_le _
  | _ => exact (Nat.zero_add _).le

end Consumer

namespace Pacing
open Consumer (callbackPause)
open Producer (publishPause)

/-- `asleep` and `busy` count the ticks left of a producer's sleep and of the
sleep in a receiver's callback. -/
structure State (ι κ : Type*) where
  system : SolacePubSub.State ι κ
  asleep : ι → ℕ
  busy : κ → ℕ

inductive Event (ι κ : Type*)
  | system (e : SolacePubSub.Event ι κ)
  | tick

variable {ι κ : Type*}

def State.initial (D : Deployment) (queues : String → Option (Queue κ)) : State ι κ where
  system := .initial D queues
  asleep := fun _ => 0
  busy := fun _ => 0

def isTick : Event ι κ → Bool
  | .tick => true
  | _ => false

variable [DecidableEq ι] [DecidableEq κ]

def Event.ofProducer (p : Producer.Event → Bool) (i : ι) : Event ι κ → Bool
  | .system (.producer k e) => k = i && p e
  | _ => false

def Event.ofConsumer (p : Consumer.Event → Bool) (j : κ) : Event ι κ → Bool
  | .system (.consumer k e) => k = j && p e
  | _ => false

def Event.apply (D : Deployment) (s : State ι κ) : Event ι κ → State ι κ
  | .system (.producer i e) =>
    { s with
      system := (SolacePubSub.Event.producer i e).apply D s.system
      asleep := Function.update s.asleep i (e.asleepAfter (s.asleep i)) }
  | .system (.consumer j e) =>
    { s with
      system := (SolacePubSub.Event.consumer j e).apply D s.system
      busy := Function.update s.busy j (e.busyAfter (s.busy j)) }
  | .tick =>
    { s with
      asleep := fun i => s.asleep i - 1
      busy := fun j => s.busy j - 1 }

def Event.Enabled (D : Deployment) (s : State ι κ) : Event ι κ → Prop
  | .system (.producer i e) =>
    (SolacePubSub.Event.producer (κ := κ) i e).Enabled D s.system ∧ e.Due (s.asleep i)
  | .system (.consumer j e) =>
    (SolacePubSub.Event.consumer (ι := ι) j e).Enabled D s.system ∧
      e.Due (s.system.consumers j) (s.busy j)
  | .tick => True

instance enabledDecidable (D : Deployment) (s : State ι κ) :
    ∀ e : Event ι κ, Decidable (e.Enabled D s)
  | .system (.producer i e) => inferInstanceAs (Decidable
    ((SolacePubSub.Event.producer (κ := κ) i e).Enabled D s.system ∧ e.Due (s.asleep i)))
  | .system (.consumer j e) => inferInstanceAs (Decidable
    ((SolacePubSub.Event.consumer (ι := ι) j e).Enabled D s.system ∧
      e.Due (s.system.consumers j) (s.busy j)))
  | .tick => .isTrue trivial

def machine (ι κ : Type*) [DecidableEq ι] [DecidableEq κ] (D : Deployment) :
    Machine (State ι κ) (Event ι κ) where
  Enabled e s := e.Enabled D s
  apply e s := e.apply D s

instance (D : Deployment) (e : Event ι κ) (s : State ι κ) :
    Decidable ((machine ι κ D).Enabled e s) :=
  inferInstanceAs (Decidable (e.Enabled D s))

structure State.WellTimed (s : State ι κ) : Prop where
  balanced : ∀ i, (s.system.producers i).Balanced
  sequential : ∀ j, (s.system.consumers j).Sequential

omit [DecidableEq ι] [DecidableEq κ] in
theorem wellTimed_initial (D : Deployment) (queues : String → Option (Queue κ)) :
    (State.initial (ι := ι) D queues).WellTimed where
  balanced _ := Producer.balanced_fresh
  sequential _ := Nat.zero_le _

variable {D : Deployment}

theorem wellTimed_step (e : Event ι κ) (s : State ι κ) (he : e.Enabled D s)
    (hs : s.WellTimed) : (e.apply D s).WellTimed := by
  cases e with
  | tick => exact ⟨hs.balanced, hs.sequential⟩
  | system e =>
    cases e with
    | producer i e =>
      refine ⟨?_, hs.sequential⟩
      change ∀ k, (Function.update s.system.producers i
        (e.apply D.producer (s.system.producers i)) k).Balanced
      rw [Function.forall_update_iff s.system.producers (p := fun _ p => p.Balanced)]
      constructor
      · exact Producer.balanced_step D.producer e _ he.1.1 (hs.balanced i)
      · exact fun k _ => hs.balanced k
    | consumer j e =>
      refine ⟨hs.balanced, ?_⟩
      change ∀ k, (Function.update s.system.consumers j
        (e.apply D.receiver (s.system.consumers j)) k).Sequential
      rw [Function.forall_update_iff s.system.consumers (p := fun _ p => p.Sequential)]
      constructor
      · exact Consumer.sequential_apply he.2 (hs.sequential j)
      · exact fun k _ => hs.sequential k

theorem rested_step (i : ι) (e : Event ι κ) (s : State ι κ) (he : e.Enabled D s)
    (hs : s.WellTimed) :
    (if e.ofProducer Producer.Event.isPublish i then publishPause else 0) +
        ((e.apply D s).system.producers i).rested ((e.apply D s).asleep i) ≤
      (if isTick e then 1 else 0) +
        (if e.ofProducer Producer.Event.isLaunch i then publishPause else 0) +
          (s.system.producers i).rested (s.asleep i) := by
  cases e with
  | tick => simpa [Event.ofProducer, isTick, Event.apply] using Producer.Process.rested_tick _ _
  | system e =>
    cases e with
    | consumer j e => simp [Event.ofProducer, isTick, Event.apply]
    | producer k e =>
      by_cases hk : k = i
      · subst k
        simpa [Event.ofProducer, isTick, Event.apply, producers_producer] using
          Producer.rested_apply D.producer (hs.balanced i) he.1.1 he.2
      · simp [Event.ofProducer, isTick, Event.apply, producers_producer, hk, Ne.symm hk]

theorem slept_step (j : κ) (e : Event ι κ) (s : State ι κ) (he : e.Enabled D s)
    (hs : s.WellTimed) :
    (if e.ofConsumer Consumer.Event.isIncrement j then callbackPause else 0) +
        ((e.apply D s).system.consumers j).slept ((e.apply D s).busy j) ≤
      (if isTick e then 1 else 0) + (if false then callbackPause else 0) +
        (s.system.consumers j).slept (s.busy j) := by
  cases e with
  | tick => simpa [Event.ofConsumer, isTick, Event.apply] using Consumer.Process.slept_tick _ _
  | system e =>
    cases e with
    | producer i e => simp [Event.ofConsumer, isTick, Event.apply]
    | consumer k e =>
      by_cases hk : k = j
      · subst k
        simpa [Event.ofConsumer, isTick, Event.apply, consumers_consumer] using
          Consumer.slept_apply (b := D.receiver) he.1.1 he.2 (hs.sequential j)
      · simp [Event.ofConsumer, isTick, Event.apply, consumers_consumer, hk, Ne.symm hk]

theorem retries_untimed {s : State ι κ} {i : ι} (ha : (s.system.producers i).Alive)
    (hl : (s.system.producers i).loop = .top) (n : ℕ) :
    ∃ es t, (machine ι κ D).Run s es t ∧ es.countP isTick = 0 ∧
      (t.system.producers i).publishErrors = (s.system.producers i).publishErrors + n := by
  induction n generalizing s with
  | zero => exact ⟨[], s, .nil s, rfl, rfl⟩
  | succ n ih =>
    let fails : Event ι κ := .system (.producer i .publishFails)
    let counts : Event ι κ := .system (.producer i .incErrors)
    let u := counts.apply D (fails.apply D s)
    have hfails : fails.Enabled D s := ⟨⟨⟨ha, hl⟩, trivial⟩, trivial⟩
    have hu : u.system.producers i = { s.system.producers i with
        loop := .top, failed := (s.system.producers i).failed + 1,
        publishErrors := (s.system.producers i).publishErrors + 1 } := by
      simp [u, fails, counts, Event.apply, producers_producer, Producer.Event.apply]
    have hcounts : counts.Enabled D (fails.apply D s) := by
      refine ⟨⟨⟨?_, ?_⟩, trivial⟩, trivial⟩
      · simpa [fails, Event.apply, producers_producer, Producer.Event.apply,
          Producer.Process.Alive] using ha
      · simp [fails, Event.apply, producers_producer, Producer.Event.apply]
    obtain ⟨es, t, hr, hticks, herrors⟩ := ih (s := u) (by rw [hu]; exact ha) (by rw [hu])
    refine ⟨fails :: counts :: es, t, .cons hfails (.cons hcounts hr), hticks, ?_⟩
    rw [herrors, hu, Nat.add_assoc, Nat.add_comm 1 n]

/-- In every stretch of every run each producer hands over no more than one
message for each millisecond, one more, and one more for each restart, and each
consumer counts no more than one for every ten milliseconds and one more. But
from every state in which a producer may publish it can fail any number of times
before a millisecond has passed. -/
theorem paced (topicMatch : String → String → Bool) (pc : Producer.Config)
    (cc : Consumer.Config) (queues : String → Option (Queue κ)) {es fs : List (Event ι κ)}
    {s t : State ι κ}
    (h : (machine ι κ (deploy topicMatch pc cc)).Run
      (.initial (deploy topicMatch pc cc) queues) es s)
    (h' : (machine ι κ (deploy topicMatch pc cc)).Run s fs t) :
    (∀ i, publishPause * fs.countP (Event.ofProducer Producer.Event.isPublish i) ≤
        fs.countP isTick +
          publishPause * (fs.countP (Event.ofProducer Producer.Event.isLaunch i) + 1)) ∧
      (∀ j, callbackPause * fs.countP (Event.ofConsumer Consumer.Event.isIncrement j) ≤
        fs.countP isTick + callbackPause) ∧
      ∀ i, (t.system.producers i).Alive → (t.system.producers i).loop = .top → ∀ n, ∃ gs u,
        (machine ι κ (deploy topicMatch pc cc)).Run t gs u ∧ gs.countP isTick = 0 ∧
          (u.system.producers i).publishErrors = (t.system.producers i).publishErrors + n := by
  have hs : s.WellTimed := h.invariant wellTimed_step (wellTimed_initial _ queues)
  refine ⟨?_, ?_, fun i ha hl n => retries_untimed ha hl n⟩
  · intro i
    have hrate := h'.rate (v := fun u => (u.system.producers i).rested (u.asleep i))
      wellTimed_step (fun e u => rested_step i e u) hs
    have hle := (s.system.producers i).rested_le (s.asleep i)
    rw [Nat.mul_add, Nat.mul_one]
    omega
  · intro j
    have hrate := h'.rate (v := fun u => (u.system.consumers j).slept (u.busy j))
      (q := fun _ => false) wellTimed_step (fun e u => slept_step j e u) hs
    have hle := (s.system.consumers j).slept_le (s.busy j)
    rw [List.countP_false, Function.const_apply, Nat.mul_zero] at hrate
    omega

def publishPaced : List (Event Unit Unit) :=
  let publish (id : ℕ) : List (Event Unit Unit) :=
    [.system (.producer () (.publish id Producer.leastPrice)), .system (.producer () .incPublished),
      .tick, .system (.producer () .wake)]
  publish 0 ++ publish 1

theorem paced_publishPaced :
    let D := deploy (· == ·) (Producer.config fun _ => "") (Consumer.config fun _ => "")
    let s := (machine Unit Unit D).final ((producerStart ()).map .system) (.initial D fun _ => none)
    let t := (machine Unit Unit D).final publishPaced s
    (∀ i, publishPause * publishPaced.countP (Event.ofProducer Producer.Event.isPublish i) ≤
        publishPaced.countP isTick +
          publishPause * (publishPaced.countP (Event.ofProducer Producer.Event.isLaunch i) + 1)) ∧
      (∀ j, callbackPause * publishPaced.countP (Event.ofConsumer Consumer.Event.isIncrement j) ≤
        publishPaced.countP isTick + callbackPause) ∧
      ∀ i, (t.system.producers i).Alive → (t.system.producers i).loop = .top → ∀ n, ∃ gs u,
        (machine Unit Unit D).Run t gs u ∧ gs.countP isTick = 0 ∧
          (u.system.producers i).publishErrors = (t.system.producers i).publishErrors + n := by
  intro D s t
  have hr : (machine Unit Unit D).Run (.initial D fun _ => none)
      ((producerStart ()).map .system) s :=
    Machine.Legal.run (by decide)
  have hr' : (machine Unit Unit D).Run s publishPaced t := Machine.Legal.run (by decide)
  exact paced (· == ·) _ _ _ hr hr'

end Pacing

end SolacePubSub
