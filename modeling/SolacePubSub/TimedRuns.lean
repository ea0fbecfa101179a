import SolacePubSub.Conservation
import SolacePubSub.ConsumerScaling

/-!
# Timed runs are runs of the system

Every run of the clocked system is made by the processes themselves: a publish
is a `Publish` with its increment and the broker's acceptance, a delivery starts
the callback, and a tick wakes producers and lets the callbacks that are due
increment `consumedTotal` and return.
-/

namespace SolacePubSub.Scaling
open Consumer (AccessType callbackPause)
open Producer (publishPause)

structure ProducerAt (p : Producer.Process) (asleep : ℕ) : Prop where
  main : p.main = .wait
  loop : p.loop = if asleep = 0 then .top else .asleep
  outbound : p.outbound = []
  pause : asleep ≤ publishPause

structure ConsumerAt (p : Consumer.Process) (busy : ℕ) : Prop where
  main : p.main = .wait
  handler : p.handler = true
  buffer : p.buffer = []
  sleeping : p.sleeping.length = if busy = 0 then 0 else 1

structure QueueAt {κ : Type*} (D : Deployment) (bound : List κ) (q : Queue κ) (waiting : ℕ) :
    Prop where
  access : q.access = D.receiver.access
  bound : q.bound = bound
  waiting : q.messages.length = waiting
  subscribed : q.subscriptions.any (D.topicMatch · D.producer.topic) = true

theorem QueueAt.route {κ : Type*} {D : Deployment} {bound : List κ} {q : Queue κ} {n : ℕ}
    (hq : QueueAt D bound q n) (ms : List Message) (hms : ∀ m ∈ ms, m.topic = D.producer.topic) :
    QueueAt D bound (q.route D.topicMatch ms) (n + ms.length) where
  access := hq.access
  bound := hq.bound
  waiting := by
    have hall : ms.filter (q.attracts D.topicMatch) = ms := by
      rw [List.filter_eq_self]
      intro m hm
      rw [Queue.attracts, hms m hm]
      exact hq.subscribed
    rw [Queue.route, hall, List.length_append, hq.waiting]
  subscribed := hq.subscribed

variable {ι κ : Type*}

section Startup
variable [DecidableEq ι] [DecidableEq κ]

def Reaches (D : Deployment) (t u : SolacePubSub.State ι κ) : Prop :=
  (SolacePubSub.machine ι κ D).ReachableOn SolacePubSub.Event.FailureFree t u

variable {D : Deployment} {t : SolacePubSub.State ι κ}

structure Started (D : Deployment) (A : Finset ι) (l : List κ) (t : SolacePubSub.State ι κ) :
    Prop where
  up : ∀ i ∈ A, ProducerAt (t.producers i) 0 ∧ (t.producers i).publishedTotal = 0
  down : ∀ i ∉ A, t.producers i = .fresh
  bound : ∀ j ∈ l, ConsumerAt (t.consumers j) 0 ∧ (t.consumers j).consumedTotal = 0
  unbound : ∀ j ∉ l, t.consumers j = .fresh 0
  queue : ∃ q, t.queue D = some q ∧ QueueAt D l q 0

theorem reaches_producerStart {A : Finset ι} {l : List κ} (hs : Started D A l t) {i : ι}
    (hi : i ∉ A) : ∃ u, Reaches D t u ∧ Started D (insert i A) l u := by
  have hp := hs.down i hi
  obtain ⟨q, hq, hat⟩ := hs.queue
  have hroute := ((hat.route [] (by simp)).route [] (by simp)).route [] (by simp)
  refine ⟨_, ⟨producerStart i, ?_, .cons ?_ (.cons ?_ (.cons ?_ (.nil _)))⟩,
    ?_, ?_, hs.bound, hs.unbound, ⟨_, by simp [hq, Producer.Event.accepted], hroute⟩⟩
  · simp [producerStart, SolacePubSub.Event.FailureFree, Producer.Event.FailureFree]
  · simp [SolacePubSub.Event.Enabled, Producer.Event.Enabled, hp, Producer.Process.fresh,
      Producer.Event.Numbered]
  · simp [SolacePubSub.Event.Enabled, producers_producer, Producer.Event.Enabled,
      Producer.Event.apply, Producer.Event.Numbered]
  · simp [SolacePubSub.Event.Enabled, producers_producer, Producer.Event.Enabled,
      Producer.Event.apply, Producer.Event.Numbered]
  · intro k hk
    by_cases hki : k = i
    · subst k
      simp only [machine_apply, producers_producer, Function.update_self, Producer.Event.apply, hp]
      exact ⟨⟨rfl, rfl, rfl, Nat.zero_le _⟩, rfl⟩
    · simpa [producers_producer, hki] using hs.up k (Finset.mem_of_mem_insert_of_ne hk hki)
  · intro k hk
    rw [Finset.mem_insert, not_or] at hk
    simpa [producers_producer, hk.1] using hs.down k hk.2

theorem reaches_consumerStart {A : Finset ι} {l : List κ} (hs : Started D A l t) {j : κ}
    (hj : j ∉ l) : ∃ u, Reaches D t u ∧ Started D A (l ++ [j]) u := by
  have hp := hs.unbound j hj
  obtain ⟨q, hq, hat⟩ := hs.queue
  refine ⟨_, ⟨consumerStart j, ?_, .cons ?_ (.cons ?_ (.cons ?_ (.cons ?_ (.nil _))))⟩,
    hs.up, hs.down, ?_, ?_, ⟨q.bind j, by simp [hq, Queue.follow], hat.access,
      congrArg (· ++ [j]) hat.bound, hat.waiting, hat.subscribed⟩⟩
  · simp [consumerStart, SolacePubSub.Event.FailureFree, Consumer.Event.FailureFree]
  · simp [SolacePubSub.Event.Enabled, Consumer.Event.Enabled, hp, Consumer.Process.fresh,
      Queue.Allows]
  · simp [SolacePubSub.Event.Enabled, consumers_consumer, Consumer.Event.Enabled,
      Consumer.Event.apply, Queue.Allows]
  · simp [SolacePubSub.Event.Enabled, consumers_consumer, Consumer.Event.Enabled,
      Consumer.Event.apply, Queue.Allows, hq]
  · simp [SolacePubSub.Event.Enabled, consumers_consumer, Consumer.Event.Enabled,
      Consumer.Event.apply, Queue.Allows]
  · intro k hk
    by_cases hkj : k = j
    · subst k
      simp only [machine_apply, consumers_consumer, Function.update_self, Consumer.Event.apply, hp]
      exact ⟨⟨rfl, rfl, rfl, rfl⟩, rfl⟩
    · have hkl : k ∈ l := by simpa [hkj] using hk
      simpa [consumers_consumer, hkj] using hs.bound k hkl
  · intro k hk
    rw [List.mem_append, List.mem_singleton, not_or] at hk
    simpa [consumers_consumer, hk.2] using hs.unbound k hk.1

theorem reaches_producersUp (hs : Started D ∅ [] t) (A : Finset ι) :
    ∃ u, Reaches D t u ∧ Started D A [] u := by
  induction A using Finset.induction_on with
  | empty => exact ⟨t, .refl t, hs⟩
  | insert i A hi ih =>
    obtain ⟨u, hu, hR⟩ := ih
    obtain ⟨v, hv, hR'⟩ := reaches_producerStart hR hi
    exact ⟨v, hu.trans hv, hR'⟩

theorem reaches_consumersBound {A : Finset ι} (hs : Started D A [] t) (l : List κ)
    (hl : l.Nodup) : ∃ u, Reaches D t u ∧ Started D A l u := by
  induction l using List.reverseRecOn with
  | nil => exact ⟨t, .refl t, hs⟩
  | append_singleton l j ih =>
    obtain ⟨hl', _, hdisjoint⟩ := List.nodup_append.mp hl
    obtain ⟨u, hu, hR⟩ := ih hl'
    have hj : j ∉ l := fun hj => hdisjoint j hj j (List.mem_singleton.mpr rfl) rfl
    obtain ⟨v, hv, hR'⟩ := reaches_consumerStart hR hj
    exact ⟨v, hu.trans hv, hR'⟩

end Startup

section Ticks
variable [DecidableEq ι] [DecidableEq κ]

def State.ticked (s : State ι κ) (A : Finset ι) (B : Finset κ) : State ι κ :=
  { s with
    asleep := fun i => if i ∈ A then s.asleep i - 1 else s.asleep i
    busy := fun j => if j ∈ B then s.busy j - 1 else s.busy j
    completed := s.completed + ∑ j ∈ B, if s.busy j = 1 then 1 else 0 }

theorem ticked_empty (s : State ι κ) : s.ticked ∅ ∅ = s := by simp [State.ticked]

theorem ticked_insert_producer (s : State ι κ) {i : ι} {A : Finset ι} (hi : i ∉ A) (B : Finset κ) :
    s.ticked (insert i A) B =
      { s.ticked A B with
        asleep := Function.update (s.ticked A B).asleep i ((s.ticked A B).asleep i - 1) } := by
  simp only [State.ticked, State.mk.injEq, and_true]
  funext k
  by_cases hk : k = i
  · subst k
    simp [hi]
  · simp [hk]

theorem ticked_insert_consumer (s : State ι κ) (A : Finset ι) {j : κ} {B : Finset κ} (hj : j ∉ B) :
    s.ticked A (insert j B) =
      { s.ticked A B with
        busy := Function.update (s.ticked A B).busy j ((s.ticked A B).busy j - 1)
        completed := (s.ticked A B).completed +
          if (s.ticked A B).busy j = 1 then 1 else 0 } := by
  simp only [State.ticked, State.mk.injEq, true_and]
  refine ⟨?_, ?_⟩
  · funext k
    by_cases hk : k = j
    · subst k
      simp [hj]
    · simp [hk]
  · simp only [Finset.sum_insert hj, hj, ↓reduceIte]
    omega

end Ticks

variable [Fintype ι] [Fintype κ]

structure Realises (D : Deployment) (bound : List κ) (s : State ι κ)
    (t : SolacePubSub.State ι κ) : Prop where
  producers : ∀ i, ProducerAt (t.producers i) (s.asleep i)
  consumers : ∀ j, ConsumerAt (t.consumers j) (s.busy j)
  queue : ∃ q, t.queue D = some q ∧ QueueAt D bound q s.waiting
  published : ∑ i, (t.producers i).publishedTotal = s.published
  completed : ∑ j, (t.consumers j).consumedTotal = s.completed

section Frame
variable {D : Deployment} {bound : List κ} {s s' : State ι κ} {t u : SolacePubSub.State ι κ}

theorem realises_producer [DecidableEq ι] (hs : Realises D bound s t) (i : ι)
    (hothers : ∀ k, k ≠ i → u.producers k = t.producers k ∧ s'.asleep k = s.asleep k)
    (hc : u.consumers = t.consumers) (hbusy : s'.busy = s.busy)
    (hp : ProducerAt (u.producers i) (s'.asleep i))
    (hq : ∃ q, u.queue D = some q ∧ QueueAt D bound q s'.waiting)
    (hpub : (u.producers i).publishedTotal + s.published =
      (t.producers i).publishedTotal + s'.published)
    (hcompleted : s'.completed = s.completed) : Realises D bound s' u where
  producers k := by
    by_cases hk : k = i
    · exact hk ▸ hp
    · rw [(hothers k hk).1, (hothers k hk).2]
      exact hs.producers k
  consumers k := by
    rw [hc, hbusy]
    exact hs.consumers k
  queue := hq
  published := by
    have hsum := FamilySum.sum_update_add (fun p => p.publishedTotal) t.producers i (u.producers i)
    have hu : Function.update t.producers i (u.producers i) = u.producers :=
      Function.update_eq_iff.mpr ⟨rfl, fun k hk => (hothers k hk).1.symm⟩
    have hold := hs.published
    rw [hu] at hsum
    omega
  completed := by
    rw [hc, hcompleted]
    exact hs.completed

theorem realises_consumer [DecidableEq κ] (hs : Realises D bound s t) (j : κ)
    (hothers : ∀ k, k ≠ j → u.consumers k = t.consumers k ∧ s'.busy k = s.busy k)
    (hc : u.producers = t.producers) (hasleep : s'.asleep = s.asleep)
    (hp : ConsumerAt (u.consumers j) (s'.busy j))
    (hq : ∃ q, u.queue D = some q ∧ QueueAt D bound q s'.waiting)
    (hcon : (u.consumers j).consumedTotal + s.completed =
      (t.consumers j).consumedTotal + s'.completed)
    (hpublished : s'.published = s.published) : Realises D bound s' u where
  producers k := by
    rw [hc, hasleep]
    exact hs.producers k
  consumers k := by
    by_cases hk : k = j
    · exact hk ▸ hp
    · rw [(hothers k hk).1, (hothers k hk).2]
      exact hs.consumers k
  queue := hq
  published := by
    rw [hc, hpublished]
    exact hs.published
  completed := by
    have hsum := FamilySum.sum_update_add (fun p => p.consumedTotal) t.consumers j (u.consumers j)
    have hu : Function.update t.consumers j (u.consumers j) = u.consumers :=
      Function.update_eq_iff.mpr ⟨rfl, fun k hk => (hothers k hk).1.symm⟩
    have hold := hs.completed
    rw [hu] at hsum
    omega

end Frame

variable [DecidableEq ι] [DecidableEq κ]

variable {D : Deployment} {bound : List κ} {s : State ι κ} {t : SolacePubSub.State ι κ}

theorem reaches_publish (hs : Realises D bound s t) {i : ι} (hi : s.asleep i = 0) :
    ∃ u, Reaches D t u ∧ Realises D bound ((Event.publish i).apply s) u := by
  have hp := hs.producers i
  have hloop : (t.producers i).loop = .top := by rw [hp.loop, if_pos hi]
  obtain ⟨q, hq, hat⟩ := hs.queue
  let m := Producer.message D.producer t.handed.length Producer.leastPrice
  refine ⟨_, ⟨[.producer i (.publish t.handed.length Producer.leastPrice),
      .producer i .incPublished, .producer i (.accept m)], ?_,
      .cons ?_ (.cons ?_ (.cons ?_ (.nil _)))⟩,
    realises_producer hs i ?_ rfl rfl ?_ ?_ ?_ rfl⟩
  · simp [SolacePubSub.Event.FailureFree, Producer.Event.FailureFree]
  · simp [SolacePubSub.Event.Enabled, Producer.Event.Enabled, Producer.Process.Alive, hp.main,
      hloop, Producer.Event.Numbered]
  · simp [SolacePubSub.Event.Enabled, producers_producer, Producer.Event.Enabled,
      Producer.Event.apply, Producer.Process.Alive, Producer.Loop.pending, hp.main,
      Producer.Event.Numbered]
  · simp [SolacePubSub.Event.Enabled, producers_producer, Producer.Event.Enabled,
      Producer.Event.apply, Producer.Process.Connected, hp.main, Producer.Event.Numbered, m]
  · intro k hk
    simp [producers_producer, Event.apply, hk]
  · constructor <;> simp [producers_producer, Producer.Event.apply, Event.apply, hp.main,
      hp.outbound, publishPause, m]
  · have hroute := ((hat.route [] (by simp)).route [] (by simp)).route [m] (by simp [m]; rfl)
    exact ⟨_, by simp [hq, Producer.Event.accepted], hroute⟩
  · simp [producers_producer, Producer.Event.apply, Event.apply]
    omega

theorem reaches_handOver (hs : Realises D bound s t) {j : κ}
    (he : s.Ready D.receiver.access bound j) :
    ∃ u, Reaches D t u ∧ Realises D bound ((Event.handOver j).apply s) u := by
  obtain ⟨hpermits, hidle, hwait⟩ := he
  have hp := hs.consumers j
  obtain ⟨q, hq, hat⟩ := hs.queue
  have hsleeping : (t.consumers j).sleeping = [] :=
    List.length_eq_zero_iff.mp (by rw [hp.sleeping, if_pos hidle])
  obtain ⟨m, hm⟩ := List.exists_mem_of_length_pos (hat.waiting ▸ hwait : 0 < q.messages.length)
  refine ⟨_, ⟨[.consumer j (.deliver m), .consumer j (.callback m)], ?_,
    .cons ?_ (.cons ?_ (.nil _))⟩, realises_consumer hs j ?_ rfl rfl ?_ ?_ ?_ rfl⟩
  · simp [SolacePubSub.Event.FailureFree, Consumer.Event.FailureFree]
  · rw [← hat.access, ← hat.bound] at hpermits
    simp [SolacePubSub.Event.Enabled, Consumer.Event.Enabled, Consumer.Process.Receiving, hp.main,
      Queue.Allows, hq, hpermits, hm]
  · simp [SolacePubSub.Event.Enabled, consumers_consumer, Consumer.Event.Enabled,
      Consumer.Event.apply, Consumer.Process.Alive, hp.main, hp.handler, Queue.Allows]
  · intro k hk
    simp [consumers_consumer, Event.apply, hk]
  · constructor <;> simp [consumers_consumer, Consumer.Event.apply, Event.apply, hp.main,
      hp.handler, hp.buffer, hsleeping, callbackPause]
  · refine ⟨q.deliver j m, by simp [hq, Queue.follow], hat.access, hat.bound, ?_, hat.subscribed⟩
    exact (List.length_erase_of_mem hm).trans (congrArg (· - 1) hat.waiting)
  · simp [consumers_consumer, Consumer.Event.apply, Event.apply]

theorem reaches_wake (hs : Realises D bound s t) (i : ι) :
    ∃ u, Reaches D t u ∧
      Realises D bound { s with asleep := Function.update s.asleep i (s.asleep i - 1) } u := by
  have hp := hs.producers i
  by_cases hi : s.asleep i = 0
  · refine ⟨t, .refl t, ?_⟩
    have hsame : s.asleep i - 1 = s.asleep i := by omega
    rw [hsame, Function.update_eq_self]
    exact hs
  · have hloop : (t.producers i).loop = .asleep := by rw [hp.loop, if_neg hi]
    have hone : s.asleep i - 1 = 0 := Nat.sub_eq_zero_of_le hp.pause
    obtain ⟨q, hq, hat⟩ := hs.queue
    refine ⟨_, ⟨[.producer i .wake], ?_, .cons ?_ (.nil _)⟩,
      realises_producer hs i ?_ rfl rfl ?_ ?_ ?_ rfl⟩
    · simp [SolacePubSub.Event.FailureFree, Producer.Event.FailureFree]
    · simp [SolacePubSub.Event.Enabled, Producer.Event.Enabled, Producer.Process.Alive, hp.main,
        hloop, Producer.Event.Numbered]
    · intro k hk
      simp [producers_producer, hk]
    · constructor <;> simp [producers_producer, Producer.Event.apply, hp.main, hp.outbound, hone]
    · exact ⟨_, by simp [hq, Producer.Event.accepted], hat.route [] (by simp)⟩
    · simp [producers_producer, Producer.Event.apply]

theorem reaches_advance (hs : Realises D bound s t) (j : κ) :
    ∃ u, Reaches D t u ∧
      Realises D bound
        { s with
          busy := Function.update s.busy j (s.busy j - 1)
          completed := s.completed + if s.busy j = 1 then 1 else 0 } u := by
  have hp := hs.consumers j
  obtain ⟨q, hq, hat⟩ := hs.queue
  by_cases hj : s.busy j = 1
  · have hlen : (t.consumers j).sleeping.length = 1 := by rw [hp.sleeping, hj]; rfl
    obtain ⟨m, hm⟩ := List.length_eq_one_iff.mp hlen
    refine ⟨_, ⟨[.consumer j (.incConsumed m), .consumer j (.callbackReturns m)], ?_,
      .cons ?_ (.cons ?_ (.nil _))⟩, realises_consumer hs j ?_ rfl rfl ?_ ?_ ?_ rfl⟩
    · simp [SolacePubSub.Event.FailureFree, Consumer.Event.FailureFree]
    · simp [SolacePubSub.Event.Enabled, Consumer.Event.Enabled, Consumer.Process.Alive, hp.main,
        hm, Queue.Allows]
    · simp [SolacePubSub.Event.Enabled, consumers_consumer, Consumer.Event.Enabled,
        Consumer.Event.apply, Consumer.Process.Alive, hp.main, Queue.Allows]
    · intro k hk
      simp [consumers_consumer, hk]
    · constructor <;> simp [consumers_consumer, Consumer.Event.apply, hp.main, hp.handler,
        hp.buffer, hm, hj]
    · exact ⟨q, by simp [hq, Queue.follow], hat⟩
    · simp [consumers_consumer, Consumer.Event.apply, hj]
      omega
  · refine ⟨t, .refl t, realises_consumer hs j ?_ rfl rfl ?_ ⟨q, hq, hat⟩ ?_ rfl⟩
    · intro k hk
      simp [hk]
    · have hiff : s.busy j - 1 = 0 ↔ s.busy j = 0 := by omega
      exact ⟨hp.main, hp.handler, hp.buffer, by simp [hp.sleeping, hiff]⟩
    · simp [hj]

theorem ticked_univ (s : State ι κ) :
    s.ticked Finset.univ Finset.univ = (Event.tick : Event ι κ).apply s := by
  simp [State.ticked, Event.apply]

theorem reaches_wakes (hs : Realises D bound s t) (A : Finset ι) :
    ∃ u, Reaches D t u ∧ Realises D bound (s.ticked A ∅) u := by
  induction A using Finset.induction_on with
  | empty => exact ⟨t, .refl t, (ticked_empty s).symm ▸ hs⟩
  | insert i A hi ih =>
    obtain ⟨u, hu, hR⟩ := ih
    obtain ⟨v, hv, hR'⟩ := reaches_wake hR i
    exact ⟨v, hu.trans hv, ticked_insert_producer s hi ∅ ▸ hR'⟩

theorem reaches_advances (hs : Realises D bound s t) (A : Finset ι) (B : Finset κ) :
    ∃ u, Reaches D t u ∧ Realises D bound (s.ticked A B) u := by
  induction B using Finset.induction_on with
  | empty => exact reaches_wakes hs A
  | insert j B hj ih =>
    obtain ⟨u, hu, hR⟩ := ih
    obtain ⟨v, hv, hR'⟩ := reaches_advance hR j
    exact ⟨v, hu.trans hv, ticked_insert_consumer s A hj ▸ hR'⟩

theorem reaches_tick (hs : Realises D bound s t) :
    ∃ u, Reaches D t u ∧ Realises D bound ((Event.tick : Event ι κ).apply s) u :=
  ticked_univ s ▸ reaches_advances hs Finset.univ Finset.univ

theorem reaches_step (e : Event ι κ) (he : e.Enabled D.receiver.access bound s)
    (hs : Realises D bound s t) : ∃ u, Reaches D t u ∧ Realises D bound (e.apply s) u := by
  cases e with
  | publish i => exact reaches_publish hs he
  | handOver j => exact reaches_handOver hs he
  | tick => exact reaches_tick hs

theorem run_realised {s' : State ι κ} {es : List (Event ι κ)}
    (h : (machine ι κ D.receiver.access bound).Run s es s') (hs : Realises D bound s t) :
    ∃ u, Reaches D t u ∧ Realises D bound s' u := by
  refine Machine.Run.simulate (N := SolacePubSub.machine ι κ D)
    (P := SolacePubSub.Event.FailureFree) (R := Realises D bound) ?_ h hs
  intro e s t he hR
  exact reaches_step e he hR

theorem reaches_initial {queues : String → Option (Queue κ)} {q : Queue κ}
    (hq : queues D.receiver.queue = some q) (hat : QueueAt D [] q 0) (hnodup : bound.Nodup)
    (hall : ∀ j, j ∈ bound) :
    ∃ u, Reaches D (.initial D queues) u ∧ Realises (ι := ι) D bound .initial u := by
  have hinitial : Started (ι := ι) D ∅ [] (.initial D queues) :=
    ⟨by simp, fun _ _ => rfl, by simp, fun _ _ => rfl, ⟨q, hq, hat⟩⟩
  obtain ⟨t, ht, hup⟩ := reaches_producersUp hinitial Finset.univ
  obtain ⟨u, hu, hR⟩ := reaches_consumersBound hup bound hnodup
  refine ⟨u, ht.trans hu, fun i => (hR.up i (Finset.mem_univ i)).1,
    fun j => (hR.bound j (hall j)).1, hR.queue, ?_, ?_⟩
  · exact Finset.sum_eq_zero fun i _ => (hR.up i (Finset.mem_univ i)).2
  · exact Finset.sum_eq_zero fun j _ => (hR.bound j (hall j)).2

theorem backlog_realised (topicMatch : String → String → Bool) (pc : Producer.Config)
    (cc : Consumer.Config) {queues : String → Option (Queue κ)} {q : Queue κ}
    (hq : queues cc.queue = some q) (hat : QueueAt (deploy topicMatch pc cc) [] q 0)
    (hne : bound ≠ []) (hnodup : bound.Nodup) (hall : ∀ j, j ∈ bound) (i : ι) (n : ℕ) :
    ∃ es s u, (machine ι κ (Consumer.startConsumer cc.queue).access bound).Run .initial es s ∧
      n < s.backlog ∧
      Reaches (deploy topicMatch pc cc) (.initial (deploy topicMatch pc cc) queues) u ∧
      Realises (deploy topicMatch pc cc) bound s u := by
  obtain ⟨t, ht, hR⟩ := reaches_initial (ι := ι) hq hat hnodup hall
  obtain ⟨es, s, hr, hlt⟩ := exists_backlog cc.queue hne i n
  obtain ⟨u, hu, hR'⟩ := run_realised hr hR
  exact ⟨es, s, u, hr, hlt, ht.trans hu, hR'⟩

/-- Every run of the clocked system is one of the processes themselves: without a
failure they bind in the order of `bound`, and then go along with the run so that
their loops, their callbacks, the queue and both totals agree with its state. -/
theorem clocked_realised (topicMatch : String → String → Bool) (pc : Producer.Config)
    (cc : Consumer.Config) {queues : String → Option (Queue κ)} {q : Queue κ}
    (hq : queues cc.queue = some q) (hat : QueueAt (deploy topicMatch pc cc) [] q 0)
    (hnodup : bound.Nodup) (hall : ∀ j, j ∈ bound) {es : List (Event ι κ)} {s : State ι κ}
    (h : (machine ι κ (Consumer.startConsumer cc.queue).access bound).Run .initial es s) :
    ∃ u, Reaches (deploy topicMatch pc cc) (.initial (deploy topicMatch pc cc) queues) u ∧
      Realises (deploy topicMatch pc cc) bound s u := by
  obtain ⟨t, ht, hR⟩ := reaches_initial (ι := ι) hq hat hnodup hall
  obtain ⟨u, hu, hR'⟩ := run_realised h hR
  exact ⟨u, ht.trans hu, hR'⟩

omit [Fintype ι] in
theorem legal_ticks {access : AccessType} {bound : List κ} {s : State ι κ} (hs : s.waiting = 0)
    (n : ℕ) : (machine ι κ access bound).Legal (List.replicate n .tick) s := by
  induction n generalizing s with
  | zero => trivial
  | succ n ih =>
    have hnext : (Event.apply s .tick).waiting = 0 := hs
    have hidle : Event.Enabled access bound s .tick :=
      fun j hready => absurd hs (Nat.ne_of_gt hready.2.2)
    exact ⟨hidle, ih hnext⟩

def oneCallback (i : ι) (j : κ) : List (Event ι κ) :=
  .publish i :: .handOver j :: List.replicate callbackPause .tick

theorem clocked_realised_handOver :
    let D := deploy (· == ·) (Producer.config fun _ => "") (Consumer.config fun _ => "")
    let queues : String → Option (Queue (Fin 2)) := fun _ =>
      some (.create { D.receiver with subscriptions := [D.producer.topic] })
    let s := (machine Unit (Fin 2) D.receiver.access (List.finRange 2)).final
      (oneCallback () 0) .initial
    s.completed = 1 ∧
      ∃ u, Reaches D (.initial D queues) u ∧ Realises D (List.finRange 2) s u := by
  intro D queues s
  have hat : QueueAt D [] (.create { D.receiver with subscriptions := [D.producer.topic] } :
      Queue (Fin 2)) 0 := ⟨rfl, rfl, rfl, by simp [Queue.create, D, deploy]⟩
  have hlegal : (machine Unit (Fin 2) D.receiver.access (List.finRange 2)).Legal
      (oneCallback () 0) .initial := ⟨rfl, ⟨rfl, rfl, by decide⟩, legal_ticks rfl _⟩
  exact ⟨by decide,
    clocked_realised (· == ·) _ _ rfl hat (List.nodup_finRange 2) List.mem_finRange hlegal.run⟩

end SolacePubSub.Scaling
