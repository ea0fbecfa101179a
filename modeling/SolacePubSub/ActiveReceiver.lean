import SolacePubSub.MessageMoves

/-!
# One active receiver

`startConsumer` binds every consumer to one exclusive queue. However many bind,
and in whatever order they fail over, the unacknowledged messages are all with
one receiver, the oldest that is bound, and a process that is no longer
receiving has none.
-/

namespace SolacePubSub

namespace Consumer

def Event.Ends : Event → Prop
  | .terminate | .disconnect | .mainReturns | .die => True
  | _ => False

theorem receiving_apply {b : ReceiverBuilder} {p : Process} {e : Event} (he : e.Enabled p) :
    (e.apply b p).Receiving ↔ e = .start true ∨ p.Receiving ∧ ¬ e.Ends := by
  cases e with
  | connect ok => cases ok <;> simp_all [Event.Enabled, Event.apply, Process.Receiving, Event.Ends]
  | build ok =>
    cases ok <;>
      simp_all [Event.Enabled, Event.apply, Process.startFails, Process.Receiving, Event.Ends]
  | start ok =>
    cases ok <;>
      simp_all [Event.Enabled, Event.apply, Process.startFails, Process.Receiving, Event.Ends]
  | launch =>
    have hended : p.main = .returned ∨ p.main = .fatal := by
      by_contra h
      exact he (not_or.mp h)
    rcases hended with h | h <;>
      simp [Event.apply, Process.fresh, Process.Receiving, Event.Ends, h]
  | _ =>
    simp_all [Event.Enabled, Event.apply, Process.stop, Process.Receiving, Event.Ends]

def Process.Starting (p : Process) : Prop :=
  p.main = .connect ∨ p.main = .build ∨ p.main = .start

def Process.inFlight (p : Process) : Multiset Message := p.uncounted + ↑p.counted + ↑p.acks

theorem inFlight_eq_zero {p : Process} :
    p.inFlight = 0 ↔ p.buffer = [] ∧ p.sleeping = [] ∧ p.counted = [] ∧ p.acks = [] := by
  simp [Process.inFlight, Process.uncounted]

theorem inFlight_starting {b : ReceiverBuilder} {p : Process} {e : Event} (he : e.Enabled p)
    (hp : p.Starting → p.inFlight = 0) (hs : (e.apply b p).Starting) :
    (e.apply b p).inFlight = 0 := by
  rw [inFlight_eq_zero] at hp ⊢
  cases e with
  | connect ok => exact hp (.inl he)
  | build ok => cases ok <;> exact hp (.inr (.inl he))
  | start ok => cases ok <;> exact hp (.inr (.inr he))
  | deliver m =>
    rcases he with h | h | h <;> simp [Event.apply, Process.Starting, h] at hs
  | callback m => exact absurd he.2.2 ((hp hs).1 ▸ List.not_mem_nil)
  | incConsumed m => exact absurd he.2 ((hp hs).2.1 ▸ List.not_mem_nil)
  | callbackReturns m => exact absurd he.2 ((hp hs).2.2.1 ▸ List.not_mem_nil)
  | ack m => exact absurd he.2 ((hp hs).2.2.2 ▸ List.not_mem_nil)
  | loseAck m => exact absurd he.2 ((hp hs).2.2.2 ▸ List.not_mem_nil)
  | reconnect keep =>
    rcases he with h | h | h <;> simp [Event.apply, Process.Starting, h] at hs
  | launch => exact ⟨rfl, rfl, rfl, rfl⟩
  | mainReturns => exact ⟨rfl, rfl, rfl, rfl⟩
  | die => exact ⟨rfl, rfl, rfl, rfl⟩
  | _ => simp [Event.apply, Process.Starting] at hs

def Event.IsReconnect : Event → Prop
  | .reconnect _ => True
  | _ => False

theorem sleeping_of_incremented {p : Process} {e : Event} {m : Message} (he : e.Enabled p)
    (h : m ∈ e.incremented) : m ∈ p.sleeping := by
  cases e with
  | incConsumed n =>
    rw [List.mem_singleton.mp h]
    exact he.2
  | _ => exact absurd h List.not_mem_nil

theorem inFlight_apply {b : ReceiverBuilder} {p : Process} {e : Event} (he : e.Enabled p) :
    (e.apply b p).inFlight + ↑e.acknowledged ≤ p.inFlight + ↑e.delivered := by
  simp only [Process.inFlight, Process.uncounted]
  cases e with
  | deliver m =>
    simp only [Event.apply, Event.acknowledged, Event.delivered, ← Multiset.coe_add]
    apply le_of_eq
    rw [Multiset.coe_nil]
    abel
  | callback m =>
    simp only [Event.apply, Event.acknowledged, Event.delivered, ← Multiset.coe_add,
      ← coe_erase_add he.2.2, Multiset.coe_singleton, Multiset.coe_nil]
    apply le_of_eq
    abel
  | incConsumed m =>
    simp only [Event.apply, Event.acknowledged, Event.delivered, ← Multiset.coe_add,
      ← coe_erase_add he.2, Multiset.coe_singleton, Multiset.coe_nil]
    apply le_of_eq
    abel
  | callbackReturns m =>
    have hack : (↑(b.ack.afterCallback m) : Multiset Message) ≤ {m} := by
      cases b.ack with
      | auto => exact le_rfl
      | client => exact Multiset.zero_le _
    simp only [Event.apply, Event.acknowledged, Event.delivered, ← Multiset.coe_add,
      ← coe_erase_add he.2, Multiset.coe_nil, add_zero]
    calc _ ≤ (↑p.buffer + ↑p.sleeping + ↑(p.counted.erase m) + (↑p.acks + {m}) :
          Multiset Message) := by gcongr
      _ = _ := by abel
  | ack m =>
    simp only [Event.apply, Event.acknowledged, Event.delivered, ← coe_erase_add he.2,
      Multiset.coe_singleton, Multiset.coe_nil]
    apply le_of_eq
    abel
  | loseAck m =>
    simp only [Event.apply, Event.acknowledged, Event.delivered, Multiset.coe_nil, add_zero]
    gcongr
    exact List.erase_sublist.subperm
  | reconnect keep =>
    simp only [Event.apply, Event.acknowledged, Event.delivered, Multiset.coe_nil, add_zero]
    gcongr
    cases keep
    · exact Multiset.zero_le _
    · exact le_rfl
  | terminate =>
    simp only [Event.apply, Event.acknowledged, Event.delivered, Multiset.coe_nil, add_zero]
    gcongr
    exact List.nil_subperm
  | build ok => cases ok <;> exact le_rfl
  | start ok => cases ok <;> exact le_rfl
  | mainReturns => exact Multiset.zero_le _
  | die => exact Multiset.zero_le _
  | launch => exact Multiset.zero_le _
  | _ => exact le_rfl

end Consumer

namespace Queue
variable {κ : Type*}

structure Exclusive (q : Queue κ) : Prop where
  access : q.access = .exclusive
  active : ∀ j, q.unacked j ≠ [] → q.bound.head? = some j

theorem exclusive_route {q : Queue κ} (hq : q.Exclusive) (topicMatch : String → String → Bool)
    (ms : List Message) : (q.route topicMatch ms).Exclusive :=
  ⟨hq.access, hq.active⟩

theorem exclusive_bind {q : Queue κ} (hq : q.Exclusive) (j : κ) : (q.bind j).Exclusive where
  access := hq.access
  active k hk := by
    have hhead := hq.active k hk
    rw [bind, List.head?_append, hhead]
    rfl

theorem delivered_of_not_head {b : Consumer.ReceiverBuilder} {q : Option (Queue κ)}
    (hq : ∀ r ∈ q, r.Exclusive) {j : κ} {e : Consumer.Event}
    (hj : q.bind (·.bound.head?) ≠ some j) (he : Allows b j q e) : e.delivered = [] := by
  cases e with
  | deliver m =>
    obtain ⟨r, hr, hpermits, _⟩ := he
    rw [(hq r hr).access] at hpermits
    rw [Option.mem_def.mp hr] at hj
    exact absurd hpermits hj
  | _ => rfl

variable [DecidableEq κ]

theorem exclusive_of_update {q r : Queue κ} (hq : q.Exclusive) {j : κ} {ms : List Message}
    (ha : r.access = q.access) (hr : r.unacked = Function.update q.unacked j ms)
    (hj : ms ≠ [] → r.bound.head? = some j)
    (hothers : ∀ k, k ≠ j → q.bound.head? = some k → r.bound.head? = some k) : r.Exclusive where
  access := ha.trans hq.access
  active k hk := by
    rw [hr] at hk
    by_cases hkj : k = j
    · subst k
      rw [Function.update_self] at hk
      exact hj hk
    · rw [Function.update_of_ne hkj] at hk
      exact hothers k hkj (hq.active k hk)

theorem exclusive_acknowledge {q : Queue κ} (hq : q.Exclusive) (j : κ) (m : Message) :
    (q.acknowledge j m).Exclusive := by
  refine exclusive_of_update hq rfl rfl ?_ (fun _ _ hk => hk)
  intro hne
  apply hq.active j
  intro hnil
  rw [hnil] at hne
  exact hne rfl

theorem exclusive_release {q : Queue κ} (hq : q.Exclusive) (j : κ) : (q.release j).Exclusive := by
  refine exclusive_of_update hq rfl rfl (fun hne => absurd rfl hne) ?_
  intro k hkj hk
  obtain ⟨rest, hrest⟩ := List.head?_eq_some_iff.mp hk
  simp [release, hrest, hkj]

theorem exclusive_follow {b : Consumer.ReceiverBuilder} {q : Queue κ} (hq : q.Exclusive) {j : κ}
    {e : Consumer.Event} (he : Allows b j (some q) e) : (q.follow j e).Exclusive := by
  cases e with
  | start ok =>
    cases ok with
    | true => exact exclusive_bind hq j
    | false => exact hq
  | deliver m =>
    obtain ⟨r, hr, hpermits, _⟩ := he
    cases hr
    rw [hq.access] at hpermits
    exact exclusive_of_update hq rfl rfl (fun _ => hpermits) (fun _ _ hk => hk)
  | ack m => exact exclusive_acknowledge hq j m
  | reconnect keep => exact exclusive_bind (exclusive_release hq j) j
  | terminate => exact exclusive_release hq j
  | disconnect => exact exclusive_release hq j
  | mainReturns => exact exclusive_release hq j
  | die => exact exclusive_release hq j
  | _ => exact hq

theorem head_follow {q : Queue κ} {j k : κ} {e : Consumer.Event} (hj : q.bound.head? = some j)
    (he : k = j → ¬ (e.Ends ∨ e.IsReconnect)) : (q.follow k e).bound.head? = some j := by
  obtain ⟨rest, hrest⟩ := List.head?_eq_some_iff.mp hj
  have hrelease : k ≠ j → (q.bound.filter (· ≠ k)).head? = some j := by
    intro hk
    simp [hrest, Ne.symm hk]
  cases e with
  | start ok => cases ok <;> simp [follow, bind, hrest]
  | reconnect keep =>
    have hk := hrelease fun hk => he hk (.inr trivial)
    change (q.bound.filter (· ≠ k) ++ [k]).head? = some j
    rw [List.head?_append, hk]
    rfl
  | terminate => exact hrelease fun hk => he hk (.inl trivial)
  | disconnect => exact hrelease fun hk => he hk (.inl trivial)
  | mainReturns => exact hrelease fun hk => he hk (.inl trivial)
  | die => exact hrelease fun hk => he hk (.inl trivial)
  | _ => exact hj

theorem mem_bound_follow_of_ne {q : Queue κ} {j k : κ} (hk : k ≠ j) (e : Consumer.Event) :
    k ∈ (q.follow j e).bound ↔ k ∈ q.bound := by
  cases e with
  | start ok => cases ok <;> simp [follow, bind, hk]
  | _ => simp [follow, bind, deliver, acknowledge, release, hk]

theorem mem_bound_follow {b : Consumer.ReceiverBuilder} {q : Queue κ} {j : κ}
    {p : Consumer.Process} {e : Consumer.Event} (he : e.Enabled p)
    (hp : p.Receiving ↔ j ∈ q.bound) :
    j ∈ (q.follow j e).bound ↔ (e.apply b p).Receiving := by
  rw [Consumer.receiving_apply he, hp]
  cases e with
  | start ok => cases ok <;> simp [follow, bind, Consumer.Event.Ends]
  | reconnect keep =>
    have hj : j ∈ q.bound := hp.mp he
    simp [follow, bind, Consumer.Event.Ends, hj]
  | _ => simp [follow, deliver, acknowledge, release, Consumer.Event.Ends]

theorem unacked_follow_of_ne (q : Queue κ) {j k : κ} (hk : k ≠ j) (e : Consumer.Event) :
    (q.follow j e).unacked k = q.unacked k := by
  cases e with
  | start ok => cases ok <;> rfl
  | _ => simp [follow, bind, deliver, acknowledge, release, hk]

theorem unacked_follow (q : Queue κ) (j : κ) {e : Consumer.Event} (hends : ¬ e.Ends)
    (hr : ¬ e.IsReconnect) :
    ((q.follow j e).unacked j : Multiset Message) =
      ↑(q.unacked j) + ↑e.delivered - ↑e.acknowledged := by
  cases e with
  | start ok =>
    cases ok <;> simp [follow, bind, Consumer.Event.delivered, Consumer.Event.acknowledged]
  | reconnect keep => exact absurd trivial hr
  | terminate => exact absurd trivial hends
  | disconnect => exact absurd trivial hends
  | mainReturns => exact absurd trivial hends
  | die => exact absurd trivial hends
  | deliver m =>
    simp [follow, deliver, Consumer.Event.delivered, Consumer.Event.acknowledged,
      ← Multiset.coe_add]
  | ack m =>
    simp [follow, acknowledge, Consumer.Event.delivered, Consumer.Event.acknowledged,
      Multiset.sub_singleton]
  | _ => simp [follow, Consumer.Event.delivered, Consumer.Event.acknowledged]

theorem followOrCreate_none (b : Consumer.ReceiverBuilder) (j : κ) {e : Consumer.Event}
    (he : e ≠ .start true) : followOrCreate b j e none = none := by
  cases e with
  | start ok =>
    cases ok with
    | true => exact absurd rfl he
    | false => rfl
  | _ => rfl

structure Unused (q : Queue κ) : Prop where
  access : q.access = .exclusive
  bound : q.bound = []
  unacked : ∀ j, q.unacked j = []

omit [DecidableEq κ] in
theorem unused_create {b : Consumer.ReceiverBuilder} (hb : b.access = .exclusive) :
    (create b : Queue κ).Unused := ⟨hb, rfl, fun _ => rfl⟩

end Queue

variable {ι κ : Type*}

def State.active (D : Deployment) (s : State ι κ) : Option κ := (s.queue D).bind (·.bound.head?)

structure State.Attended (D : Deployment) (s : State ι κ) : Prop where
  exclusive : ∀ q ∈ s.queue D, q.Exclusive
  receiving : ∀ j, (s.consumers j).Receiving ↔ ∃ q ∈ s.queue D, j ∈ q.bound

structure State.Tracked (D : Deployment) (s : State ι κ) : Prop where
  starting : ∀ j, (s.consumers j).Starting → (s.consumers j).inFlight = 0
  receiving : ∀ j, (s.consumers j).Receiving → ∀ q ∈ s.queue D,
    (s.consumers j).inFlight ≤ ↑(q.unacked j)

def Event.IsReconnect : Event ι κ → Prop
  | .producer _ _ => False
  | .consumer _ e => e.IsReconnect

theorem attended_initial {D : Deployment} {queues : String → Option (Queue κ)}
    (hq : ∀ q ∈ queues D.receiver.queue, q.Unused) :
    (State.initial (ι := ι) D queues).Attended D where
  exclusive q hqueue := by
    have hunused := hq q hqueue
    exact ⟨hunused.access, fun j hj => absurd (hunused.unacked j) hj⟩
  receiving j := by
    constructor
    · intro h
      simp [Consumer.Process.fresh, Consumer.Process.Receiving] at h
    · intro h
      obtain ⟨q, hqueue, hj⟩ := h
      rw [(hq q hqueue).bound] at hj
      exact absurd hj List.not_mem_nil

theorem tracked_initial (D : Deployment) (queues : String → Option (Queue κ)) :
    (State.initial (ι := ι) D queues).Tracked D where
  starting _ _ := rfl
  receiving _ _ _ _ := Multiset.zero_le _

theorem receiving_of_active {D : Deployment} {s : State ι κ} {j : κ} (hs : s.Attended D)
    (hj : s.active D = some j) : (s.consumers j).Receiving := by
  obtain ⟨q, hq, hhead⟩ := Option.bind_eq_some_iff.mp hj
  exact (hs.receiving j).mpr ⟨q, hq, List.mem_of_mem_head? hhead⟩

variable [DecidableEq ι] [DecidableEq κ] {D : Deployment}

theorem active_producer (i : ι) (e : Producer.Event) (s : State ι κ) :
    ((Event.producer i e).apply D s).active D = s.active D := by
  rw [State.active, State.active, queue_producer]
  cases s.queue D <;> rfl

theorem active_consumer {s : State ι κ} {j k : κ} {e : Consumer.Event}
    (hk : s.active D = some k) (he : j = k → ¬ (e.Ends ∨ e.IsReconnect)) :
    ((Event.consumer (ι := ι) j e).apply D s).active D = some k := by
  obtain ⟨q, hq, hhead⟩ := Option.bind_eq_some_iff.mp hk
  rw [State.active, queue_consumer, hq, Queue.followOrCreate_some]
  exact Queue.head_follow hhead he

theorem attended_step (hD : D.receiver.access = .exclusive) (e : Event ι κ) (s : State ι κ)
    (he : e.Enabled D s) (hs : s.Attended D) : (e.apply D s).Attended D := by
  cases e with
  | producer i e =>
    refine ⟨?_, ?_⟩
    · rw [queue_producer]
      intro r hr
      obtain ⟨q, hq, rfl⟩ := Option.map_eq_some_iff.mp hr
      exact Queue.exclusive_route (hs.exclusive q hq) D.topicMatch e.accepted
    · intro j
      rw [consumers_producer, queue_producer, hs.receiving j]
      simp [Queue.route]
  | consumer j e =>
    obtain ⟨hlocal, hallows⟩ := he
    have hj := hs.receiving j
    cases hq : s.queue D with
    | some q =>
      rw [hq] at hallows
      have hmem : ∀ k, (s.consumers k).Receiving ↔ k ∈ q.bound := by
        intro k
        simpa [hq] using hs.receiving k
      refine ⟨?_, ?_⟩
      · rw [queue_consumer, hq, Queue.followOrCreate_some]
        intro r hr
        rw [← Option.some.inj hr]
        exact Queue.exclusive_follow (hs.exclusive q hq) hallows
      · intro k
        rw [queue_consumer, hq, Queue.followOrCreate_some, consumers_consumer]
        by_cases hk : k = j
        · subst k
          simpa using (Queue.mem_bound_follow hlocal (hmem j)).symm
        · simpa [hk, Queue.mem_bound_follow_of_ne hk] using hmem k
    | none =>
      have hnone : ∀ k, ¬ (s.consumers k).Receiving := by
        intro k
        simpa [hq] using hs.receiving k
      have hsame : ∀ k, k ≠ j →
          ¬ (Function.update s.consumers j (e.apply D.receiver (s.consumers j)) k).Receiving := by
        intro k hk
        rw [Function.update_of_ne hk]
        exact hnone k
      by_cases hstart : e = .start true
      · subst hstart
        refine ⟨?_, ?_⟩
        · rw [queue_consumer, hq]
          intro r hr
          rw [← Option.some.inj hr]
          exact ⟨hD, fun k hk => absurd rfl hk⟩
        · intro k
          rw [queue_consumer, hq, consumers_consumer]
          by_cases hk : k = j
          · subst k
            simp [Queue.followOrCreate, Queue.bind, Consumer.Event.apply,
              Consumer.Process.Receiving]
          · simpa [Queue.followOrCreate, Queue.bind, Queue.create, hk] using hsame k hk
      · have hqueue := Queue.followOrCreate_none D.receiver j hstart
        refine ⟨?_, ?_⟩
        · rw [queue_consumer, hq, hqueue]
          exact fun r hr => absurd hr (Option.not_mem_none r)
        · intro k
          rw [queue_consumer, hq, hqueue, consumers_consumer]
          by_cases hk : k = j
          · subst k
            have happly := Consumer.receiving_apply (b := D.receiver) hlocal
            simpa [hstart, hnone j] using happly
          · simpa using hsame k hk

theorem tracked_step (e : Event ι κ) (s : State ι κ) (hsteady : ¬ e.IsReconnect)
    (he : e.Enabled D s) (ha : s.Attended D) (hs : s.Tracked D) : (e.apply D s).Tracked D := by
  cases e with
  | producer i e =>
    refine ⟨hs.starting, ?_⟩
    rw [queue_producer]
    intro j hj r hr
    obtain ⟨q, hq, rfl⟩ := Option.map_eq_some_iff.mp hr
    exact hs.receiving j hj q hq
  | consumer j e =>
    obtain ⟨hlocal, _⟩ := he
    refine ⟨?_, ?_⟩
    · intro k
      rw [consumers_consumer]
      by_cases hk : k = j
      · subst k
        rw [Function.update_self]
        exact Consumer.inFlight_starting hlocal (hs.starting j)
      · rw [Function.update_of_ne hk]
        exact hs.starting k
    · intro k hk r hr
      rw [queue_consumer] at hr
      rw [consumers_consumer] at hk ⊢
      by_cases hkj : k = j
      · subst k
        rw [Function.update_self] at hk ⊢
        have happly := Consumer.inFlight_apply (b := D.receiver) hlocal
        rcases (Consumer.receiving_apply hlocal).mp hk with rfl | ⟨hrecv, hends⟩
        · have hzero := hs.starting j (.inr (.inr hlocal))
          exact (show (s.consumers j).inFlight = 0 from hzero) ▸ Multiset.zero_le _
        · obtain ⟨q, hq, _⟩ := (ha.receiving j).mp hrecv
          rw [Option.mem_def.mp hq, Queue.followOrCreate_some] at hr
          rw [← Option.some.inj hr, Queue.unacked_follow q j hends hsteady]
          apply le_tsub_of_add_le_right
          exact happly.trans (add_le_add_left (hs.receiving j hrecv q hq) _)
      · rw [Function.update_of_ne hkj] at hk ⊢
        obtain ⟨q, hq, _⟩ := (ha.receiving k).mp hk
        rw [Option.mem_def.mp hq, Queue.followOrCreate_some] at hr
        rw [← Option.some.inj hr, Queue.unacked_follow_of_ne q hkj]
        exact hs.receiving k hk q hq

theorem run_attended (hD : D.receiver.access = .exclusive) {queues : String → Option (Queue κ)}
    (hq : ∀ q ∈ queues D.receiver.queue, q.Unused) {es : List (Event ι κ)} {s : State ι κ}
    (h : (machine ι κ D).Run (.initial D queues) es s) : s.Attended D :=
  h.invariant (attended_step hD) (attended_initial hq)

theorem run_tracked (hD : D.receiver.access = .exclusive) {queues : String → Option (Queue κ)}
    (hq : ∀ q ∈ queues D.receiver.queue, q.Unused) {es : List (Event ι κ)} {s : State ι κ}
    (h : (machine ι κ D).Run (.initial D queues) es s) (hr : ∀ e ∈ es, ¬ e.IsReconnect) :
    s.Tracked D := by
  have hboth : s.Attended D ∧ s.Tracked D := by
    refine h.invariant_on (P := fun e => ¬ e.IsReconnect)
      (I := fun t => t.Attended D ∧ t.Tracked D) ?_ hr
      ⟨attended_initial hq, tracked_initial D queues⟩
    intro e t hsteady he ht
    exact ⟨attended_step hD e t he ht.1, tracked_step e t hsteady he ht.1 ht.2⟩
  exact hboth.2

/-- However many consumers start, fail over, restart and reconnect, whoever has
unacknowledged messages is the oldest bound receiver and is still receiving, so
that no two consumers have some. Unless a receiver reconnected, not even
buffers, callbacks and acks of two receiving consumers are in use at once. -/
theorem single_active (topicMatch : String → String → Bool) (pc : Producer.Config)
    (cc : Consumer.Config) {queues : String → Option (Queue κ)}
    (hq : ∀ q ∈ queues cc.queue, q.Unused) {es : List (Event ι κ)} {s : State ι κ}
    (h : (machine ι κ (deploy topicMatch pc cc)).Run
      (.initial (deploy topicMatch pc cc) queues) es s) :
    (∀ q ∈ s.queue (deploy topicMatch pc cc), ∀ j, q.unacked j ≠ [] →
        q.bound.head? = some j ∧ (s.consumers j).Receiving ∧ ∀ k, q.unacked k ≠ [] → k = j) ∧
      ((∀ e ∈ es, ¬ e.IsReconnect) → ∀ j k, (s.consumers j).Receiving →
        (s.consumers k).Receiving → (s.consumers j).inFlight ≠ 0 →
          (s.consumers k).inFlight ≠ 0 → j = k) := by
  have hs := run_attended rfl hq h
  have hhead : ∀ q ∈ s.queue (deploy topicMatch pc cc), ∀ j k, q.unacked j ≠ [] →
      q.unacked k ≠ [] → k = j := by
    intro q hqueue j k hj hk
    have hactive := (hs.exclusive q hqueue).active
    exact Option.some.inj ((hactive k hk).symm.trans (hactive j hj))
  refine ⟨?_, ?_⟩
  · intro q hqueue j hj
    have hactive := (hs.exclusive q hqueue).active j hj
    refine ⟨hactive, (hs.receiving j).mpr ⟨q, hqueue, List.mem_of_mem_head? hactive⟩, ?_⟩
    exact fun k hk => hhead q hqueue j k hj hk
  · intro hr j k hj hk hflight hflight'
    have ht := run_tracked rfl hq h hr
    obtain ⟨q, hqueue, _⟩ := (hs.receiving j).mp hj
    have hunacked : ∀ l, (s.consumers l).Receiving → (s.consumers l).inFlight ≠ 0 →
        q.unacked l ≠ [] := by
      intro l hl hne hnil
      have hle := ht.receiving l hl q hqueue
      rw [hnil, Multiset.coe_nil] at hle
      exact hne (Multiset.le_zero.mp hle)
    exact hhead q hqueue k j (hunacked k hk hflight') (hunacked j hj hflight)

/-- The active consumer `j` dies in a callback and `k` takes over. -/
def failover (j k : κ) : List (Event Unit κ) :=
  let m := Producer.message (Producer.config fun _ => "") 0 Producer.leastPrice
  consumerStart j ++ consumerStart k ++ producerStart () ++
    [.producer () (.publish 0 Producer.leastPrice), .producer () (.accept m),
      .consumer j (.deliver m), .consumer j (.callback m), .consumer j .die,
      .consumer k (.deliver m), .consumer k (.callback m)]

theorem single_active_failover :
    let D := deploy (· == ·) (Producer.config fun _ => "") (Consumer.config fun _ => "")
    let queues : String → Option (Queue (Fin 2)) := fun _ =>
      some (.create { D.receiver with subscriptions := [D.producer.topic] })
    let s := (machine Unit (Fin 2) D).final (failover 0 1) (.initial D queues)
    (∀ q ∈ s.queue D, ∀ j, q.unacked j ≠ [] →
        q.bound.head? = some j ∧ (s.consumers j).Receiving ∧ ∀ k, q.unacked k ≠ [] → k = j) ∧
      ((∀ e ∈ failover (0 : Fin 2) 1, ¬ e.IsReconnect) → ∀ j k, (s.consumers j).Receiving →
        (s.consumers k).Receiving → (s.consumers j).inFlight ≠ 0 →
          (s.consumers k).inFlight ≠ 0 → j = k) := by
  intro D queues s
  have hunused : ∀ q ∈ queues D.receiver.queue, q.Unused :=
    fun q hq => Option.some.inj hq ▸ Queue.unused_create rfl
  exact single_active (· == ·) _ _ hunused (Machine.Legal.run (by decide))

end SolacePubSub
