import SolacePubSub.AtLeastOnce

/-!
# The route from TOPIC to QUEUE

`startConsumer` names a queue and asks for no subscription, the producer names a
topic, and nothing else connects the two. When the consumers find no queue they
create one that attracts no topic, so that the broker discards every message it
accepts, whichever side starts first and however often either restarts.
-/

namespace SolacePubSub

namespace Consumer

def Process.Idle (p : Process) : Prop :=
  p.buffer = [] ∧ p.sleeping = [] ∧ p.counted = [] ∧ p.acks = []

theorem idle_apply {b : ReceiverBuilder} {p : Process} {e : Event} (hp : p.Idle)
    (he : e.Enabled p) (hd : e.delivered = []) : (e.apply b p).Idle := by
  obtain ⟨hbuffer, hsleeping, hcounted, hacks⟩ := hp
  cases e with
  | build ok => cases ok <;> exact ⟨hbuffer, hsleeping, hcounted, hacks⟩
  | start ok => cases ok <;> exact ⟨hbuffer, hsleeping, hcounted, hacks⟩
  | deliver m => exact absurd hd (List.cons_ne_nil _ _)
  | callback m => exact absurd he.2.2 (hbuffer ▸ List.not_mem_nil)
  | incConsumed m => exact absurd he.2 (hsleeping ▸ List.not_mem_nil)
  | callbackReturns m => exact absurd he.2 (hcounted ▸ List.not_mem_nil)
  | ack m => exact absurd he.2 (hacks ▸ List.not_mem_nil)
  | loseAck m => exact absurd he.2 (hacks ▸ List.not_mem_nil)
  | reconnect keep =>
    refine ⟨?_, hsleeping, hcounted, hacks⟩
    cases keep
    · rfl
    · exact hbuffer
  | terminate => exact ⟨rfl, hsleeping, hcounted, hacks⟩
  | mainReturns => exact ⟨rfl, rfl, rfl, rfl⟩
  | die => exact ⟨rfl, rfl, rfl, rfl⟩
  | launch => exact ⟨rfl, rfl, rfl, rfl⟩
  | _ => exact ⟨hbuffer, hsleeping, hcounted, hacks⟩

end Consumer

namespace Queue
variable {κ : Type*}

structure Dry (q : Queue κ) : Prop where
  subscriptions : q.subscriptions = []
  messages : q.messages = []
  unacked : ∀ j, q.unacked j = []

theorem Dry.not_holds {q : Queue κ} (hq : q.Dry) (m : Message) : ¬ q.Holds m := by
  intro h
  rcases h with h | ⟨j, h⟩
  · simp [hq.messages] at h
  · simp [hq.unacked j] at h

theorem dry_route {q : Queue κ} (hq : q.Dry) (topicMatch : String → String → Bool)
    (ms : List Message) : (q.route topicMatch ms).Dry where
  subscriptions := hq.subscriptions
  messages := by simp [route, attracts, hq.messages, hq.subscriptions]
  unacked := hq.unacked

variable [DecidableEq κ]

theorem dry_update {q r : Queue κ} (hq : q.Dry) (j : κ) (hs : r.subscriptions = q.subscriptions)
    (hm : r.messages = []) (hu : r.unacked = Function.update q.unacked j []) : r.Dry where
  subscriptions := hs.trans hq.subscriptions
  messages := hm
  unacked k := by
    rw [hu]
    by_cases hk : k = j
    · subst k
      exact Function.update_self _ _ _
    · rw [Function.update_of_ne hk]
      exact hq.unacked k

theorem dry_release {q : Queue κ} (hq : q.Dry) (j : κ) : (q.release j).Dry :=
  dry_update hq j rfl (by simp [release, hq.messages, hq.unacked j]) rfl

theorem dry_follow {q : Queue κ} (hq : q.Dry) (j : κ) {e : Consumer.Event}
    (hd : e.delivered = []) : (q.follow j e).Dry := by
  cases e with
  | deliver m => exact absurd hd (List.cons_ne_nil _ _)
  | ack m => exact dry_update hq j rfl hq.messages (by simp [follow, acknowledge, hq.unacked j])
  | reconnect keep =>
    have hr := dry_release hq j
    exact ⟨hr.subscriptions, hr.messages, hr.unacked⟩
  | terminate => exact dry_release hq j
  | disconnect => exact dry_release hq j
  | mainReturns => exact dry_release hq j
  | die => exact dry_release hq j
  | start ok => cases ok <;> exact ⟨hq.subscriptions, hq.messages, hq.unacked⟩
  | _ => exact hq

theorem dry_followOrCreate {b : Consumer.ReceiverBuilder} (hb : b.subscriptions = []) (j : κ)
    {e : Consumer.Event} (hd : e.delivered = []) {q : Option (Queue κ)} (hq : ∀ r ∈ q, r.Dry) :
    ∀ r ∈ followOrCreate b j e q, r.Dry := by
  cases q with
  | some q =>
    rw [followOrCreate_some]
    intro r hr
    rw [← Option.some.inj hr]
    exact dry_follow (hq q rfl) j hd
  | none =>
    intro r hr
    rw [eq_of_followOrCreate_none hr]
    exact ⟨hb, rfl, fun _ => rfl⟩

end Queue

variable {ι κ : Type*}

def State.Kept (D : Deployment) (s : State ι κ) (m : Message) : Prop :=
  s.Held D m ∨ m ∈ s.acked

def Routed (D : Deployment) (es : List (Event ι κ)) (s : State ι κ) : Prop :=
  ∀ before after i m j ok, es = before ++ .producer i (.accept m) :: after →
    .consumer j (.receiveAsync ok) ∈ before → s.Kept D m

def AcceptsAfterStart (es : List (Event ι κ)) : Prop :=
  ∃ before after i m j ok, es = before ++ .producer i (.accept m) :: after ∧
    .consumer j (.receiveAsync ok) ∈ before

structure State.Dry (D : Deployment) (s : State ι κ) : Prop where
  queue : ∀ q ∈ s.queue D, q.Dry
  consumers : ∀ j, (s.consumers j).Idle
  acked : s.acked = []

theorem State.Dry.not_kept {D : Deployment} {s : State ι κ} (hs : s.Dry D) (m : Message) :
    ¬ s.Kept D m := by
  intro h
  rcases h with ⟨q, hq, hm⟩ | hm
  · exact (hs.queue q hq).not_holds m hm
  · simp [hs.acked] at hm

theorem dry_initial (D : Deployment) :
    (State.initial (ι := ι) (κ := κ) D fun _ => none).Dry D where
  queue _ hq := by simp [State.queue, State.initial] at hq
  consumers _ := ⟨rfl, rfl, rfl, rfl⟩
  acked := rfl

theorem acknowledged_of_idle {p : Consumer.Process} (hp : p.Idle) {e : Consumer.Event}
    (he : e.Enabled p) : e.acknowledged = [] := by
  rw [List.eq_nil_iff_forall_not_mem]
  intro m hm
  have hack := Consumer.acks_of_acknowledged he hm
  rw [hp.2.2.2] at hack
  exact absurd hack List.not_mem_nil

theorem delivered_of_dry {D : Deployment} {s : State ι κ} (hs : s.Dry D) {j : κ}
    {e : Consumer.Event} (he : Queue.Allows D.receiver j (s.queue D) e) :
    e.delivered = [] := by
  cases e with
  | deliver m =>
    obtain ⟨q, hq, _, hm⟩ := he
    rw [(hs.queue q hq).messages] at hm
    exact absurd hm List.not_mem_nil
  | _ => rfl

structure State.Attracting (D : Deployment) (s : State ι κ) : Prop where
  created : ∀ j, (s.consumers j).main = .register → (s.queue D).isSome
  subscriptions : ∀ q ∈ s.queue D, q.subscriptions = D.receiver.subscriptions
  topics : s.OnTopic D

theorem attracting_initial (D : Deployment) :
    (State.initial (ι := ι) (κ := κ) D fun _ => none).Attracting D where
  created _ h := by simp [Consumer.Process.fresh] at h
  subscriptions _ hq := by simp at hq
  topics _ _ hm := absurd hm List.not_mem_nil

/-- The producer publishes to a broker whose only queue a consumer has created. -/
def publishAfterStart (i : ι) (j : κ) (m : Message) : List (Event ι κ) :=
  consumerStart j ++ producerStart i ++
    [.producer i (.publish 0 Producer.leastPrice), .producer i (.accept m)]

theorem publishAfterStart_accepts (i : ι) (j : κ) (m : Message) :
    AcceptsAfterStart (publishAfterStart i j m) :=
  ⟨consumerStart j ++ producerStart i ++ [.producer i (.publish 0 Producer.leastPrice)], [], i, m,
    j, true, by simp [publishAfterStart], by simp [consumerStart]⟩

variable [DecidableEq ι] [DecidableEq κ]

theorem dry_step {D : Deployment} (hD : D.receiver.subscriptions = []) (e : Event ι κ)
    (s : State ι κ) (he : e.Enabled D s) (hs : s.Dry D) : (e.apply D s).Dry D := by
  cases e with
  | producer i e =>
    refine ⟨?_, hs.consumers, hs.acked⟩
    rw [queue_producer]
    intro r hr
    obtain ⟨q, hq, rfl⟩ := Option.map_eq_some_iff.mp hr
    exact Queue.dry_route (hs.queue q hq) D.topicMatch e.accepted
  | consumer j e =>
    obtain ⟨hlocal, hbroker⟩ := he
    have hd := delivered_of_dry hs hbroker
    refine ⟨?_, ?_, ?_⟩
    · rw [queue_consumer]
      exact Queue.dry_followOrCreate hD j hd hs.queue
    · rw [consumers_consumer]
      rw [Function.forall_update_iff s.consumers (p := fun _ p => p.Idle)]
      constructor
      · exact Consumer.idle_apply (hs.consumers j) hlocal hd
      · exact fun k _ => hs.consumers k
    · simp [Event.apply, hs.acked, acknowledged_of_idle (hs.consumers j) hlocal]

theorem run_dry {D : Deployment} (hD : D.receiver.subscriptions = []) {es : List (Event ι κ)}
    {s : State ι κ} (h : (machine ι κ D).Run (.initial D fun _ => none) es s) : s.Dry D :=
  h.invariant (dry_step hD) (dry_initial D)

theorem publishAfterStart_legal (topicMatch : String → String → Bool) (pc : Producer.Config)
    (cc : Consumer.Config) (i : ι) (j : κ) :
    (machine ι κ (deploy topicMatch pc cc)).Legal
      (publishAfterStart i j (Producer.message pc 0 Producer.leastPrice))
      (.initial (deploy topicMatch pc cc) fun _ => none) := by
  simp [publishAfterStart, consumerStart, producerStart, Machine.Legal, Event.Enabled,
    consumers_consumer, producers_producer, Consumer.Event.Enabled, Producer.Event.Enabled,
    Consumer.Event.apply, Producer.Event.apply, State.initial, Consumer.Process.fresh,
    Producer.Process.fresh, Queue.Allows, Producer.Event.Numbered, deploy, Consumer.startConsumer,
    Producer.Process.Alive, Producer.Process.Connected, Producer.Event.handedOver]

/-- Whatever TOPIC and QUEUE are, a run that starts without a queue routes the
producer's messages exactly if the broker accepts none of them after a
`startConsumer` has returned; and it does accept some in some run. -/
theorem routed_iff_none_accepted [Nonempty ι] [Nonempty κ] (topicMatch : String → String → Bool)
    (pc : Producer.Config) (cc : Consumer.Config) :
    (∀ (es : List (Event ι κ)) (s : State ι κ),
      (machine ι κ (deploy topicMatch pc cc)).Run
          (.initial (deploy topicMatch pc cc) fun _ => none) es s →
        (Routed (deploy topicMatch pc cc) es s ↔ ¬ AcceptsAfterStart es)) ∧
      ∃ (es : List (Event ι κ)) (s : State ι κ),
        (machine ι κ (deploy topicMatch pc cc)).Run
          (.initial (deploy topicMatch pc cc) fun _ => none) es s ∧
        ¬ Routed (deploy topicMatch pc cc) es s := by
  have hiff : ∀ (es : List (Event ι κ)) (s : State ι κ),
      (machine ι κ (deploy topicMatch pc cc)).Run
          (.initial (deploy topicMatch pc cc) fun _ => none) es s →
        (Routed (deploy topicMatch pc cc) es s ↔ ¬ AcceptsAfterStart es) := by
    intro es s h
    have hdry := run_dry rfl h
    constructor
    · intro hrouted haccepts
      obtain ⟨before, after, k, m, l, ok, hes, hstart⟩ := haccepts
      exact hdry.not_kept m (hrouted before after k m l ok hes hstart)
    · intro hnone before after k m l ok hes hstart
      exact absurd ⟨before, after, k, m, l, ok, hes, hstart⟩ hnone
  obtain ⟨i⟩ := ‹Nonempty ι›
  obtain ⟨j⟩ := ‹Nonempty κ›
  refine ⟨hiff, publishAfterStart i j (Producer.message pc 0 Producer.leastPrice), _,
    (publishAfterStart_legal topicMatch pc cc i j).run, ?_⟩
  rw [hiff _ _ (publishAfterStart_legal topicMatch pc cc i j).run, not_not]
  exact publishAfterStart_accepts i j _

theorem routed_iff_none_accepted_defaults :
    let D := deploy (· == ·) (Producer.config fun _ => "") (Consumer.config fun _ => "")
    (∀ (es : List (Event Unit Unit)) (s : State Unit Unit),
      (machine Unit Unit D).Run (.initial D fun _ => none) es s →
        (Routed D es s ↔ ¬ AcceptsAfterStart es)) ∧
      ∃ (es : List (Event Unit Unit)) (s : State Unit Unit),
        (machine Unit Unit D).Run (.initial D fun _ => none) es s ∧ ¬ Routed D es s :=
  routed_iff_none_accepted (· == ·) (Producer.config fun _ => "") (Consumer.config fun _ => "")

theorem not_always_routed :
    ¬ ∀ (topicMatch : String → String → Bool) (pc : Producer.Config) (cc : Consumer.Config),
      pc.topic ≠ "" → cc.queue ≠ "" → ∀ (es : List (Event Unit Unit)) (s : State Unit Unit),
        (machine Unit Unit (deploy topicMatch pc cc)).Run
            (.initial (deploy topicMatch pc cc) fun _ => none) es s →
          Routed (deploy topicMatch pc cc) es s := by
  intro h
  let pc := Producer.config fun _ => ""
  let cc := Consumer.config fun _ => ""
  have hr := (publishAfterStart_legal (· == ·) pc cc () ()).run
  have hrouted := h (· == ·) pc cc (Producer.config_topic_ne_empty _)
    (Consumer.config_queue_ne_empty _) _ _ hr
  obtain ⟨before, after, k, m, l, ok, hes, hstart⟩ :=
    publishAfterStart_accepts () () (Producer.message pc 0 Producer.leastPrice)
  exact (run_dry rfl hr).not_kept m (hrouted before after k m l ok hes hstart)

section Subscribed
variable {D : Deployment}

theorem Consumer.started_of_register {b : ReceiverBuilder} {p : Process} {e : Event}
    (h : (e.apply b p).main = .register) : p.main = .register ∨ e = .start true := by
  cases e with
  | start ok => cases ok <;> simp [Event.apply, Process.startFails] at h ⊢
  | build ok => cases ok <;> simp [Event.apply, Process.startFails] at h
  | connect ok => cases ok <;> simp [Event.apply] at h
  | receiveAsync ok => simp [Event.apply] at h
  | sigterm => simp [Event.apply] at h
  | terminate => simp [Event.apply] at h
  | disconnect => simp [Event.apply] at h
  | mainReturns => simp [Event.apply, Process.stop] at h
  | die => simp [Event.apply, Process.stop] at h
  | launch => simp [Event.apply, Process.fresh] at h
  | _ => exact Or.inl h

theorem isSome_queue_step (e : Event ι κ) {s : State ι κ} (h : (s.queue D).isSome) :
    ((e.apply D s).queue D).isSome := by
  obtain ⟨q, hq⟩ := Option.isSome_iff_exists.mp h
  cases e with
  | producer i e => simp [hq]
  | consumer j e => simp [hq]

theorem attracting_step (e : Event ι κ) (s : State ι κ) (_ : e.Enabled D s)
    (hs : s.Attracting D) : (e.apply D s).Attracting D := by
  have htopics := onTopic_step e s hs.topics
  cases e with
  | producer i e =>
    refine ⟨fun j hj => isSome_queue_step _ (hs.created j hj), ?_, htopics⟩
    rw [queue_producer]
    intro r hr
    obtain ⟨q, hq, rfl⟩ := Option.map_eq_some_iff.mp hr
    exact hs.subscriptions q hq
  | consumer j e =>
    refine ⟨?_, ?_, htopics⟩
    · intro k hk
      rw [consumers_consumer] at hk
      by_cases hkj : k = j
      · subst k
        rw [Function.update_self] at hk
        rcases Consumer.started_of_register hk with h | rfl
        · exact isSome_queue_step _ (hs.created j h)
        · cases hq : s.queue D <;> simp [hq, Queue.followOrCreate]
      · rw [Function.update_of_ne hkj] at hk
        exact isSome_queue_step _ (hs.created k hk)
    · rw [queue_consumer]
      cases hq : s.queue D with
      | some q =>
        rw [Queue.followOrCreate_some]
        intro r hr
        rw [← Option.some.inj hr, Queue.subscriptions_follow]
        exact hs.subscriptions q hq
      | none =>
        intro r hr
        rw [Queue.eq_of_followOrCreate_none hr]
        rfl

theorem kept_step (e : Event ι κ) (s : State ι κ) {m : Message} (h : s.Kept D m) :
    (e.apply D s).Kept D m := by
  cases e with
  | producer i e =>
    apply h.imp_left
    intro hheld
    obtain ⟨q, hq, hm⟩ := hheld
    exact ⟨_, by simp [Option.mem_def.mp hq], Queue.holds_route hm D.topicMatch e.accepted⟩
  | consumer j e =>
    rcases h with ⟨q, hq, hm⟩ | hm
    · by_cases hack : m ∈ e.acknowledged
      · exact Or.inr (List.mem_append_right _ hack)
      · refine Or.inl ⟨q.follow j e, ?_, Queue.holds_follow hm j hack⟩
        simp [Option.mem_def.mp hq]
    · exact Or.inr (List.mem_append_left _ hm)

theorem kept_of_accept (hsub : D.receiver.subscriptions.any (D.topicMatch · D.producer.topic))
    {s : State ι κ} (hs : s.Attracting D) {i : ι} {m : Message}
    (he : (Event.producer (κ := κ) i (.accept m)).Enabled D s) (hq : (s.queue D).isSome) :
    ((Event.producer i (.accept m)).apply D s).Kept D m := by
  obtain ⟨q, hq⟩ := Option.isSome_iff_exists.mp hq
  have htopic := hs.topics i m he.1.2
  refine Or.inl ⟨q.route D.topicMatch [m], by simp [hq, Producer.Event.accepted],
    Queue.holds_taken (List.mem_filter.mpr ⟨?_, ?_⟩)⟩
  · exact List.mem_singleton.mpr rfl
  · rw [Queue.attracts, hs.subscriptions q hq, htopic]
    exact hsub

/-- A receiver that asked for a subscription to the topic would route every
message, in every run from a broker without queues. -/
theorem routed_of_subscribed (hsub : D.receiver.subscriptions.any (D.topicMatch · D.producer.topic))
    {es : List (Event ι κ)} {s : State ι κ}
    (h : (machine ι κ D).Run (.initial D fun _ => none) es s) : Routed D es s := by
  intro before after i m j ok hes hstart
  obtain ⟨b₁, b₂, rfl⟩ := List.append_of_mem hstart
  subst es
  obtain ⟨t, hbefore, hrest⟩ := Machine.run_append_iff.mp h
  obtain ⟨u, hb₁, hb₂⟩ := Machine.run_append_iff.mp hbefore
  have hu : u.Attracting D := hb₁.invariant attracting_step (attracting_initial D)
  have ht : t.Attracting D := hb₂.invariant attracting_step hu
  have hqueue : (t.queue D).isSome :=
    hb₂.invariant (I := fun s => (s.queue D).isSome) (fun e _ _ hs => isSome_queue_step e hs)
      (hu.created j (Machine.run_cons_iff.mp hb₂).1.1)
  obtain ⟨he, hafter⟩ := Machine.run_cons_iff.mp hrest
  exact hafter.invariant (I := fun s => s.Kept D m) (fun e s _ hs => kept_step e s hs)
    (kept_of_accept hsub ht he hqueue)

end Subscribed

end SolacePubSub
