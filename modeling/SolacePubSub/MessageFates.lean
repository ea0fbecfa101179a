import SolacePubSub.AtLeastOnce
import SolacePubSub.MessageMoves
import SolacePubSub.Lib.RunLedger

/-!
# The fate of every message

Accounts of whole runs with all their failures. What the producers hand over is
in an outbound buffer, dropped from one, accepted without reaching the queue, or
stored on it. What is stored is handed out again each time a receiver goes away
with it, and is at every moment undelivered, with a receiver, or counted.
-/

namespace SolacePubSub

variable {ι κ : Type*}

section Run
variable [DecidableEq ι] [DecidableEq κ] {D : Deployment} {queues : String → Option (Queue κ)}
  {s : State ι κ} {es : List (Event ι κ)}

theorem run_handed_nodup (h : (machine ι κ D).Run (.initial D queues) es s) : s.handed.Nodup :=
  State.Numbered.handed_nodup (h.invariant (numbered_step D) rfl)

theorem run_outbound [Fintype ι] (h : (machine ι κ D).Run (.initial D queues) es s) :
    (∑ i, (s.producers i).outbound : Multiset Message) + ↑s.stored +
        (machine ι κ D).total (fun e t => e.dropped t + e.unrouted D t) es (.initial D queues) =
      ↑(State.initial (ι := ι) D queues).stored + ↑s.handed := by
  have hrun := h.balance
    (v := fun t => (∑ i, (t.producers i).outbound : Multiset Message) + ↑t.stored)
    (w := fun t => (t.handed : Multiset Message)) (g := fun _ _ => 0)
    (l := fun e t => e.dropped t + e.unrouted D t) (fun e t => outbound_step D e t)
  simpa [Machine.total_zero, State.initial, Producer.Process.fresh] using hrun

theorem run_places [Fintype κ] (h : (machine ι κ D).Run (.initial D queues) es s) :
    ↑(s.undelivered D) + (∑ j, (s.consumers j).uncounted) + ↑s.counted +
        (machine ι κ D).total (fun e t => e.abandoned t) es (.initial D queues) =
      ↑s.stored + (machine ι κ D).total (fun e t => e.returned D t) es (.initial D queues) := by
  have hrun := h.balance
    (v := fun t => (↑(t.undelivered D) + (∑ j, (t.consumers j).uncounted) + ↑t.counted :
      Multiset Message)) (w := fun t => (t.stored : Multiset Message))
    (g := fun e t => e.returned D t) (l := fun e t => e.abandoned t) (fun e t => places_step D e t)
  have hinitial : (State.initial (ι := ι) D queues).undelivered D =
      (State.initial (ι := ι) D queues).stored := by
    rw [State.undelivered, queue_initial, State.initial]
    cases queues D.receiver.queue <;> rfl
  have hcounted : (State.initial (ι := ι) D queues).counted = [] := rfl
  have huncounted : ∑ j, ((State.initial (ι := ι) D queues).consumers j).uncounted = 0 := by
    simp [Consumer.Process.uncounted, Consumer.Process.fresh]
  rw [hinitial, hcounted, huncounted] at hrun
  apply add_right_cancel (b := (↑(State.initial (ι := ι) D queues).stored : Multiset Message))
  rw [hrun]
  simp only [Multiset.coe_nil, add_zero]
  abel

theorem run_stored_nodup [Fintype ι] (h : (machine ι κ D).Run (.initial D queues) es s)
    (hempty : (State.initial (ι := ι) D queues).stored = []) : s.stored.Nodup := by
  have hfates := run_outbound h
  have hle : (s.stored : Multiset Message) ≤ ↑s.handed := by
    rw [hempty, Multiset.coe_nil, zero_add] at hfates
    rw [← hfates, add_right_comm]
    exact Multiset.le_add_left _ _
  exact Multiset.coe_nodup.mp (Multiset.nodup_of_le hle (Multiset.coe_nodup.mpr
    (run_handed_nodup h)))

end Run

section Subscribed
variable [DecidableEq ι] [DecidableEq κ] {D : Deployment}

theorem stored_of_accepted {s : State ι κ} (hs : s.Subscribed D) {i : ι} {m : Message}
    (he : (Event.producer (κ := κ) i (.accept m)).Enabled D s) :
    m ∈ ((Event.producer i (.accept m)).apply D s).stored := by
  rw [Event.apply, taken_of_subscribed hs he.1]
  exact List.mem_append_right _ (List.mem_singleton_self m)

theorem stored_kept (e : Event ι κ) {s : State ι κ} {m : Message} (hm : m ∈ s.stored) :
    m ∈ (e.apply D s).stored := by
  cases e with
  | producer i e => exact List.mem_append_left _ hm
  | consumer j e => exact hm

end Subscribed

section Accounts
variable [DecidableEq ι] [DecidableEq κ]

/-- Whatever fails, the messages handed over by the producers and those on the
queue at first are those in an outbound buffer, those stored, and those dropped
from a buffer or accepted without reaching the queue, each once. So no message
is lost but by a drop or a missing route: every other one is still buffered, is
held by the queue, or has been handled to the end. -/
theorem handed_fates [Fintype ι] (topicMatch : String → String → Bool) (pc : Producer.Config)
    (cc : Consumer.Config) (queues : String → Option (Queue κ)) {es : List (Event ι κ)}
    {s : State ι κ}
    (h : (machine ι κ (deploy topicMatch pc cc)).Run
      (.initial (deploy topicMatch pc cc) queues) es s) :
    let D := deploy topicMatch pc cc
    let lost := (machine ι κ D).total (fun e t => e.dropped t + e.unrouted D t) es
      (.initial D queues)
    s.handed.Nodup ∧
      (∑ i, (s.producers i).outbound : Multiset Message) + ↑s.stored + lost =
        ↑(State.initial (ι := ι) D queues).stored + ↑s.handed ∧
      ∀ m ∈ s.handed, (∃ i, m ∈ (s.producers i).outbound) ∨ m ∈ lost ∨ s.Held D m ∨
        s.Finished m := by
  intro D lost
  have hfates := run_outbound h
  have hsteps := refines_channel h (callbacksLogged_initial D queues)
  have hsafe := DeliveryChannel.safe_of_steps hsteps (channel_initial_safe D queues)
  refine ⟨run_handed_nodup h, hfates, ?_⟩
  intro m hm
  have hplace : m ∈ (∑ i, (s.producers i).outbound : Multiset Message) + ↑s.stored + lost := by
    rw [hfates]
    exact Multiset.mem_add.mpr (Or.inr hm)
  rcases Multiset.mem_add.mp hplace with hplace | hlost
  · rcases Multiset.mem_add.mp hplace with hout | hstored
    · obtain ⟨i, _, hi⟩ := Multiset.mem_sum.mp hout
      exact Or.inl ⟨i, hi⟩
    · exact Or.inr (Or.inr (hsafe hstored))
  · exact Or.inr (Or.inl hlost)

/-- Of two messages the broker takes the first, and the second is discarded
when the producer shuts down. -/
def droppedAtShutdown : List (Event Unit Unit) :=
  let m := Producer.message (Producer.config fun _ => "") 0 Producer.leastPrice
  consumerStart () ++ producerStart () ++
    [.producer () (.publish 0 Producer.leastPrice), .producer () .incPublished, .producer () .wake,
      .producer () (.publish 1 Producer.leastPrice), .producer () (.accept m),
      .producer () .sigterm, .producer () .disconnect, .producer () .mainReturns]

theorem handed_fates_droppedAtShutdown :
    let D := deploy (· == ·) (Producer.config fun _ => "") (Consumer.config fun _ => "")
    let queues : String → Option (Queue Unit) := fun _ =>
      some (.create { D.receiver with subscriptions := [D.producer.topic] })
    let s := (machine Unit Unit D).final droppedAtShutdown (.initial D queues)
    let lost := (machine Unit Unit D).total (fun e t => e.dropped t + e.unrouted D t)
      droppedAtShutdown (.initial D queues)
    s.handed.Nodup ∧
      (∑ i, (s.producers i).outbound : Multiset Message) + ↑s.stored + lost =
        ↑(State.initial (ι := Unit) D queues).stored + ↑s.handed ∧
      ∀ m ∈ s.handed, (∃ i, m ∈ (s.producers i).outbound) ∨ m ∈ lost ∨ s.Held D m ∨
        s.Finished m :=
  handed_fates (· == ·) _ _ _ (Machine.Legal.run (by decide))

/-- If the queue exists at first and is subscribed to TOPIC, then whatever fails,
nothing is lost but what is dropped from an outbound buffer. Every message that
the broker has accepted is from then on held by the queue or handled to the end. -/
theorem accepted_kept [Fintype ι] (topicMatch : String → String → Bool) (pc : Producer.Config)
    (cc : Consumer.Config) {queues : String → Option (Queue κ)} {q : Queue κ}
    (hq : queues cc.queue = some q)
    (hsub : q.subscriptions.any (topicMatch · pc.topic) = true) {es : List (Event ι κ)}
    {s : State ι κ}
    (h : (machine ι κ (deploy topicMatch pc cc)).Run
      (.initial (deploy topicMatch pc cc) queues) es s) :
    let D := deploy topicMatch pc cc
    (∑ i, (s.producers i).outbound : Multiset Message) + ↑s.stored +
        (machine ι κ D).total (fun e t => e.dropped t) es (.initial D queues) =
        ↑(State.initial (ι := ι) D queues).stored + ↑s.handed ∧
      ∀ before after i m, es = before ++ .producer i (.accept m) :: after →
        s.Held D m ∨ s.Finished m := by
  intro D
  have h0 : (State.initial (ι := ι) D queues).Subscribed D :=
    ⟨⟨q, hq, hsub⟩, fun _ _ hm => absurd hm List.not_mem_nil⟩
  refine ⟨?_, ?_⟩
  · have hfates := run_outbound h
    have hunrouted := h.total_eq_zero (f := fun e t => e.unrouted D t) subscribed_step
      unrouted_of_subscribed h0
    rw [Machine.total_add, hunrouted, add_zero] at hfates
    exact hfates
  · intro before after i m hes
    subst hes
    obtain ⟨t, hbefore, hrest⟩ := Machine.run_append_iff.mp h
    obtain ⟨he, hafter⟩ := Machine.run_cons_iff.mp hrest
    have hfirst := stored_of_accepted (hbefore.invariant subscribed_step h0) he
    have hstored : m ∈ s.stored :=
      hafter.invariant (I := fun u => m ∈ u.stored) (fun e u _ hm => stored_kept e hm) hfirst
    have hsteps := refines_channel h (callbacksLogged_initial D queues)
    exact DeliveryChannel.safe_of_steps hsteps (channel_initial_safe D queues) hstored

theorem accepted_kept_droppedAtShutdown :
    let D := deploy (· == ·) (Producer.config fun _ => "") (Consumer.config fun _ => "")
    let queues : String → Option (Queue Unit) := fun _ =>
      some (.create { D.receiver with subscriptions := [D.producer.topic] })
    let s := (machine Unit Unit D).final droppedAtShutdown (.initial D queues)
    (∑ i, (s.producers i).outbound : Multiset Message) + ↑s.stored +
        (machine Unit Unit D).total (fun e t => e.dropped t) droppedAtShutdown
          (.initial D queues) =
        ↑(State.initial (ι := Unit) D queues).stored + ↑s.handed ∧
      ∀ before after i m, droppedAtShutdown = before ++ .producer i (.accept m) :: after →
        s.Held D m ∨ s.Finished m :=
  accepted_kept (· == ·) _ _ rfl (by decide) (Machine.Legal.run (by decide))

/-- Whatever fails, the messages stored and those that receivers gave back are
those undelivered, those with a receiver before their count, those counted and
those whose delivery ended without a count. So if the queue was empty at first,
a message is counted at most once more than it was given back. -/
theorem counted_fates [Fintype ι] [Fintype κ] (topicMatch : String → String → Bool)
    (pc : Producer.Config) (cc : Consumer.Config) (queues : String → Option (Queue κ))
    {es : List (Event ι κ)} {s : State ι κ}
    (h : (machine ι κ (deploy topicMatch pc cc)).Run
      (.initial (deploy topicMatch pc cc) queues) es s) :
    let D := deploy topicMatch pc cc
    let returned := (machine ι κ D).total (fun e t => e.returned D t) es (.initial D queues)
    ↑(s.undelivered D) + (∑ j, (s.consumers j).uncounted) + ↑s.counted +
        (machine ι κ D).total (fun e t => e.abandoned t) es (.initial D queues) =
      ↑s.stored + returned ∧
      ((State.initial (ι := ι) D queues).stored = [] →
        ∀ m, s.counted.count m ≤ 1 + returned.count m) := by
  intro D returned
  have hplaces := run_places h
  refine ⟨hplaces, ?_⟩
  intro hempty m
  have hle : (s.counted : Multiset Message) ≤ ↑s.stored + returned := by
    rw [← hplaces, add_right_comm]
    exact Multiset.le_add_left _ _
  have hcount := Multiset.count_le_of_le m hle
  have honce := List.nodup_iff_count_le_one.mp (run_stored_nodup h hempty) m
  rw [Multiset.count_add, Multiset.coe_count, Multiset.coe_count] at hcount
  omega

/-- The process dies after the increment and before the ack, so that the next
one counts the message again. -/
def countedTwice : List (Event Unit Unit) :=
  let m := Producer.message (Producer.config fun _ => "") 0 Producer.leastPrice
  let count : List (Event Unit Unit) :=
    [.consumer () (.deliver m), .consumer () (.callback m), .consumer () (.incConsumed m)]
  consumerStart () ++ producerStart () ++
    [.producer () (.publish 0 Producer.leastPrice), .producer () (.accept m)] ++ count ++
    [.consumer () .die, .consumer () .launch] ++ consumerStart () ++ count

theorem counted_fates_countedTwice :
    let D := deploy (· == ·) (Producer.config fun _ => "") (Consumer.config fun _ => "")
    let queues : String → Option (Queue Unit) := fun _ =>
      some (.create { D.receiver with subscriptions := [D.producer.topic] })
    let s := (machine Unit Unit D).final countedTwice (.initial D queues)
    let returned := (machine Unit Unit D).total (fun e t => e.returned D t) countedTwice
      (.initial D queues)
    ↑(s.undelivered D) + (∑ j, (s.consumers j).uncounted) + ↑s.counted +
        (machine Unit Unit D).total (fun e t => e.abandoned t) countedTwice (.initial D queues) =
      ↑s.stored + returned ∧
      ((State.initial (ι := Unit) D queues).stored = [] →
        ∀ m, s.counted.count m ≤ 1 + returned.count m) :=
  counted_fates (· == ·) _ _ _ (Machine.Legal.run (by decide))

end Accounts

end SolacePubSub
