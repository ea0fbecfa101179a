import SolacePubSub.System
import SolacePubSub.Lib.FamilySum
import Mathlib.Algebra.Order.BigOperators.Group.Multiset
import Mathlib.Algebra.Order.Group.Multiset
import Mathlib.Algebra.Order.Sub.Basic
import Mathlib.Tactic.Abel

/-!
# What one step moves

A message is in an outbound buffer, on the queue, or with a receiver. For each of
these places, what a step puts in and what it takes out, with all the ways in
which a message can leave it, first for one process or queue and then for the
whole system.
-/

namespace SolacePubSub

theorem coe_erase_add {m : Message} {l : List Message} (hm : m ∈ l) :
    (↑(l.erase m) : Multiset Message) + {m} = ↑l := by
  rw [← Multiset.coe_erase, add_comm, Multiset.singleton_add]
  exact Multiset.cons_erase hm

namespace Producer

def Event.dropped (p : Process) : Event → List Message
  | .reject m => [m]
  | .disconnect | .mainReturns | .die | .launch => p.outbound
  | _ => []

theorem outbound_fates (cfg : Config) {p : Process} {e : Event} (he : e.Enabled p) :
    ((e.apply cfg p).outbound : Multiset Message) + ↑e.accepted + ↑(e.dropped p) =
      ↑p.outbound + ↑(e.handedOver cfg) := by
  cases e with
  | accept m =>
    have hm := coe_erase_add he.2
    simpa [Event.apply, Event.accepted, Event.dropped, Event.handedOver] using hm
  | reject m =>
    have hm := coe_erase_add he.2
    simpa [Event.apply, Event.accepted, Event.dropped, Event.handedOver] using hm
  | publish id price =>
    simp [Event.apply, Event.accepted, Event.dropped, Event.handedOver, ← Multiset.coe_add]
  | build ok =>
    cases ok <;>
      simp [Event.apply, Event.accepted, Event.dropped, Event.handedOver, Process.startFails]
  | start ok =>
    cases ok <;>
      simp [Event.apply, Event.accepted, Event.dropped, Event.handedOver, Process.startFails]
  | _ =>
    simp [Event.apply, Event.accepted, Event.dropped, Event.handedOver, Process.discard,
      Process.fresh]

theorem ids_of_numbered {cfg : Config} {e : Event} {n : ℕ} (h : e.Numbered n) :
    List.range n ++ (e.handedOver cfg).map (·.id) =
      List.range (n + (e.handedOver cfg).length) := by
  cases e with
  | publish id price =>
    have hid : id = n := h
    simp [Event.handedOver, message, hid, List.range_succ]
  | _ => simp [Event.handedOver]

end Producer

namespace Consumer

def Process.uncounted (p : Process) : Multiset Message := ↑p.buffer + ↑p.sleeping

/-- Deliveries that end in this process without a count: the broker hands their
messages to a receiver again, or the process keeps no record of them. -/
def Event.abandoned (p : Process) : Event → Multiset Message
  | .reconnect keep => if keep then 0 else ↑p.buffer
  | .terminate => ↑p.buffer
  | .mainReturns | .die | .launch => p.uncounted
  | _ => 0

theorem uncounted_fates {b : ReceiverBuilder} {p : Process} {e : Event} (he : e.Enabled p) :
    (e.apply b p).uncounted + ↑e.incremented + e.abandoned p = p.uncounted + ↑e.delivered := by
  cases e with
  | deliver m =>
    simp only [Event.apply, Event.incremented, Event.abandoned, Event.delivered, Process.uncounted,
      ← Multiset.coe_add, Multiset.coe_nil, add_zero]
    exact add_right_comm _ _ _
  | callback m =>
    have hm := coe_erase_add he.2.2
    simp only [Event.apply, Event.incremented, Event.abandoned, Event.delivered, Process.uncounted,
      ← Multiset.coe_add, Multiset.coe_nil, Multiset.coe_singleton, add_zero]
    rw [← hm, add_comm (p.sleeping : Multiset Message), ← add_assoc]
  | incConsumed m =>
    have hm := coe_erase_add he.2
    simp only [Event.apply, Event.incremented, Event.abandoned, Event.delivered, Process.uncounted,
      Multiset.coe_nil, Multiset.coe_singleton, add_zero]
    rw [← hm, add_assoc]
  | reconnect keep =>
    cases keep <;>
      simp [Event.apply, Event.incremented, Event.abandoned, Event.delivered, Process.uncounted,
        add_comm]
  | terminate =>
    simp [Event.apply, Event.incremented, Event.abandoned, Event.delivered, Process.uncounted,
      add_comm]
  | build ok =>
    cases ok <;>
      simp [Event.apply, Event.incremented, Event.abandoned, Event.delivered, Process.uncounted,
        Process.startFails]
  | start ok =>
    cases ok <;>
      simp [Event.apply, Event.incremented, Event.abandoned, Event.delivered, Process.uncounted,
        Process.startFails]
  | _ =>
    simp [Event.apply, Event.incremented, Event.abandoned, Event.delivered, Process.uncounted,
      Process.stop, Process.fresh]

theorem uncounted_apply {b : ReceiverBuilder} {p : Process} {e : Event} (he : e.Enabled p) :
    e.incremented.length + (e.apply b p).uncounted.card ≤
      p.uncounted.card + e.delivered.length := by
  have hfates := congrArg Multiset.card (uncounted_fates (b := b) he)
  simp only [Multiset.card_add, Multiset.coe_card] at hfates
  omega

end Consumer

namespace Queue
variable {κ : Type*} [DecidableEq κ]

def returned (j : κ) (q : Queue κ) : Consumer.Event → List Message
  | .reconnect _ | .terminate | .disconnect | .mainReturns | .die => q.unacked j
  | _ => []

theorem messages_fates {b : Consumer.ReceiverBuilder} {j : κ} {q : Queue κ} {e : Consumer.Event}
    (he : Allows b j (some q) e) :
    ((q.follow j e).messages : Multiset Message) + ↑e.delivered =
      ↑q.messages + ↑(q.returned j e) := by
  have hrelease : ((q.release j).messages : Multiset Message) = ↑q.messages + ↑(q.unacked j) := by
    rw [release, ← Multiset.coe_add, add_comm]
  cases e with
  | deliver m =>
    obtain ⟨r, hr, _, hm⟩ := he
    obtain rfl := Option.some.inj hr
    simpa [follow, deliver, returned, Consumer.Event.delivered] using coe_erase_add hm
  | start ok => cases ok <;> simp [follow, bind, returned, Consumer.Event.delivered]
  | reconnect keep => simpa [follow, bind, returned, Consumer.Event.delivered] using hrelease
  | terminate => simpa [follow, returned, Consumer.Event.delivered] using hrelease
  | disconnect => simpa [follow, returned, Consumer.Event.delivered] using hrelease
  | mainReturns => simpa [follow, returned, Consumer.Event.delivered] using hrelease
  | die => simpa [follow, returned, Consumer.Event.delivered] using hrelease
  | _ => simp [follow, acknowledge, returned, Consumer.Event.delivered]

theorem unacked_fates (j : κ) (q : Queue κ) (e : Consumer.Event) :
    ((q.follow j e).unacked j).length + (q.returned j e).length ≤
      (q.unacked j).length + e.delivered.length := by
  cases e with
  | start ok => cases ok <;> simp [follow, bind, returned, Consumer.Event.delivered]
  | deliver m => simp [follow, deliver, returned, Consumer.Event.delivered]
  | ack m =>
    simpa [follow, acknowledge, returned, Consumer.Event.delivered] using
      List.length_erase_le (a := m) (l := q.unacked j)
  | reconnect keep => simp [follow, bind, release, returned, Consumer.Event.delivered]
  | terminate => simp [follow, release, returned, Consumer.Event.delivered]
  | disconnect => simp [follow, release, returned, Consumer.Event.delivered]
  | mainReturns => simp [follow, release, returned, Consumer.Event.delivered]
  | die => simp [follow, release, returned, Consumer.Event.delivered]
  | _ => simp [follow, returned, Consumer.Event.delivered]

omit [DecidableEq κ] in
theorem length_returned_le (j : κ) (q : Queue κ) (e : Consumer.Event) :
    (q.returned j e).length ≤ (q.unacked j).length := by
  cases e <;> first | exact le_rfl | exact Nat.zero_le _

end Queue

variable {ι κ : Type*}

def State.undelivered (D : Deployment) (s : State ι κ) : List Message :=
  match s.queue D with
  | some q => q.messages
  | none => []

def State.counted (s : State ι κ) : List Message := s.increments.map (·.msg)

def Event.dropped (s : State ι κ) : Event ι κ → Multiset Message
  | .producer i e => ↑(e.dropped (s.producers i))
  | .consumer _ _ => 0

def Event.unrouted (D : Deployment) (s : State ι κ) : Event ι κ → Multiset Message
  | .producer _ e => ↑e.accepted - ↑(Queue.taken D.topicMatch (s.queue D) e.accepted)
  | .consumer _ _ => 0

def Event.abandoned (s : State ι κ) : Event ι κ → Multiset Message
  | .producer _ _ => 0
  | .consumer j e => e.abandoned (s.consumers j)

def Event.returned [DecidableEq κ] (D : Deployment) (s : State ι κ) : Event ι κ → Multiset Message
  | .producer _ _ => 0
  | .consumer j e => ((s.queue D).map fun q => (q.returned j e : Multiset Message)).getD 0

theorem taken_le (topicMatch : String → String → Bool) (q : Option (Queue κ))
    (ms : List Message) : (Queue.taken topicMatch q ms : Multiset Message) ≤ ↑ms := by
  cases q with
  | none => exact Multiset.zero_le _
  | some q => exact Multiset.coe_le.mpr List.filter_sublist.subperm

section Step
variable [DecidableEq ι] [DecidableEq κ] (D : Deployment) (e : Event ι κ) (s : State ι κ)

theorem outbound_step [Fintype ι] (he : e.Enabled D s) :
    (∑ i, ((e.apply D s).producers i).outbound : Multiset Message) + ↑(e.apply D s).stored +
        (e.dropped s + e.unrouted D s) + ↑s.handed =
      (∑ i, (s.producers i).outbound : Multiset Message) + ↑s.stored + 0 +
        ↑(e.apply D s).handed := by
  cases e with
  | consumer j e => rfl
  | producer i e =>
    have hout := FamilySum.sum_update_balance (fun p => (p.outbound : Multiset Message)) s.producers
      i (e.apply D.producer (s.producers i)) (x := ↑e.accepted + ↑(e.dropped (s.producers i)))
      (by rw [← add_assoc]; exact Producer.outbound_fates D.producer he.1)
    have htaken := add_tsub_cancel_of_le (taken_le D.topicMatch (s.queue D) e.accepted)
    rw [producers_producer, handed_producer]
    simp only [Event.apply, Event.dropped, Event.unrouted, ← Multiset.coe_add]
    generalize (e.accepted : Multiset Message) - ↑(Queue.taken D.topicMatch (s.queue D) e.accepted)
      = unrouted at htaken ⊢
    rw [← htaken] at hout
    calc _ = (∑ k, ((Function.update s.producers i (e.apply D.producer (s.producers i))
            k).outbound : Multiset Message)) + (↑(Queue.taken D.topicMatch (s.queue D) e.accepted) +
            unrouted + ↑(e.dropped (s.producers i))) + ↑s.stored + ↑s.handed := by abel
      _ = _ := by
          rw [hout]
          abel

theorem undelivered_taken (i : ι) (e : Producer.Event) :
    ((Event.producer i e).apply D s).undelivered D =
      s.undelivered D ++ Queue.taken D.topicMatch (s.queue D) e.accepted := by
  rw [State.undelivered, State.undelivered, queue_producer]
  cases s.queue D <;> rfl

theorem undelivered_consumer (j : κ) {e : Consumer.Event}
    (he : Queue.Allows D.receiver j (s.queue D) e) :
    (((Event.consumer (ι := ι) j e).apply D s).undelivered D : Multiset Message) + ↑e.delivered =
      ↑(s.undelivered D) + (Event.consumer (ι := ι) j e).returned D s := by
  rw [State.undelivered, State.undelivered, queue_consumer, Event.returned]
  cases hq : s.queue D with
  | some q =>
    rw [hq] at he
    rw [Queue.followOrCreate_some]
    exact Queue.messages_fates he
  | none =>
    rw [hq] at he
    cases e with
    | start ok => cases ok <;> rfl
    | deliver m =>
      obtain ⟨r, hr, _⟩ := he
      exact absurd hr (Option.not_mem_none r)
    | _ => rfl

theorem places_step [Fintype κ] (he : e.Enabled D s) :
    (↑((e.apply D s).undelivered D) + (∑ j, ((e.apply D s).consumers j).uncounted) +
          ↑(e.apply D s).counted : Multiset Message) + e.abandoned s + ↑s.stored =
      (↑(s.undelivered D) + (∑ j, (s.consumers j).uncounted) + ↑s.counted : Multiset Message) +
        e.returned D s + ↑(e.apply D s).stored := by
  cases e with
  | producer i e =>
    rw [undelivered_taken]
    simp only [Event.apply, Event.abandoned, Event.returned, State.counted, ← Multiset.coe_add]
    abel
  | consumer j e =>
    obtain ⟨hlocal, hallows⟩ := he
    have hmsg := undelivered_consumer (ι := ι) D s j hallows
    have hunc := FamilySum.sum_update_balance (fun p => p.uncounted) s.consumers j
      (e.apply D.receiver (s.consumers j)) (x := ↑e.incremented + e.abandoned (s.consumers j))
      (by rw [← add_assoc]; exact Consumer.uncounted_fates hlocal)
    have hcounted : ((Event.consumer (ι := ι) j e).apply D s).counted =
        s.counted ++ e.incremented := by
      simp [State.counted, Event.apply, Consumer.Process.handle, Function.comp_def]
    rw [hcounted, consumers_consumer, ← Multiset.coe_add]
    calc _ = ↑(((Event.consumer (ι := ι) j e).apply D s).undelivered D) +
            ((∑ k, (Function.update s.consumers j (e.apply D.receiver (s.consumers j))
              k).uncounted) + (↑e.incremented + e.abandoned (s.consumers j))) +
            ↑s.counted + ↑s.stored := by
          simp only [Event.abandoned]
          abel
      _ = (↑(((Event.consumer (ι := ι) j e).apply D s).undelivered D) + ↑e.delivered) +
            (∑ k, (s.consumers k).uncounted) + ↑s.counted + ↑s.stored := by
          rw [hunc]
          abel
      _ = _ := by
          rw [hmsg]
          simp only [Event.apply]
          abel

end Step

def State.Numbered (s : State ι κ) : Prop := s.handed.map (·.id) = List.range s.handed.length

theorem numbered_step [DecidableEq ι] [DecidableEq κ] (D : Deployment) (e : Event ι κ)
    (s : State ι κ) (he : e.Enabled D s) (hs : s.Numbered) : (e.apply D s).Numbered := by
  cases e with
  | consumer j e => exact hs
  | producer i e =>
    rw [State.Numbered, handed_producer, List.map_append, hs, List.length_append]
    exact Producer.ids_of_numbered he.2

theorem State.Numbered.handed_nodup {s : State ι κ} (hs : s.Numbered) : s.handed.Nodup := by
  apply List.Nodup.of_map (·.id)
  rw [hs]
  exact List.nodup_range

section Subscribed
variable {D : Deployment}

structure State.Subscribed (D : Deployment) (s : State ι κ) : Prop where
  queue : ∃ q, s.queue D = some q ∧
    q.subscriptions.any (D.topicMatch · D.producer.topic) = true
  topics : s.OnTopic D

theorem taken_of_subscribed {s : State ι κ} (hs : s.Subscribed D) {i : ι} {e : Producer.Event}
    (he : e.Enabled (s.producers i)) :
    Queue.taken D.topicMatch (s.queue D) e.accepted = e.accepted := by
  obtain ⟨q, hq, hsub⟩ := hs.queue
  rw [hq]
  apply List.filter_eq_self.mpr
  intro m hm
  rw [Queue.attracts, hs.topics i m (Producer.outbound_of_accepted he hm)]
  exact hsub

theorem unrouted_of_subscribed (e : Event ι κ) (s : State ι κ) (he : e.Enabled D s)
    (hs : s.Subscribed D) : e.unrouted D s = 0 := by
  cases e with
  | producer i e => rw [Event.unrouted, taken_of_subscribed hs he.1, tsub_self]
  | consumer j e => rfl

variable [DecidableEq ι] [DecidableEq κ]

theorem subscribed_step (e : Event ι κ) (s : State ι κ) (_ : e.Enabled D s)
    (hs : s.Subscribed D) : (e.apply D s).Subscribed D := by
  refine ⟨?_, onTopic_step e s hs.topics⟩
  obtain ⟨q, hq, hsub⟩ := hs.queue
  cases e with
  | producer i e => exact ⟨q.route D.topicMatch e.accepted, by simp [hq], hsub⟩
  | consumer j e =>
    refine ⟨q.follow j e, by simp [hq], ?_⟩
    rw [Queue.subscriptions_follow]
    exact hsub

end Subscribed

end SolacePubSub
