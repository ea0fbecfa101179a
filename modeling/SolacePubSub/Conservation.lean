import SolacePubSub.ProducerAccounting
import SolacePubSub.AtLeastOnce
import SolacePubSub.MessageMoves

/-!
# Conservation between the two counters

While no process ends or reconnects and the broker accepts everything, a
message that was handed over or on the queue at first is in exactly one place: an
outbound buffer, the queue, a receiver's buffer, a callback before its increment,
or counted. The ledger below keeps that as an equation between multisets of
messages.
-/

namespace SolacePubSub

/-- No process ends, reconnects or is replaced, and the broker rejects nothing. A
process may have been told to stop, but it has not begun to. -/
def Producer.Event.FailureFree : Producer.Event → Prop
  | .connect ok | .build ok | .start ok => ok = true
  | .reject _ | .disconnect | .mainReturns | .die | .launch => False
  | _ => True

def Consumer.Event.FailureFree : Consumer.Event → Prop
  | .connect ok | .build ok | .start ok => ok = true
  | .reconnect _ | .terminate | .disconnect | .mainReturns | .die | .launch => False
  | _ => True

def Event.FailureFree {ι κ : Type*} : Event ι κ → Prop
  | .producer _ e => e.FailureFree
  | .consumer _ e => e.FailureFree

namespace Producer

theorem published_balance {cfg : Config} {p : Process} {e : Event} (hb : p.Balanced)
    (he : e.Enabled p) (hf : e.FailureFree) :
    (e.apply cfg p).publishedTotal + (e.apply cfg p).loop.pending =
      p.publishedTotal + p.loop.pending + (e.handedOver cfg).length := by
  cases e with
  | build ok =>
    rw [show ok = true from hf]
    rfl
  | start ok =>
    have hl := hb.unstarted (.inr (.inr he))
    rw [show ok = true from hf]
    simp [Event.apply, Event.handedOver, Loop.pending, hl]
  | publish id price => simp [Event.apply, Event.handedOver, Loop.pending, he.2]
  | publishFails => simp [Event.apply, Event.handedOver, Loop.pending, he.2]
  | incErrors => simp [Event.apply, Event.handedOver, Loop.pending, he.2]
  | incPublished =>
    have hpending : p.loop.pending = 1 := he.2
    simp only [Event.apply, Event.handedOver, hpending, List.length_nil]
    rfl
  | wake => simp [Event.apply, Event.handedOver, Loop.pending, he.2]
  | reject m => exact hf.elim
  | disconnect => exact hf.elim
  | mainReturns => exact hf.elim
  | die => exact hf.elim
  | launch => exact hf.elim
  | _ => rfl

theorem loop_of_handed {cfg : Config} {p : Process} {e : Event} {m : Message}
    (h : (e.apply cfg p).loop = .handed m) : p.loop = .handed m ∨ m ∈ e.handedOver cfg := by
  cases e with
  | publish id price =>
    rw [← Loop.handed.inj h]
    exact Or.inr (List.mem_singleton_self _)
  | build ok => cases ok <;> exact Or.inl h
  | start ok =>
    cases ok with
    | true => exact Loop.noConfusion h
    | false => exact Or.inl h
  | publishFails => exact Loop.noConfusion h
  | incErrors => exact Loop.noConfusion h
  | incPublished => exact Loop.noConfusion h
  | wake => exact Loop.noConfusion h
  | launch => exact Loop.noConfusion h
  | _ => exact Or.inl h

end Producer

namespace Consumer

theorem consumed_balance {b : ReceiverBuilder} {p : Process} {e : Event}
    (hf : e.FailureFree) :
    (e.apply b p).consumedTotal = p.consumedTotal + e.incremented.length := by
  rcases consumedTotal_apply b p e with h | ⟨h, _⟩
  · exact h.2
  · cases e with
    | launch => exact hf.elim
    | build ok => cases ok <;> simp [Event.apply, Process.startFails] at h
    | start ok => cases ok <;> simp [Event.apply, Process.startFails] at h
    | mainReturns => exact hf.elim
    | die => exact hf.elim
    | _ => simp [Event.apply] at h

end Consumer

variable {ι κ : Type*}

section FailureFree
variable {e : Event ι κ} {s : State ι κ}

theorem dropped_of_failureFree (hf : e.FailureFree) : e.dropped s = 0 := by
  cases e with
  | consumer j e => rfl
  | producer i e => cases e <;> first | rfl | exact hf.elim

theorem abandoned_of_failureFree (hf : e.FailureFree) : e.abandoned s = 0 := by
  cases e with
  | producer i e => rfl
  | consumer j e => cases e <;> first | rfl | exact hf.elim

theorem returned_of_failureFree [DecidableEq κ] {D : Deployment} (hf : e.FailureFree) :
    e.returned D s = 0 := by
  cases e with
  | producer i e => rfl
  | consumer j e =>
    rw [Event.returned]
    cases s.queue D with
    | none => rfl
    | some q => cases e <;> first | rfl | exact hf.elim

end FailureFree

variable [Fintype ι] [Fintype κ]

def State.inTransit (D : Deployment) (s : State ι κ) : Multiset Message :=
  (∑ i, ((s.producers i).outbound : Multiset Message)) + ↑(s.undelivered D) +
    ∑ j, (s.consumers j).uncounted

def State.outstanding (D : Deployment) (s : State ι κ) : Finset Message :=
  ((Finset.univ.biUnion fun i => (s.producers i).outbound.toFinset) ∪
      (s.undelivered D).toFinset ∪
      Finset.univ.biUnion fun j =>
        (s.consumers j).buffer.toFinset ∪ (s.consumers j).sleeping.toFinset).filter
    (· ∉ s.counted)

/-- The account of a run from a queue that held the messages `base` at first. -/
structure State.Ledger (D : Deployment) (base : List Message) (s : State ι κ) : Prop where
  balanced : ∀ i, (s.producers i).Balanced
  subscribed : s.Subscribed D
  places : s.inTransit D + ↑s.counted = ↑base + ↑s.handed
  numbered : s.Numbered
  due : ∀ i m, (s.producers i).loop = .handed m → m ∈ s.handed
  published : ∑ i, ((s.producers i).publishedTotal + (s.producers i).loop.pending) =
    s.handed.length
  consumed : ∑ j, (s.consumers j).consumedTotal = s.increments.length

section Account
variable {D : Deployment} {base : List Message} {s : State ι κ}

theorem ledger_initial {queues : String → Option (Queue κ)} {q : Queue κ}
    (hq : queues D.receiver.queue = some q)
    (hsub : q.subscriptions.any (D.topicMatch · D.producer.topic) = true) :
    (State.initial (ι := ι) D queues).Ledger D q.messages where
  balanced _ := Producer.balanced_fresh
  subscribed := ⟨⟨q, hq, hsub⟩, fun _ _ hm => absurd hm List.not_mem_nil⟩
  places := by
    simp [State.inTransit, State.undelivered, State.queue, State.initial, State.counted, hq,
      Producer.Process.fresh, Consumer.Process.fresh, Consumer.Process.uncounted]
  numbered := rfl
  due _ _ hm := Producer.Loop.noConfusion hm
  published := by simp [State.initial, Producer.Process.fresh, Producer.Loop.pending]
  consumed := by simp [State.initial, Consumer.Process.fresh]

theorem balance_of_ledger (hs : s.Ledger D base) :
    ((∑ i, (s.producers i).publishedTotal : ℕ) : ℤ) + (∑ i, (s.producers i).loop.pending : ℕ) +
      base.length - (∑ j, (s.consumers j).consumedTotal : ℕ) = (s.inTransit D).card := by
  have hcard := congrArg Multiset.card hs.places
  have hpub := hs.published
  have hcon := hs.consumed
  simp only [Multiset.card_add, Multiset.coe_card, State.counted, List.length_map] at hcard
  rw [Finset.sum_add_distrib] at hpub
  omega

theorem mem_inTransit {m : Message} :
    m ∈ s.inTransit D ↔ (∃ i, m ∈ (s.producers i).outbound) ∨ m ∈ s.undelivered D ∨
      ∃ j, m ∈ (s.consumers j).buffer ∨ m ∈ (s.consumers j).sleeping := by
  simp [State.inTransit, Consumer.Process.uncounted, Multiset.mem_sum, or_assoc]

theorem nodup_places (hs : s.Ledger D []) : (s.inTransit D + ↑s.counted).Nodup := by
  rw [hs.places, Multiset.coe_nil, zero_add]
  exact hs.numbered.handed_nodup

theorem outstanding_eq (hs : s.Ledger D []) : s.outstanding D = (s.inTransit D).toFinset := by
  ext m
  have hmem := mem_inTransit (D := D) (s := s) (m := m)
  have hfresh : m ∈ s.inTransit D → m ∉ s.counted := by
    intro hm hc
    exact Multiset.disjoint_left.mp (Multiset.nodup_add.mp (nodup_places hs)).2.2 hm hc
  simp only [State.outstanding, Finset.mem_filter, Finset.mem_union, Finset.mem_biUnion,
    Finset.mem_univ, true_and, List.mem_toFinset, Multiset.mem_toFinset]
  rw [or_assoc, ← hmem]
  exact ⟨fun h => h.1, fun h => ⟨h, hfresh h⟩⟩

theorem card_outstanding (hs : s.Ledger D []) :
    (s.outstanding D).card = (s.inTransit D).card := by
  rw [outstanding_eq hs]
  exact Multiset.toFinset_card_of_nodup (Multiset.nodup_add.mp (nodup_places hs)).1

end Account

section Step
variable [DecidableEq ι] [DecidableEq κ] {D : Deployment} {base : List Message} {s : State ι κ}

theorem inTransit_step (e : Event ι κ) (hf : e.FailureFree) (he : e.Enabled D s)
    (hs : s.Subscribed D) :
    (e.apply D s).inTransit D + ↑(e.apply D s).counted + ↑s.handed =
      s.inTransit D + ↑s.counted + ↑(e.apply D s).handed := by
  have hout := outbound_step D e s he
  have hplaces := places_step D e s he
  rw [dropped_of_failureFree hf, unrouted_of_subscribed e s he hs, add_zero, add_zero, add_zero]
    at hout
  rw [abandoned_of_failureFree hf, returned_of_failureFree hf, add_zero, add_zero] at hplaces
  apply add_right_cancel (b := (↑(e.apply D s).stored + ↑s.stored : Multiset Message))
  calc _ = ((∑ i, ((e.apply D s).producers i).outbound : Multiset Message) +
          ↑(e.apply D s).stored + ↑s.handed) +
          (↑((e.apply D s).undelivered D) + (∑ j, ((e.apply D s).consumers j).uncounted) +
            ↑(e.apply D s).counted + ↑s.stored) := by
        rw [State.inTransit]
        abel
    _ = _ := by
        rw [hout, hplaces, State.inTransit]
        abel

theorem ledger_step (e : Event ι κ) (s : State ι κ) (hf : e.FailureFree) (he : e.Enabled D s)
    (hs : s.Ledger D base) : (e.apply D s).Ledger D base := by
  have hplaces : (e.apply D s).inTransit D + ↑(e.apply D s).counted =
      ↑base + ↑(e.apply D s).handed := by
    have hstep := inTransit_step e hf he hs.subscribed
    apply add_right_cancel (b := (↑s.handed : Multiset Message))
    rw [hstep, hs.places, add_right_comm]
  have hsubscribed := subscribed_step e s he hs.subscribed
  have hnumbered := numbered_step D e s he hs.numbered
  cases e with
  | producer i e =>
    have hpub := FamilySum.sum_update_balance (fun p => p.publishedTotal + p.loop.pending)
      s.producers i (e.apply D.producer (s.producers i)) (x := 0)
      (Producer.published_balance (hs.balanced i) he.1 hf)
    refine ⟨?_, hsubscribed, hplaces, hnumbered, ?_, ?_, hs.consumed⟩
    · rw [producers_producer]
      rw [Function.forall_update_iff s.producers (p := fun _ p => p.Balanced)]
      constructor
      · exact Producer.balanced_step D.producer e (s.producers i) he.1 (hs.balanced i)
      · exact fun k _ => hs.balanced k
    · intro k m hm
      rw [producers_producer] at hm
      rw [handed_producer]
      by_cases hk : k = i
      · subst k
        rw [Function.update_self] at hm
        rcases Producer.loop_of_handed hm with h | h
        · exact List.mem_append_left _ (hs.due i m h)
        · exact List.mem_append_right _ h
      · rw [Function.update_of_ne hk] at hm
        exact List.mem_append_left _ (hs.due k m hm)
    · rw [producers_producer, handed_producer, List.length_append, ← hs.published]
      exact hpub
  | consumer j e =>
    have hcon := FamilySum.sum_update_balance (fun p => p.consumedTotal) s.consumers j
      (e.apply D.receiver (s.consumers j)) (x := 0) (Consumer.consumed_balance hf)
    refine ⟨hs.balanced, hsubscribed, hplaces, hnumbered, hs.due, hs.published, ?_⟩
    rw [consumers_consumer]
    simp only [Event.apply, List.length_append, List.length_map, ← hs.consumed]
    exact hcon

theorem run_ledger {t : State ι κ} {es : List (Event ι κ)} (h : (machine ι κ D).Run s es t)
    (hf : ∀ e ∈ es, e.FailureFree) (hs : s.Ledger D base) : t.Ledger D base :=
  h.invariant_on ledger_step hf hs

end Step

section Counters
variable [DecidableEq ι] [DecidableEq κ]

theorem totals_balance (topicMatch : String → String → Bool) (pc : Producer.Config)
    (cc : Consumer.Config) {queues : String → Option (Queue κ)} {q : Queue κ}
    (hq : queues cc.queue = some q)
    (hsub : q.subscriptions.any (topicMatch · pc.topic) = true) {es : List (Event ι κ)}
    {s : State ι κ}
    (h : (machine ι κ (deploy topicMatch pc cc)).Run
      (.initial (deploy topicMatch pc cc) queues) es s)
    (hf : ∀ e ∈ es, e.FailureFree) :
    let D := deploy topicMatch pc cc
    s.inTransit D + ↑s.counted = ↑q.messages + ↑s.handed ∧
      ((∑ i, (s.producers i).publishedTotal : ℕ) : ℤ) +
          (∑ i, (s.producers i).loop.pending : ℕ) + q.messages.length -
          (∑ j, (s.consumers j).consumedTotal : ℕ) = (s.inTransit D).card := by
  intro D
  have hledger : s.Ledger D q.messages := run_ledger h hf (ledger_initial hq hsub)
  exact ⟨hledger.places, balance_of_ledger hledger⟩

/-- The published total, with the increments that are still due, exceeds the
consumed total by the number of outstanding messages, in every state of every
failure-free run from an empty queue that is subscribed to TOPIC. -/
theorem counters_conserved (topicMatch : String → String → Bool) (pc : Producer.Config)
    (cc : Consumer.Config) {queues : String → Option (Queue κ)} {q : Queue κ}
    (hq : queues cc.queue = some q)
    (hsub : q.subscriptions.any (topicMatch · pc.topic) = true) (hempty : q.messages = [])
    {es : List (Event ι κ)} {s : State ι κ}
    (h : (machine ι κ (deploy topicMatch pc cc)).Run
      (.initial (deploy topicMatch pc cc) queues) es s)
    (hf : ∀ e ∈ es, e.FailureFree) :
    ((∑ i, (s.producers i).publishedTotal : ℕ) : ℤ) + (∑ i, (s.producers i).loop.pending : ℕ) -
      (∑ j, (s.consumers j).consumedTotal : ℕ) =
        (s.outstanding (deploy topicMatch pc cc)).card := by
  have hledger : s.Ledger (deploy topicMatch pc cc) q.messages :=
    run_ledger h hf (ledger_initial hq hsub)
  rw [hempty] at hledger
  have hbalance := (totals_balance topicMatch pc cc hq hsub h hf).2
  rw [hempty, List.length_nil, Nat.cast_zero, add_zero] at hbalance
  rw [card_outstanding hledger, hbalance]

theorem counters_conserved_handledOnce :
    let D := deploy (· == ·) (Producer.config fun _ => "") (Consumer.config fun _ => "")
    let q : Queue Unit := .create { D.receiver with subscriptions := [D.producer.topic] }
    let s := (machine Unit Unit D).final handledOnce (.initial D fun _ => some q)
    ((∑ i, (s.producers i).publishedTotal : ℕ) : ℤ) + (∑ i, (s.producers i).loop.pending : ℕ) -
      (∑ j, (s.consumers j).consumedTotal : ℕ) = (s.outstanding D).card :=
  counters_conserved (· == ·) _ _ rfl (by decide) rfl (Machine.Legal.run (by decide)) (by
    simp [handledOnce, producerStart, consumerStart, Event.FailureFree,
      Producer.Event.FailureFree, Consumer.Event.FailureFree])

end Counters

end SolacePubSub
