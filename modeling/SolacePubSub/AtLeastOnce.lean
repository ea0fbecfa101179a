import SolacePubSub.System
import SolacePubSub.Lib.DeliveryChannel
import Mathlib.Data.Finset.Card

/-!
# At-least-once handling

The queue and the consumers together are an at-least-once channel: the broker
lets go of a message only when it processes an ack, an ack is sent only after a
callback has returned, and a callback returns only after its increment. The
order in which deliveries, failovers, reconnects, terminations and crashes
happen makes no difference.
-/

namespace SolacePubSub

namespace Queue
variable {κ : Type*}

def Holds (q : Queue κ) (m : Message) : Prop := m ∈ q.messages ∨ ∃ j, m ∈ q.unacked j

theorem holds_route {q : Queue κ} {m : Message} (h : q.Holds m)
    (topicMatch : String → String → Bool) (ms : List Message) :
    (q.route topicMatch ms).Holds m :=
  h.imp_left (List.mem_append_left _)

theorem holds_taken {q : Queue κ} {m : Message} {topicMatch : String → String → Bool}
    {ms : List Message} (h : m ∈ taken topicMatch (some q) ms) :
    (q.route topicMatch ms).Holds m :=
  Or.inl (List.mem_append_right _ h)

variable [DecidableEq κ]

theorem holds_of_update {q r : Queue κ} {m : Message} {j : κ} {ms : List Message}
    (h : q.Holds m) (hr : r.unacked = Function.update q.unacked j ms)
    (hq : m ∈ q.messages → m ∈ r.messages ∨ m ∈ ms)
    (hj : m ∈ q.unacked j → m ∈ r.messages ∨ m ∈ ms) : r.Holds m := by
  have hnew : m ∈ r.messages ∨ m ∈ ms → r.Holds m := by
    intro hm
    refine hm.imp_right fun hm => ⟨j, ?_⟩
    rwa [hr, Function.update_self]
  rcases h with h | ⟨k, h⟩
  · exact hnew (hq h)
  · by_cases hk : k = j
    · subst k
      exact hnew (hj h)
    · refine Or.inr ⟨k, ?_⟩
      rwa [hr, Function.update_of_ne hk]

theorem holds_deliver {q : Queue κ} {m : Message} (h : q.Holds m) (j : κ) (n : Message) :
    (q.deliver j n).Holds m := by
  refine holds_of_update h rfl ?_ (fun hm => Or.inr (List.mem_append_left _ hm))
  intro hm
  by_cases he : m = n
  · exact Or.inr (by simp [he])
  · exact Or.inl ((List.mem_erase_of_ne he).mpr hm)

theorem holds_acknowledge {q : Queue κ} {m : Message} (h : q.Holds m) (j : κ) {n : Message}
    (hn : m ≠ n) : (q.acknowledge j n).Holds m :=
  holds_of_update h rfl Or.inl (fun hm => Or.inr ((List.mem_erase_of_ne hn).mpr hm))

theorem holds_release {q : Queue κ} {m : Message} (h : q.Holds m) (j : κ) :
    (q.release j).Holds m :=
  holds_of_update h rfl (fun hm => Or.inl (List.mem_append_right _ hm))
    (fun hm => Or.inl (List.mem_append_left _ hm))

theorem holds_follow {q : Queue κ} {m : Message} (h : q.Holds m) (j : κ) {e : Consumer.Event}
    (he : m ∉ e.acknowledged) : (q.follow j e).Holds m := by
  cases e with
  | deliver n => exact holds_deliver h j n
  | ack n => exact holds_acknowledge h j (by simpa [Consumer.Event.acknowledged] using he)
  | reconnect keep => exact holds_release h j
  | terminate => exact holds_release h j
  | disconnect => exact holds_release h j
  | mainReturns => exact holds_release h j
  | die => exact holds_release h j
  | start ok => cases ok <;> exact h
  | connect ok => exact h
  | build ok => exact h
  | receiveAsync ok => exact h
  | callback n => exact h
  | incConsumed n => exact h
  | callbackReturns n => exact h
  | loseAck n => exact h
  | sigterm => exact h
  | launch => exact h

end Queue

namespace Consumer

theorem counted_apply {b : ReceiverBuilder} {p : Process} {e : Event} {m : Message}
    (h : m ∈ (e.apply b p).counted) :
    (e.apply b p).epoch = p.epoch ∧ (m ∈ p.counted ∨ m ∈ e.incremented) := by
  cases e with
  | incConsumed n => exact ⟨rfl, List.mem_append.mp h⟩
  | callbackReturns n => exact ⟨rfl, Or.inl (List.mem_of_mem_erase h)⟩
  | mainReturns => exact absurd h List.not_mem_nil
  | die => exact absurd h List.not_mem_nil
  | launch => exact absurd h List.not_mem_nil
  | build ok => cases ok <;> exact ⟨rfl, Or.inl h⟩
  | start ok => cases ok <;> exact ⟨rfl, Or.inl h⟩
  | _ => exact ⟨rfl, Or.inl h⟩

theorem acks_apply {b : ReceiverBuilder} {p : Process} {e : Event} {m : Message}
    (h : m ∈ (e.apply b p).acks) : m ∈ p.acks ∨ m ∈ e.finished := by
  cases e with
  | callbackReturns n =>
    rcases List.mem_append.mp h with h | h
    · exact Or.inl h
    · cases hb : b.ack <;> simp only [hb, AckMode.afterCallback] at h
      · exact Or.inr h
      · exact absurd h List.not_mem_nil
  | ack n => exact Or.inl (List.mem_of_mem_erase h)
  | loseAck n => exact Or.inl (List.mem_of_mem_erase h)
  | mainReturns => exact absurd h List.not_mem_nil
  | die => exact absurd h List.not_mem_nil
  | launch => exact absurd h List.not_mem_nil
  | build ok => cases ok <;> exact Or.inl h
  | start ok => cases ok <;> exact Or.inl h
  | _ => exact Or.inl h

theorem counted_of_finished {p : Process} {e : Event} {m : Message} (he : e.Enabled p)
    (h : m ∈ e.finished) : m ∈ p.counted := by
  cases e with
  | callbackReturns n =>
    rw [List.mem_singleton.mp h]
    exact he.2
  | _ => exact absurd h List.not_mem_nil

theorem consumedTotal_apply (b : ReceiverBuilder) (p : Process) (e : Event) :
    ((e.apply b p).epoch = p.epoch ∧
        (e.apply b p).consumedTotal = p.consumedTotal + e.incremented.length) ∨
      ((e.apply b p).epoch = p.epoch + 1 ∧ (e.apply b p).consumedTotal = 0 ∧
        e.incremented = []) := by
  cases e with
  | launch => exact Or.inr ⟨rfl, rfl, rfl⟩
  | build ok => cases ok <;> exact Or.inl ⟨rfl, rfl⟩
  | start ok => cases ok <;> exact Or.inl ⟨rfl, rfl⟩
  | _ => exact Or.inl ⟨rfl, rfl⟩

theorem acks_of_acknowledged {p : Process} {e : Event} {m : Message} (he : e.Enabled p)
    (h : m ∈ e.acknowledged) : m ∈ p.acks := by
  cases e with
  | ack n =>
    rw [List.mem_singleton.mp h]
    exact he.2
  | _ => exact absurd h List.not_mem_nil

end Consumer

variable {ι κ : Type*}

def State.Held (D : Deployment) (s : State ι κ) (m : Message) : Prop :=
  ∃ q ∈ s.queue D, q.Holds m

def State.Finished (s : State ι κ) (m : Message) : Prop :=
  ∃ h ∈ s.increments, h ∈ s.finished ∧ h.msg = m

structure State.CallbacksLogged (s : State ι κ) : Prop where
  counted : ∀ j, ∀ m ∈ (s.consumers j).counted, (s.consumers j).handle j m ∈ s.increments
  acks : ∀ j, ∀ m ∈ (s.consumers j).acks, s.Finished m

theorem callbacksLogged_initial (D : Deployment) (queues : String → Option (Queue κ)) :
    (State.initial (ι := ι) D queues).CallbacksLogged where
  counted _ _ h := absurd h List.not_mem_nil
  acks _ _ h := absurd h List.not_mem_nil

def State.channel (D : Deployment) (s : State ι κ) : DeliveryChannel Message where
  stored := {m | m ∈ s.stored}
  held := {m | s.Held D m}
  finished := {m | s.Finished m}

theorem channel_initial_safe (D : Deployment) (queues : String → Option (Queue κ)) :
    ((State.initial (ι := ι) D queues).channel D).Safe := by
  intro m hm
  have hm' : m ∈ ((queues D.receiver.queue).map (·.messages)).getD [] := hm
  cases hq : queues D.receiver.queue with
  | none => simp [hq] at hm'
  | some q => exact Or.inl ⟨q, hq, Or.inl (by simpa [hq] using hm')⟩

theorem card_le_increments {s : State ι κ} {F : Finset Message}
    (h : ∀ m ∈ F, s.Finished m) : F.card ≤ s.increments.length := by
  have hsub : F ⊆ (s.increments.map (·.msg)).toFinset := by
    intro m hm
    obtain ⟨a, ha, _, rfl⟩ := h m hm
    exact List.mem_toFinset.mpr (List.mem_map_of_mem ha)
  calc F.card ≤ (s.increments.map (·.msg)).toFinset.card := Finset.card_le_card hsub
    _ ≤ (s.increments.map (·.msg)).length := List.toFinset_card_le _
    _ = s.increments.length := List.length_map _

variable [DecidableEq κ]

def State.countedBy (s : State ι κ) (j : κ) (epoch : ℕ) : ℕ :=
  s.increments.countP fun h => h.pod = j ∧ h.epoch = epoch

structure State.CountersLogged (s : State ι κ) : Prop where
  total : ∀ j, (s.consumers j).consumedTotal = s.countedBy j (s.consumers j).epoch
  epochs : ∀ h ∈ s.increments, h.epoch ≤ (s.consumers h.pod).epoch

theorem countedBy_newer {s : State ι κ} (hs : s.CountersLogged) (j : κ) :
    s.countedBy j ((s.consumers j).epoch + 1) = 0 := by
  rw [State.countedBy, List.countP_eq_zero]
  intro h hh
  have hle := hs.epochs h hh
  simp only [decide_eq_true_eq, not_and]
  intro hpod
  subst hpod
  omega

variable [DecidableEq ι]

theorem finished_consumer {D : Deployment} {s : State ι κ} {m : Message} (h : s.Finished m)
    (j : κ) (e : Consumer.Event) : ((Event.consumer (ι := ι) j e).apply D s).Finished m := by
  obtain ⟨a, hi, hf, ha⟩ := h
  exact ⟨a, List.mem_append_left _ hi, List.mem_append_left _ hf, ha⟩

theorem callbacksLogged_consumer {D : Deployment} {s : State ι κ} (hs : s.CallbacksLogged)
    {j : κ} {e : Consumer.Event} (he : e.Enabled (s.consumers j)) :
    ((Event.consumer (ι := ι) j e).apply D s).CallbacksLogged where
  counted k m hm := by
    rw [consumers_consumer] at hm ⊢
    by_cases hk : k = j
    · subst k
      rw [Function.update_self] at hm ⊢
      obtain ⟨hepoch, h | h⟩ := Consumer.counted_apply hm
      · have hold := hs.counted j m h
        simp only [Consumer.Process.handle, hepoch] at hold ⊢
        exact List.mem_append_left _ hold
      · simp only [Consumer.Process.handle, hepoch]
        exact List.mem_append_right _ (List.mem_map_of_mem h)
    · rw [Function.update_of_ne hk] at hm ⊢
      exact List.mem_append_left _ (hs.counted k m hm)
  acks k m hm := by
    rw [consumers_consumer] at hm
    by_cases hk : k = j
    · subst k
      rw [Function.update_self] at hm
      rcases Consumer.acks_apply hm with h | h
      · exact finished_consumer (hs.acks j m h) j e
      · have hc := hs.counted j m (Consumer.counted_of_finished he h)
        exact ⟨(s.consumers j).handle j m, List.mem_append_left _ hc,
          List.mem_append_right _ (List.mem_map_of_mem h), rfl⟩
    · rw [Function.update_of_ne hk] at hm
      exact finished_consumer (hs.acks k m hm) j e

theorem callbacksLogged_step (D : Deployment) (e : Event ι κ) (s : State ι κ)
    (he : e.Enabled D s) (hs : s.CallbacksLogged) : (e.apply D s).CallbacksLogged := by
  cases e with
  | producer i e => exact ⟨hs.counted, hs.acks⟩
  | consumer j e => exact callbacksLogged_consumer hs he.1

theorem channel_step (D : Deployment) (e : Event ι κ) (s : State ι κ)
    (he : e.Enabled D s) (hs : s.CallbacksLogged) :
    DeliveryChannel.Step (s.channel D) ((e.apply D s).channel D) := by
  cases e with
  | producer i e =>
    refine ⟨?_, ?_, subset_rfl⟩
    · intro m hm
      rcases List.mem_append.mp hm with h | h
      · exact Or.inl h
      · cases hq : s.queue D with
        | none =>
          rw [hq] at h
          exact absurd h List.not_mem_nil
        | some q =>
          rw [hq] at h
          exact Or.inr ⟨_, by simp [hq], Queue.holds_taken h⟩
    · intro m hheld
      obtain ⟨q, hq, hm⟩ := hheld
      refine Or.inl ⟨_, ?_, Queue.holds_route hm D.topicMatch e.accepted⟩
      simp [Option.mem_def.mp hq]
  | consumer j e =>
    refine ⟨Set.subset_union_left, ?_, fun m hm => finished_consumer hm j e⟩
    intro m hheld
    obtain ⟨q, hq, hm⟩ := hheld
    by_cases hack : m ∈ e.acknowledged
    · have hfin := hs.acks j m (Consumer.acks_of_acknowledged he.1 hack)
      exact Or.inr (finished_consumer hfin j e)
    · refine Or.inl ⟨q.follow j e, ?_, Queue.holds_follow hm j hack⟩
      simp [Option.mem_def.mp hq]

theorem refines_channel {D : Deployment} {s t : State ι κ} {es : List (Event ι κ)}
    (h : (machine ι κ D).Run s es t) (hs : s.CallbacksLogged) :
    Relation.ReflTransGen DeliveryChannel.Step (s.channel D) (t.channel D) := by
  induction h with
  | nil => exact .refl
  | @cons s t e es he _ ih =>
    have hnext := callbacksLogged_step D e s he hs
    exact (Relation.ReflTransGen.single (channel_step D e s he hs)).trans (ih hnext)

theorem countP_handle (j k : κ) (p : Consumer.Process) (epoch : ℕ) (ms : List Message) :
    (ms.map (p.handle j)).countP (fun h => h.pod = k ∧ h.epoch = epoch) =
      if j = k ∧ p.epoch = epoch then ms.length else 0 := by
  rw [List.countP_map]
  split_ifs with h
  · exact List.countP_eq_length.mpr fun m _ => decide_eq_true h
  · exact List.countP_eq_zero.mpr fun m _ hm => h (of_decide_eq_true hm)

theorem countersLogged_consumer {D : Deployment} {s : State ι κ} (hs : s.CountersLogged)
    (j : κ) (e : Consumer.Event) :
    ((Event.consumer (ι := ι) j e).apply D s).CountersLogged where
  total k := by
    rw [consumers_consumer]
    simp only [State.countedBy, Event.apply, List.countP_append, countP_handle]
    have hold := hs.total k
    by_cases hk : k = j
    · subst k
      rw [Function.update_self]
      rcases Consumer.consumedTotal_apply D.receiver (s.consumers j) e with
        ⟨hepoch, htotal⟩ | ⟨hepoch, htotal, hnone⟩
      · rw [hepoch, htotal, hold]
        simp [State.countedBy]
      · have hnew := countedBy_newer hs j
        rw [State.countedBy] at hnew
        rw [hepoch, htotal, hnew, hnone]
        simp
    · rw [Function.update_of_ne hk, hold]
      simp [State.countedBy, Ne.symm hk]
  epochs h hh := by
    rw [consumers_consumer]
    have hstep : (s.consumers j).epoch ≤ (e.apply D.receiver (s.consumers j)).epoch := by
      rcases Consumer.consumedTotal_apply D.receiver (s.consumers j) e with hc | hc <;> omega
    have hmono : ∀ k, (s.consumers k).epoch ≤
        (Function.update s.consumers j (e.apply D.receiver (s.consumers j)) k).epoch := by
      intro k
      by_cases hk : k = j
      · subst k
        rwa [Function.update_self]
      · rw [Function.update_of_ne hk]
    rcases List.mem_append.mp hh with hh | hh
    · exact (hs.epochs h hh).trans (hmono _)
    · obtain ⟨m, _, rfl⟩ := List.mem_map.mp hh
      exact hmono j

theorem countersLogged_step (D : Deployment) (e : Event ι κ) (s : State ι κ)
    (_ : e.Enabled D s) (hs : s.CountersLogged) : (e.apply D s).CountersLogged := by
  cases e with
  | producer i e => exact ⟨hs.total, hs.epochs⟩
  | consumer j e => exact countersLogged_consumer hs j e

/-- Every message ever stored on the queue is still held by it or has had a
callback that incremented `consumedTotal` and returned. Hence the stored
messages that the queue has let go of are no more than the increments made, and
the increments recorded for a live process are what its `consumedTotal` shows. -/
theorem at_least_once (topicMatch : String → String → Bool) (pc : Producer.Config)
    (cc : Consumer.Config) (queues : String → Option (Queue κ)) {s : State ι κ}
    (h : (machine ι κ (deploy topicMatch pc cc)).Reachable
      (.initial (deploy topicMatch pc cc) queues) s) :
    (∀ m ∈ s.stored, s.Held (deploy topicMatch pc cc) m ∨ s.Finished m) ∧
      (∀ F : Finset Message,
        (∀ m ∈ F, m ∈ s.stored ∧ ¬ s.Held (deploy topicMatch pc cc) m) →
          F.card ≤ s.increments.length) ∧
      ∀ j, (s.consumers j).consumedTotal = s.countedBy j (s.consumers j).epoch := by
  have hlogged : s.CountersLogged :=
    h.invariant (countersLogged_step _) ⟨fun _ => rfl, fun _ hh => absurd hh List.not_mem_nil⟩
  obtain ⟨es, hr⟩ := h
  have hsteps := refines_channel hr (callbacksLogged_initial _ queues)
  have hsafe := DeliveryChannel.safe_of_steps hsteps (channel_initial_safe _ queues)
  refine ⟨fun m hm => hsafe hm, ?_, hlogged.total⟩
  intro F hF
  apply card_le_increments
  intro m hm
  obtain ⟨hst, hheld⟩ := hF m hm
  exact (hsafe hst).resolve_left hheld

def handledOnce : List (Event Unit Unit) :=
  let m := Producer.message (Producer.config fun _ => "") 0 Producer.leastPrice
  producerStart () ++ consumerStart () ++
    [.producer () (.publish 0 Producer.leastPrice), .producer () (.accept m),
      .consumer () (.deliver m), .consumer () (.callback m), .consumer () (.incConsumed m),
      .consumer () (.callbackReturns m), .consumer () (.ack m)]

theorem at_least_once_handledOnce :
    let D := deploy (· == ·) (Producer.config fun _ => "") (Consumer.config fun _ => "")
    let q : Queue Unit := .create { D.receiver with subscriptions := [D.producer.topic] }
    let s := (machine Unit Unit D).final handledOnce (.initial D fun _ => some q)
    (∀ m ∈ s.stored, s.Held D m ∨ s.Finished m) ∧
      (∀ F : Finset Message, (∀ m ∈ F, m ∈ s.stored ∧ ¬ s.Held D m) →
        F.card ≤ s.increments.length) ∧
      ∀ j, (s.consumers j).consumedTotal = s.countedBy j (s.consumers j).epoch :=
  at_least_once (· == ·) _ _ _ ⟨handledOnce, Machine.Legal.run (by decide)⟩

end SolacePubSub
