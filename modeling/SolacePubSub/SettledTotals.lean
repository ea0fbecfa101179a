import SolacePubSub.Conservation
import SolacePubSub.Draining

/-!
# Totals at rest

In a run without failures the difference between the two totals is the backlog.
If no process is told to stop either, the backlog drains once the producers
publish no more, and at rest both totals are the number of messages that were
ever handed over.
-/

namespace SolacePubSub

namespace Producer

def Process.Coming (p : Process) : Prop :=
  p.main = .connect ∨ p.main = .build ∨ p.main = .start ∨ p.main = .wait

theorem Process.Coming.closing {p : Process} (hp : p.Coming) : p.main.closing = 0 := by
  rcases hp with h | h | h | h <;> rw [h] <;> rfl

theorem failureFree_of_coming {p : Process} {e : Event} (he : e.Enabled p)
    (hu : e.Undisturbed) (hp : p.Coming) : e.FailureFree := by
  have hclosing := hp.closing
  cases e with
  | connect ok => exact hu
  | build ok => exact hu
  | start ok => exact hu
  | reject m => exact hu.elim
  | disconnect =>
    rw [show p.main = .disconnect from he] at hclosing
    exact absurd hclosing (by decide)
  | mainReturns =>
    rw [show p.main = .closed from he] at hclosing
    exact absurd hclosing (by decide)
  | die => exact hu.elim
  | launch => exact hu.elim
  | _ => trivial

theorem coming_apply {cfg : Config} {p : Process} {e : Event} (he : e.Enabled p)
    (hu : e.Undisturbed) (hp : p.Coming) : (e.apply cfg p).Coming := by
  have hf := failureFree_of_coming he hu hp
  cases e with
  | connect ok =>
    rw [show ok = true from hu]
    exact Or.inr (Or.inl rfl)
  | build ok =>
    rw [show ok = true from hu]
    exact Or.inr (Or.inr (Or.inl rfl))
  | start ok =>
    rw [show ok = true from hu]
    exact Or.inr (Or.inr (Or.inr rfl))
  | sigterm => exact hu.elim
  | reject m => exact hf.elim
  | disconnect => exact hf.elim
  | mainReturns => exact hf.elim
  | die => exact hf.elim
  | launch => exact hf.elim
  | _ => exact hp

theorem undisturbed_of_quiet {e : Event} (h : e.Quiet) : e.Undisturbed := by
  cases e <;> first | exact h | exact h.elim

end Producer

theorem Consumer.failureFree_of_coming {p : Process} {e : Event} (he : e.Enabled p)
    (hu : e.Undisturbed) (hp : p.Coming) : e.FailureFree := by
  have hclosing := hp.closing
  cases e with
  | connect ok => exact hu
  | build ok => exact hu
  | start ok => exact hu
  | reconnect keep => exact hu.elim
  | terminate =>
    rw [show p.main = .terminate from he] at hclosing
    exact absurd hclosing (by decide)
  | disconnect =>
    rw [show p.main = .disconnect from he] at hclosing
    exact absurd hclosing (by decide)
  | mainReturns =>
    rw [show p.main = .closed from he] at hclosing
    exact absurd hclosing (by decide)
  | die => exact hu.elim
  | launch => exact hu.elim
  | _ => trivial

variable {ι κ : Type*}

theorem undisturbed_of_quiet {e : Event ι κ} (h : e.Quiet) : e.Undisturbed := by
  cases e with
  | producer i e => exact Producer.undisturbed_of_quiet h
  | consumer j e => exact h

structure State.Unstopped (s : State ι κ) : Prop where
  producers : ∀ i, (s.producers i).Coming
  consumers : ∀ j, (s.consumers j).Coming
  loud : ∀ j, (s.consumers j).Loud

theorem unstopped_initial (D : Deployment) (queues : String → Option (Queue κ)) :
    (State.initial (ι := ι) D queues).Unstopped where
  producers _ := Or.inl rfl
  consumers _ := Or.inl (Or.inl rfl)
  loud _ h := Consumer.Main.noConfusion h

theorem failureFree_of_unstopped {D : Deployment} {s : State ι κ} {e : Event ι κ}
    (hu : e.Undisturbed) (he : e.Enabled D s) (hs : s.Unstopped) : e.FailureFree := by
  cases e with
  | producer i e => exact Producer.failureFree_of_coming he.1 hu (hs.producers i)
  | consumer j e => exact Consumer.failureFree_of_coming he.1 hu (hs.consumers j)

variable [DecidableEq ι] [DecidableEq κ] {D : Deployment} {s t : State ι κ}

theorem unstopped_step (e : Event ι κ) (s : State ι κ) (hu : e.Undisturbed) (he : e.Enabled D s)
    (hs : s.Unstopped) : (e.apply D s).Unstopped := by
  cases e with
  | producer i e =>
    refine ⟨?_, hs.consumers, hs.loud⟩
    rw [producers_producer]
    rw [Function.forall_update_iff s.producers (p := fun _ p => p.Coming)]
    exact ⟨Producer.coming_apply he.1 hu (hs.producers i), fun k _ => hs.producers k⟩
  | consumer j e =>
    refine ⟨hs.producers, ?_, ?_⟩
    · rw [consumers_consumer]
      rw [Function.forall_update_iff s.consumers (p := fun _ p => p.Coming)]
      exact ⟨Consumer.coming_apply he.1 hu (hs.consumers j), fun k _ => hs.consumers k⟩
    · rw [consumers_consumer]
      rw [Function.forall_update_iff s.consumers (p := fun _ p => p.Loud)]
      exact ⟨Consumer.loud_apply hu (hs.loud j), fun k _ => hs.loud k⟩

theorem run_handed_quiet {es : List (Event ι κ)} (h : (machine ι κ D).Run s es t)
    (hquiet : ∀ e ∈ es, e.Quiet) : t.handed = s.handed := by
  refine h.invariant_on (I := fun u => u.handed = s.handed) ?_ hquiet rfl
  intro e u he _ hu
  cases e with
  | consumer j e => exact hu
  | producer i e =>
    rw [machine_apply, handed_producer, Producer.handedOver_of_quiet he, List.append_nil]
    exact hu

theorem publisher_of_stuck (h : (machine ι κ D).Stuck Event.Quiet s) {i : ι}
    (hi : (s.producers i).Coming) : (s.producers i).main = .wait := by
  rcases hi with hmain | hmain | hmain | hmain
  · exact absurd ⟨hmain, trivial⟩ (h (.producer i (.connect true)) rfl)
  · exact absurd ⟨hmain, trivial⟩ (h (.producer i (.build true)) rfl)
  · exact absurd ⟨hmain, trivial⟩ (h (.producer i (.start true)) rfl)
  · exact hmain

theorem pending_of_stuck (h : (machine ι κ D).Stuck Event.Quiet s) {i : ι}
    (hi : (s.producers i).Coming) : (s.producers i).loop.pending = 0 := by
  have halive : (s.producers i).Alive := by
    simp [Producer.Process.Alive, publisher_of_stuck h hi]
  have hnot := h (.producer i .incPublished) trivial
  by_contra hne
  refine hnot ⟨⟨halive, ?_⟩, trivial⟩
  cases hl : (s.producers i).loop <;> simp_all [Producer.Loop.pending]

theorem stuck_of_idle
    (hp : ∀ i, (s.producers i).main = .wait ∧ (s.producers i).loop = .top ∧
      (s.producers i).outbound = [])
    (hc : ∀ j, (s.consumers j).main = .wait ∧ (s.consumers j).inFlight = 0)
    (hq : ∀ q ∈ s.queue D, q.messages = []) : (machine ι κ D).Stuck Event.Quiet s := by
  intro e hquiet he
  cases e with
  | producer i e =>
    obtain ⟨hmain, hloop, hout⟩ := hp i
    have hlocal := he.1
    cases e with
    | accept m => exact absurd hlocal.2 (hout ▸ List.not_mem_nil)
    | connect ok => simp [Producer.Event.Enabled, hmain] at hlocal
    | build ok => simp [Producer.Event.Enabled, hmain] at hlocal
    | start ok => simp [Producer.Event.Enabled, hmain] at hlocal
    | incErrors => simp [Producer.Event.Enabled, hloop] at hlocal
    | incPublished => simp [Producer.Event.Enabled, hloop, Producer.Loop.pending] at hlocal
    | wake => simp [Producer.Event.Enabled, hloop] at hlocal
    | disconnect => simp [Producer.Event.Enabled, hmain] at hlocal
    | mainReturns => simp [Producer.Event.Enabled, hmain] at hlocal
    | _ => exact hquiet
  | consumer j e =>
    obtain ⟨hmain, hflight⟩ := hc j
    obtain ⟨hbuffer, hsleeping, hcounted, hacks⟩ := Consumer.inFlight_eq_zero.mp hflight
    have hlocal := he.1
    cases e with
    | deliver m =>
      obtain ⟨q, hqueue, _, hm⟩ := he.2
      exact absurd hm (hq q hqueue ▸ List.not_mem_nil)
    | callback m => exact absurd hlocal.2.2 (hbuffer ▸ List.not_mem_nil)
    | incConsumed m => exact absurd hlocal.2 (hsleeping ▸ List.not_mem_nil)
    | callbackReturns m => exact absurd hlocal.2 (hcounted ▸ List.not_mem_nil)
    | ack m => exact absurd hlocal.2 (hacks ▸ List.not_mem_nil)
    | loseAck m => exact absurd hlocal.2 (hacks ▸ List.not_mem_nil)
    | connect ok => simp [Consumer.Event.Enabled, hmain] at hlocal
    | build ok => simp [Consumer.Event.Enabled, hmain] at hlocal
    | start ok => simp [Consumer.Event.Enabled, hmain] at hlocal
    | receiveAsync ok => simp [Consumer.Event.Enabled, hmain] at hlocal
    | terminate => simp [Consumer.Event.Enabled, hmain] at hlocal
    | disconnect => simp [Consumer.Event.Enabled, hmain] at hlocal
    | mainReturns => simp [Consumer.Event.Enabled, hmain] at hlocal
    | _ => exact hquiet

section Totals
variable [Fintype ι] [Fintype κ]

structure State.Settling (D : Deployment) (s : State ι κ) : Prop where
  unstopped : s.Unstopped
  ledger : s.Ledger D []
  attended : s.Attended D

omit [DecidableEq ι] [DecidableEq κ] in
theorem settling_initial {queues : String → Option (Queue κ)} {q : Queue κ}
    (hq : queues D.receiver.queue = some q)
    (hsub : q.subscriptions.any (D.topicMatch · D.producer.topic) = true) (hempty : q.messages = [])
    (hunused : q.Unused) : (State.initial (ι := ι) D queues).Settling D where
  unstopped := unstopped_initial D queues
  ledger := hempty ▸ ledger_initial hq hsub
  attended := attended_initial fun _ hr => Option.some.inj (hq.symm.trans hr) ▸ hunused

theorem settling_step (hD : D.receiver.access = .exclusive) (e : Event ι κ) (s : State ι κ)
    (hu : e.Undisturbed) (he : e.Enabled D s) (hs : s.Settling D) : (e.apply D s).Settling D where
  unstopped := unstopped_step e s hu he hs.unstopped
  ledger := ledger_step e s (failureFree_of_unstopped hu he hs.unstopped) he hs.ledger
  attended := attended_step hD e s he hs.attended

theorem inTransit_of_stuck (hcreate : D.receiver.missingResources = .createOnStart)
    (hs : s.Settling D) (j : κ) (h : (machine ι κ D).Stuck Event.Quiet s) : s.inTransit D = 0 := by
  have hserv : s.Serviceable := ⟨⟨j, hs.unstopped.consumers j⟩, hs.unstopped.loud⟩
  obtain ⟨q, hq, hnil⟩ := undelivered_of_stuck hcreate hs.attended hserv h
  have houtbound : ∀ i, (s.producers i).outbound = [] :=
    fun i => outbound_of_stuck h (hs.ledger.balanced i)
  have huncounted : ∀ k, (s.consumers k).uncounted = 0 := by
    intro k
    have hmain := waits_of_coming hcreate h (hs.unstopped.consumers k)
    have hflight := inFlight_of_stuck h hmain (hs.unstopped.loud k)
    rw [Consumer.inFlight_eq_zero] at hflight
    simp [Consumer.Process.uncounted, hflight.1, hflight.2.1]
  simp [State.inTransit, State.undelivered, hq, hnil, houtbound, huncounted]

theorem totals_of_stuck (hcreate : D.receiver.missingResources = .createOnStart)
    (hs : s.Settling D) (j : κ) (h : (machine ι κ D).Stuck Event.Quiet s) :
    ∑ i, (s.producers i).publishedTotal = s.handed.length ∧
      ∑ k, (s.consumers k).consumedTotal = s.handed.length ∧ s.outstanding D = ∅ := by
  have htransit := inTransit_of_stuck hcreate hs j h
  have hpub := hs.ledger.published
  have hbalance := balance_of_ledger hs.ledger
  have hpending : ∑ i, (s.producers i).loop.pending = 0 :=
    Finset.sum_eq_zero fun i _ => pending_of_stuck h (hs.unstopped.producers i)
  rw [Finset.sum_add_distrib] at hpub
  rw [htransit, Multiset.card_zero, List.length_nil] at hbalance
  refine ⟨by omega, by omega, ?_⟩
  rw [outstanding_eq hs.ledger, htransit, Multiset.toFinset_zero]

/-- In a run in which nothing fails and no process is told to stop, from an empty
queue that is subscribed to TOPIC, let the producers publish no more at any
moment. If there is a consumer, then the processes and the broker come to rest
after a bounded number of steps, whatever their order, and at rest each total is
the number of messages handed over and nothing is outstanding. -/
theorem totals_meet (topicMatch : String → String → Bool) (pc : Producer.Config)
    (cc : Consumer.Config) {queues : String → Option (Queue κ)} {q : Queue κ}
    (hq : queues cc.queue = some q)
    (hsub : q.subscriptions.any (topicMatch · pc.topic) = true) (hempty : q.messages = [])
    (hunused : q.Unused) {es : List (Event ι κ)}
    (h : (machine ι κ (deploy topicMatch pc cc)).Run
      (.initial (deploy topicMatch pc cc) queues) es s)
    (hu : ∀ e ∈ es, e.Undisturbed) (j : κ) :
    let D := deploy topicMatch pc cc
    (∀ fs t, (machine ι κ D).Run s fs t → (∀ e ∈ fs, e.Quiet) →
        fs.length + t.stepsAhead D ≤ s.stepsAhead D) ∧
      (∃ t, (machine ι κ D).ReachableOn Event.Quiet s t ∧
        (machine ι κ D).Stuck Event.Quiet t) ∧
      ∀ t, (machine ι κ D).ReachableOn Event.Quiet s t → (machine ι κ D).Stuck Event.Quiet t →
        t.handed = s.handed ∧ ∑ i, (t.producers i).publishedTotal = s.handed.length ∧
          ∑ k, (t.consumers k).consumedTotal = s.handed.length ∧ t.outstanding D = ∅ := by
  intro D
  refine ⟨fun fs t hr hquiet => hr.length_add_le stepsAhead_step hquiet,
    Machine.exists_stuck stepsAhead_step s, ?_⟩
  intro t ht hrest
  obtain ⟨fs, hquiet, hr⟩ := ht
  have hundisturbed : ∀ e ∈ es ++ fs, e.Undisturbed := by
    intro e he
    exact (List.mem_append.mp he).elim (hu e) fun he => undisturbed_of_quiet (hquiet e he)
  have hsettling : t.Settling D := (h.append hr).invariant_on (settling_step rfl) hundisturbed
    (settling_initial hq hsub hempty hunused)
  have hhanded := run_handed_quiet hr hquiet
  have htotals := totals_of_stuck rfl hsettling j hrest
  rw [hhanded] at htotals
  exact ⟨hhanded, htotals⟩

def countedOnce : List (Event Unit Unit) := [.producer () .incPublished, .producer () .wake]

theorem totals_meet_countedOnce :
    let D := deploy (· == ·) (Producer.config fun _ => "") (Consumer.config fun _ => "")
    let q : Queue Unit := .create { D.receiver with subscriptions := [D.producer.topic] }
    let s := (machine Unit Unit D).final handledOnce (.initial D fun _ => some q)
    let t := (machine Unit Unit D).final countedOnce s
    (∀ fs t, (machine Unit Unit D).Run s fs t → (∀ e ∈ fs, e.Quiet) →
        fs.length + t.stepsAhead D ≤ s.stepsAhead D) ∧
      (∃ t, (machine Unit Unit D).ReachableOn Event.Quiet s t ∧
        (machine Unit Unit D).Stuck Event.Quiet t) ∧
      t.handed = s.handed ∧ ∑ i, (t.producers i).publishedTotal = s.handed.length ∧
        ∑ k, (t.consumers k).consumedTotal = s.handed.length ∧ t.outstanding D = ∅ := by
  intro D q s t
  have hr : (machine Unit Unit D).Run (.initial D fun _ => some q) handledOnce s :=
    Machine.Legal.run (by decide)
  have hr' : (machine Unit Unit D).Run s countedOnce t := Machine.Legal.run (by decide)
  have hundisturbed : ∀ e ∈ handledOnce, e.Undisturbed := by
    simp [handledOnce, producerStart, consumerStart, Event.Undisturbed,
      Producer.Event.Undisturbed, Consumer.Event.Undisturbed]
  have hquiet : ∀ e ∈ countedOnce, e.Quiet := by
    simp [countedOnce, Event.Quiet, Producer.Event.Quiet, Producer.Event.Undisturbed]
  have hrest : (machine Unit Unit D).Stuck Event.Quiet t := by
    refine stuck_of_idle (by decide) (fun k => ⟨rfl, ?_⟩) ?_
    · rw [Consumer.inFlight_eq_zero]
      revert k
      decide
    · intro r hqueue
      have hempty : (t.queue D).map (·.messages) = some [] := by decide
      rw [Option.mem_def.mp hqueue] at hempty
      exact Option.some.inj hempty
  obtain ⟨hbound, hstuck, htotals⟩ := totals_meet (· == ·) _ _ rfl (by decide) rfl
    (Queue.unused_create rfl) hr hundisturbed ()
  exact ⟨hbound, hstuck, htotals t ⟨countedOnce, hquiet, hr'⟩ hrest⟩

end Totals

end SolacePubSub
