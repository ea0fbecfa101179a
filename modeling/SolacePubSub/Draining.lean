import SolacePubSub.ProducerAccounting
import SolacePubSub.MessageFates
import SolacePubSub.Recovery
import SolacePubSub.QuietSteps
import SolacePubSub.Lib.RunVariant

/-!
# Draining

What follows once the producers publish no more, nothing fails any more and no
process is told to stop, while those that were told before shut down. The
processes and the broker then come to rest after a bounded number of steps,
whatever their order, and at rest every message that reached the queue has been
handled to the end, provided that a consumer stays and none of those that stay
has lost its callback.
-/

namespace SolacePubSub

namespace Consumer

theorem mem_inFlight {p : Process} {m : Message} :
    m ∈ p.inFlight ↔ m ∈ p.buffer ∨ m ∈ p.sleeping ∨ m ∈ p.counted ∨ m ∈ p.acks := by
  simp [Process.inFlight, Process.uncounted]

theorem inFlight_kept {b : ReceiverBuilder} {p : Process} {e : Event} {m : Message}
    (hends : ¬ e.Ends) (hreconnect : ¬ e.IsReconnect) (hlaunch : e ≠ .launch)
    (h : m ∈ p.inFlight ∨ m ∈ e.delivered) :
    m ∈ (e.apply b p).inFlight ∨ m ∈ e.finished ∨ m ∈ p.acks := by
  rw [mem_inFlight] at h ⊢
  cases e with
  | deliver n => grind [Event.apply, Event.delivered]
  | callback n => grind [Event.apply, Event.delivered]
  | incConsumed n => grind [Event.apply, Event.delivered]
  | callbackReturns n => grind [Event.apply, Event.delivered, Event.finished]
  | ack n => grind [Event.apply, Event.delivered]
  | loseAck n => grind [Event.apply, Event.delivered]
  | build ok => cases ok <;> exact Or.inl (h.resolve_right List.not_mem_nil)
  | start ok => cases ok <;> exact Or.inl (h.resolve_right List.not_mem_nil)
  | reconnect keep => exact absurd trivial hreconnect
  | terminate => exact absurd trivial hends
  | mainReturns => exact absurd trivial hends
  | die => exact absurd trivial hends
  | launch => exact absurd rfl hlaunch
  | _ => exact Or.inl (h.resolve_right List.not_mem_nil)

def Process.Coming (p : Process) : Prop := p.Starting ∨ p.main = .register ∨ p.main = .wait

theorem Process.Coming.closing {p : Process} (hp : p.Coming) : p.main.closing = 0 := by
  rcases hp with (h | h | h) | h | h <;> rw [h] <;> rfl

theorem coming_apply {b : ReceiverBuilder} {p : Process} {e : Event} (he : e.Enabled p)
    (hu : e.Undisturbed) (hp : p.Coming) : (e.apply b p).Coming := by
  have hends : ¬ e.Ends := by
    intro hends
    rcases closing_apply (b := b) he hu with h | h
    · exact h.2 hends
    · rw [hp.closing] at h
      exact Nat.succ_ne_zero _ h.1
  cases e with
  | connect ok =>
    rw [show ok = true from hu]
    exact Or.inl (Or.inr (Or.inl rfl))
  | build ok =>
    rw [show ok = true from hu]
    exact Or.inl (Or.inr (Or.inr rfl))
  | start ok =>
    rw [show ok = true from hu]
    exact Or.inr (Or.inl rfl)
  | receiveAsync ok => exact Or.inr (Or.inr rfl)
  | terminate => exact absurd trivial hends
  | disconnect => exact absurd trivial hends
  | mainReturns => exact absurd trivial hends
  | sigterm => exact hu.elim
  | die => exact hu.elim
  | launch => exact hu.elim
  | _ => exact hp

def Process.Loud (p : Process) : Prop := p.main = .wait → p.handler = true

theorem loud_apply {b : ReceiverBuilder} {p : Process} {e : Event} (hu : e.Undisturbed)
    (hp : p.Loud) : (e.apply b p).Loud := by
  intro hmain
  cases e with
  | connect ok => cases ok <;> simp [Event.apply] at hmain
  | build ok => cases ok <;> simp [Event.apply, Process.startFails] at hmain
  | start ok => cases ok <;> simp [Event.apply, Process.startFails] at hmain
  | receiveAsync ok => exact hu
  | terminate => simp [Event.apply] at hmain
  | disconnect => simp [Event.apply] at hmain
  | mainReturns => simp [Event.apply, Process.stop] at hmain
  | sigterm => exact hu.elim
  | die => exact hu.elim
  | launch => exact hu.elim
  | _ => exact hp hmain

end Consumer

variable {ι κ : Type*}

def State.Accounted (D : Deployment) (s : State ι κ) : Prop :=
  ∀ q ∈ s.queue D, ∀ j, ∀ m ∈ q.unacked j, m ∈ (s.consumers j).inFlight ∨ s.Finished m

theorem accounted_initial {D : Deployment} {queues : String → Option (Queue κ)}
    (hq : ∀ q ∈ queues D.receiver.queue, q.Unused) :
    (State.initial (ι := ι) D queues).Accounted D := by
  intro q hqueue j m hm
  rw [(hq q hqueue).unacked j] at hm
  exact absurd hm List.not_mem_nil

section Step
variable [DecidableEq ι] [DecidableEq κ] {D : Deployment}

theorem unacked_of_ends (q : Queue κ) (j : κ) {e : Consumer.Event} (h : e.Ends ∨ e.IsReconnect) :
    (q.follow j e).unacked j = [] := by
  cases e with
  | reconnect keep => simp [Queue.follow, Queue.bind, Queue.release]
  | terminate => simp [Queue.follow, Queue.release]
  | disconnect => simp [Queue.follow, Queue.release]
  | mainReturns => simp [Queue.follow, Queue.release]
  | die => simp [Queue.follow, Queue.release]
  | _ => exact (h.elim id id).elim

theorem accounted_consumer {s : State ι κ} (ha : s.Attended D) (hl : s.CallbacksLogged)
    (hs : s.Accounted D) {j : κ} {e : Consumer.Event}
    (he : (Event.consumer (ι := ι) j e).Enabled D s) :
    ((Event.consumer (ι := ι) j e).apply D s).Accounted D := by
  intro r hr k m hm
  rw [queue_consumer] at hr
  cases hq : s.queue D with
  | none =>
    rw [hq] at hr
    rw [Queue.eq_of_followOrCreate_none hr] at hm
    exact absurd hm List.not_mem_nil
  | some q =>
    rw [hq, Queue.followOrCreate_some] at hr
    rw [← Option.some.inj hr] at hm
    rw [consumers_consumer]
    by_cases hk : k = j
    · subst k
      rw [Function.update_self]
      by_cases hgone : e.Ends ∨ e.IsReconnect
      · rw [unacked_of_ends q j hgone] at hm
        exact absurd hm List.not_mem_nil
      · obtain ⟨hends, hreconnect⟩ := not_or.mp hgone
        have hle : ((q.follow j e).unacked j : Multiset Message) ≤
            ↑(q.unacked j) + ↑e.delivered := by
          rw [Queue.unacked_follow q j hends hreconnect]
          exact Multiset.sub_le_self _ _
        have hold := Multiset.mem_add.mp (Multiset.mem_of_le hle hm)
        have hlaunch : e ≠ .launch := by
          -- A process that has ended left nothing unacknowledged.
          rintro rfl
          have hunacked := hold.resolve_right (Multiset.notMem_zero m)
          have hactive := (ha.exclusive q hq).active j (List.ne_nil_of_mem hunacked)
          have hrecv := (ha.receiving j).mpr ⟨q, hq, List.mem_of_mem_head? hactive⟩
          exact he.1 (alive_of_receiving hrecv)
        have hflight : (m ∈ (s.consumers j).inFlight ∨ m ∈ e.delivered) ∨ s.Finished m := by
          rcases hold with hold | hold
          · exact (hs q hq j m hold).imp_left Or.inl
          · exact Or.inl (Or.inr hold)
        rcases hflight with hflight | hfin
        · rcases Consumer.inFlight_kept (b := D.receiver) hends hreconnect hlaunch hflight with
            h | h | h
          · exact Or.inl h
          · have hcounted := hl.counted j m (Consumer.counted_of_finished he.1 h)
            exact Or.inr ⟨(s.consumers j).handle j m, List.mem_append_left _ hcounted,
              List.mem_append_right _ (List.mem_map_of_mem h), rfl⟩
          · exact Or.inr (finished_consumer (hl.acks j m h) j e)
        · exact Or.inr (finished_consumer hfin j e)
    · rw [Queue.unacked_follow_of_ne q hk] at hm
      rw [Function.update_of_ne hk]
      exact (hs q hq k m hm).imp_right fun h => finished_consumer h j e

theorem accounted_step (e : Event ι κ) (s : State ι κ) (he : e.Enabled D s)
    (ha : s.Attended D) (hl : s.CallbacksLogged) (hs : s.Accounted D) :
    (e.apply D s).Accounted D := by
  cases e with
  | producer i e =>
    rw [State.Accounted, queue_producer]
    intro r hr j m hm
    obtain ⟨q, hq, rfl⟩ := Option.map_eq_some_iff.mp hr
    exact hs q hq j m hm
  | consumer j e => exact accounted_consumer ha hl hs he

theorem run_accounted (hD : D.receiver.access = .exclusive) {queues : String → Option (Queue κ)}
    (hq : ∀ q ∈ queues D.receiver.queue, q.Unused) {s : State ι κ}
    (h : (machine ι κ D).Reachable (.initial D queues) s) : s.Accounted D := by
  have hall : s.Attended D ∧ s.CallbacksLogged ∧ s.Accounted D := by
    refine h.invariant (I := fun t => t.Attended D ∧ t.CallbacksLogged ∧ t.Accounted D) ?_
      ⟨attended_initial hq, callbacksLogged_initial D queues, accounted_initial hq⟩
    intro e t he ht
    obtain ⟨ha, hl, hc⟩ := ht
    exact ⟨attended_step hD e t he ha, callbacksLogged_step D e t he hl,
      accounted_step e t he ha hl hc⟩
  exact hall.2.2

structure State.Serviceable (s : State ι κ) : Prop where
  coming : ∃ j, (s.consumers j).Coming
  loud : ∀ j, (s.consumers j).Loud

theorem serviceable_step (e : Event ι κ) (s : State ι κ) (hquiet : e.Quiet) (he : e.Enabled D s)
    (hs : s.Serviceable) : (e.apply D s).Serviceable := by
  cases e with
  | producer i e => exact ⟨hs.coming, hs.loud⟩
  | consumer j e =>
    obtain ⟨k, hk⟩ := hs.coming
    refine ⟨⟨k, ?_⟩, ?_⟩
    · rw [consumers_consumer]
      by_cases hkj : k = j
      · subst k
        rw [Function.update_self]
        exact Consumer.coming_apply he.1 hquiet hk
      · rw [Function.update_of_ne hkj]
        exact hk
    · rw [consumers_consumer]
      rw [Function.forall_update_iff s.consumers (p := fun _ p => p.Loud)]
      exact ⟨Consumer.loud_apply hquiet (hs.loud j), fun l _ => hs.loud l⟩

variable {s : State ι κ}

theorem not_enabled_of_stuck (h : (machine ι κ D).Stuck Event.Quiet s) {j : κ}
    {e : Consumer.Event} (hu : e.Undisturbed) (hallows : Queue.Allows D.receiver j (s.queue D) e) :
    ¬ e.Enabled (s.consumers j) :=
  fun he => h (.consumer j e) hu ⟨he, hallows⟩

theorem waits_of_receiving (h : (machine ι κ D).Stuck Event.Quiet s) {j : κ}
    (hj : (s.consumers j).Receiving) : (s.consumers j).main = .wait := by
  rcases hj with hmain | hmain | hmain
  · exact absurd hmain (not_enabled_of_stuck h (e := .receiveAsync true) rfl trivial)
  · exact hmain
  · exact absurd hmain (not_enabled_of_stuck h (e := .terminate) trivial trivial)

theorem waits_of_coming (hcreate : D.receiver.missingResources = .createOnStart)
    (h : (machine ι κ D).Stuck Event.Quiet s) {j : κ} (hj : (s.consumers j).Coming) :
    (s.consumers j).main = .wait := by
  rcases hj with (hmain | hmain | hmain) | hmain | hmain
  · exact absurd hmain (not_enabled_of_stuck h (e := .connect true) rfl trivial)
  · exact absurd hmain (not_enabled_of_stuck h (e := .build true) rfl trivial)
  · exact absurd hmain (not_enabled_of_stuck h (e := .start true) rfl (Or.inr hcreate))
  · exact absurd hmain (not_enabled_of_stuck h (e := .receiveAsync true) rfl trivial)
  · exact hmain

theorem inFlight_of_stuck (h : (machine ι κ D).Stuck Event.Quiet s) {j : κ}
    (hmain : (s.consumers j).main = .wait) (hloud : (s.consumers j).Loud) :
    (s.consumers j).inFlight = 0 := by
  have halive : (s.consumers j).Alive := by simp [Consumer.Process.Alive, hmain]
  rw [Consumer.inFlight_eq_zero]
  refine ⟨?_, ?_, ?_, ?_⟩ <;> rw [List.eq_nil_iff_forall_not_mem] <;> intro m hm
  · exact not_enabled_of_stuck h (e := .callback m) trivial trivial ⟨halive, hloud hmain, hm⟩
  · exact not_enabled_of_stuck h (e := .incConsumed m) trivial trivial ⟨halive, hm⟩
  · exact not_enabled_of_stuck h (e := .callbackReturns m) trivial trivial ⟨halive, hm⟩
  · exact not_enabled_of_stuck h (e := .ack m) trivial trivial ⟨halive, hm⟩

theorem undelivered_of_stuck (hcreate : D.receiver.missingResources = .createOnStart)
    (ha : s.Attended D) (hs : s.Serviceable) (h : (machine ι κ D).Stuck Event.Quiet s) :
    ∃ q, s.queue D = some q ∧ q.messages = [] := by
  obtain ⟨j, hj⟩ := hs.coming
  have hrecv : (s.consumers j).Receiving := Or.inr (Or.inl (waits_of_coming hcreate h hj))
  obtain ⟨q, hq, hbound⟩ := (ha.receiving j).mp hrecv
  have hactive := List.head?_eq_some_head (List.ne_nil_of_mem hbound)
  have hhead := (ha.receiving _).mpr ⟨q, hq, List.mem_of_mem_head? hactive⟩
  have hpermits : Permits q.access q.bound (q.bound.head (List.ne_nil_of_mem hbound)) := by
    rw [(ha.exclusive q hq).access]
    exact hactive
  refine ⟨q, hq, List.eq_nil_iff_forall_not_mem.mpr ?_⟩
  intro m hm
  exact not_enabled_of_stuck h (e := .deliver m) trivial ⟨q, hq, hpermits, hm⟩ hhead

theorem finished_of_stuck (hcreate : D.receiver.missingResources = .createOnStart)
    (ha : s.Attended D) (hc : s.Accounted D) (hs : s.Serviceable)
    (h : (machine ι κ D).Stuck Event.Quiet s) {m : Message} (hm : s.Held D m) : s.Finished m := by
  obtain ⟨q, hq, hnil⟩ := undelivered_of_stuck hcreate ha hs h
  obtain ⟨r, hr, hmem⟩ := hm
  rw [Option.mem_def, hq] at hr
  rw [← Option.some.inj hr] at hmem
  rcases hmem with hmem | ⟨k, hmem⟩
  · exact absurd (hnil ▸ hmem) List.not_mem_nil
  · have hhead := (ha.exclusive q hq).active k (List.ne_nil_of_mem hmem)
    have hk := (ha.receiving k).mpr ⟨q, hq, List.mem_of_mem_head? hhead⟩
    have hnone := inFlight_of_stuck h (waits_of_receiving h hk) (hs.loud k)
    refine (hc q hq k m hmem).resolve_left ?_
    rw [hnone]
    exact Multiset.notMem_zero m

theorem outbound_of_stuck (h : (machine ι κ D).Stuck Event.Quiet s) {i : ι}
    (hb : (s.producers i).Balanced) : (s.producers i).outbound = [] := by
  by_contra hne
  obtain ⟨halive, hloop⟩ := hb.buffered hne
  have hstarted := Producer.started_of_loop hb hloop
  obtain ⟨m, hm⟩ := List.exists_mem_of_ne_nil _ hne
  cases hmain : (s.producers i).main with
  | connect => exact hstarted (Or.inl hmain)
  | build => exact hstarted (Or.inr (Or.inl hmain))
  | start => exact hstarted (Or.inr (Or.inr hmain))
  | wait => exact h (.producer i (.accept m)) trivial ⟨⟨Or.inl hmain, hm⟩, trivial⟩
  | disconnect => exact h (.producer i .disconnect) trivial ⟨hmain, trivial⟩
  | closed => exact h (.producer i .mainReturns) trivial ⟨hmain, trivial⟩
  | returned => exact halive.1 hmain
  | fatal => exact halive.2 hmain

end Step

section Rest
variable [Fintype ι] [Fintype κ] [DecidableEq ι] [DecidableEq κ]

/-- From every state that any failures may lead to, once nothing is published,
nothing fails and no further process is told to stop, the processes and the
broker come to rest after a bounded number of steps, whatever their order, with
no message left in an outbound buffer. If moreover some consumer is up or on its
way and stays, and every one that waits has its callback, then at rest every
message that was ever stored on the queue has been handled to the end. -/
theorem quiet_drains (topicMatch : String → String → Bool) (pc : Producer.Config)
    (cc : Consumer.Config) {queues : String → Option (Queue κ)}
    (hq : ∀ q ∈ queues cc.queue, q.Unused) {s : State ι κ}
    (h : (machine ι κ (deploy topicMatch pc cc)).Reachable
      (.initial (deploy topicMatch pc cc) queues) s) :
    let D := deploy topicMatch pc cc
    (∀ es t, (machine ι κ D).Run s es t → (∀ e ∈ es, e.Quiet) →
        es.length + t.stepsAhead D ≤ s.stepsAhead D) ∧
      (∃ t, (machine ι κ D).ReachableOn Event.Quiet s t ∧
        (machine ι κ D).Stuck Event.Quiet t) ∧
      ∀ t, (machine ι κ D).ReachableOn Event.Quiet s t → (machine ι κ D).Stuck Event.Quiet t →
        (∀ i, (t.producers i).outbound = []) ∧
          (s.Serviceable → ∀ m ∈ t.stored, t.Finished m) := by
  intro D
  refine ⟨fun es t hr hquiet => hr.length_add_le stepsAhead_step hquiet,
    Machine.exists_stuck stepsAhead_step s, ?_⟩
  intro t ht hstuck
  obtain ⟨es, hr⟩ := h
  obtain ⟨fs, hquiet, hr'⟩ := ht
  have htotal := hr.append hr'
  refine ⟨fun i => outbound_of_stuck hstuck (run_producers_balanced htotal i), ?_⟩
  intro hs m hm
  have hserv : t.Serviceable := hr'.invariant_on serviceable_step hquiet hs
  have hsteps := refines_channel htotal (callbacksLogged_initial D queues)
  rcases DeliveryChannel.safe_of_steps hsteps (channel_initial_safe D queues) hm with hheld | hfin
  · exact finished_of_stuck rfl (run_attended rfl hq htotal)
      (run_accounted rfl hq ⟨_, htotal⟩) hserv hstuck hheld
  · exact hfin

/-- The consumer that handles the message is told to stop, and another one stays. -/
def stopping (j k : κ) : List (Event Unit κ) := failover j k ++ [.consumer j .launch] ++
  consumerStart j ++ [.consumer k .sigterm]

theorem quiet_drains_stopping :
    let D := deploy (· == ·) (Producer.config fun _ => "") (Consumer.config fun _ => "")
    let queues : String → Option (Queue (Fin 2)) := fun _ =>
      some (.create { D.receiver with subscriptions := [D.producer.topic] })
    let s := (machine Unit (Fin 2) D).final (stopping 0 1) (.initial D queues)
    (∀ es t, (machine Unit (Fin 2) D).Run s es t → (∀ e ∈ es, e.Quiet) →
        es.length + t.stepsAhead D ≤ s.stepsAhead D) ∧
      (∃ t, (machine Unit (Fin 2) D).ReachableOn Event.Quiet s t ∧
        (machine Unit (Fin 2) D).Stuck Event.Quiet t) ∧
      ∀ t, (machine Unit (Fin 2) D).ReachableOn Event.Quiet s t →
        (machine Unit (Fin 2) D).Stuck Event.Quiet t →
          (∀ i, (t.producers i).outbound = []) ∧ ∀ m ∈ t.stored, t.Finished m := by
  intro D queues s
  have hunused : ∀ q ∈ queues D.receiver.queue, q.Unused :=
    fun q hq => Option.some.inj hq ▸ Queue.unused_create rfl
  have hreach : (machine Unit (Fin 2) D).Reachable (.initial D queues) s :=
    ⟨stopping 0 1, Machine.Legal.run (by decide)⟩
  have hs : s.Serviceable :=
    ⟨⟨0, Or.inr (Or.inr (by decide))⟩, by unfold Consumer.Process.Loud; decide⟩
  obtain ⟨hbound, hrest, hend⟩ := quiet_drains (· == ·) _ _ hunused hreach
  refine ⟨hbound, hrest, ?_⟩
  intro t ht hstuck
  obtain ⟨hout, hfinished⟩ := hend t ht hstuck
  exact ⟨hout, hfinished hs⟩

end Rest

end SolacePubSub
