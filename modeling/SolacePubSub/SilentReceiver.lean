import SolacePubSub.AtLeastOnce
import SolacePubSub.ActiveReceiver

/-!
# A receiver without a callback

`startConsumer` drops the error of `ReceiveAsync` and returns the receiver, so
that the process waits for a signal with no callback registered. Its receiver is
bound all the same. If it is the active one, everything the queue holds stays
where it is until that process goes away, and no counter shows it.
-/

namespace SolacePubSub

namespace Consumer

structure Process.Sound (p : Process) : Prop where
  unregistered : p.Starting ∨ p.main = .register → p.handler = false
  silent : p.handler = false →
    p.sleeping = [] ∧ p.counted = [] ∧ p.acks = [] ∧ p.consumedTotal = 0
  errors : p.main ≠ .fatal → p.consumeErrors = 0

theorem sound_fresh (epoch : ℕ) : (Process.fresh epoch).Sound :=
  ⟨fun _ => rfl, fun _ => ⟨rfl, rfl, rfl, rfl⟩, fun _ => rfl⟩

theorem sound_step (b : ReceiverBuilder) (e : Event) (p : Process) (he : e.Enabled p)
    (hp : p.Sound) : (e.apply b p).Sound := by
  obtain ⟨hunreg, hsilent, herr⟩ := hp
  cases e with
  | connect ok =>
    have h := herr (by simp [show p.main = .connect from he])
    exact ⟨fun _ => hunreg (.inl (.inl he)), hsilent, fun _ => h⟩
  | build ok =>
    have h := herr (by simp [show p.main = .build from he])
    cases ok with
    | true => exact ⟨fun _ => hunreg (.inl (.inr (.inl he))), hsilent, fun _ => h⟩
    | false => exact ⟨fun _ => hunreg (.inl (.inr (.inl he))), hsilent, fun hne => absurd rfl hne⟩
  | start ok =>
    have h := herr (by simp [show p.main = .start from he])
    cases ok with
    | true => exact ⟨fun _ => hunreg (.inl (.inr (.inr he))), hsilent, fun _ => h⟩
    | false => exact ⟨fun _ => hunreg (.inl (.inr (.inr he))), hsilent, fun hne => absurd rfl hne⟩
  | receiveAsync ok =>
    have h := herr (by simp [show p.main = .register from he])
    have hquiet := hsilent (hunreg (.inr he))
    exact ⟨by simp [Event.apply, Process.Starting], fun _ => hquiet, fun _ => h⟩
  | callback m =>
    refine ⟨hunreg, fun h => ?_, herr⟩
    have hhandler : p.handler = false := h
    rw [he.2.1] at hhandler
    exact absurd hhandler (by decide)
  | incConsumed m =>
    refine ⟨hunreg, fun h => ?_, herr⟩
    exact absurd he.2 ((hsilent h).1 ▸ List.not_mem_nil)
  | callbackReturns m =>
    refine ⟨hunreg, fun h => ?_, herr⟩
    exact absurd he.2 ((hsilent h).2.1 ▸ List.not_mem_nil)
  | ack m =>
    refine ⟨hunreg, fun h => ?_, herr⟩
    exact absurd he.2 ((hsilent h).2.2.1 ▸ List.not_mem_nil)
  | loseAck m =>
    refine ⟨hunreg, fun h => ?_, herr⟩
    exact absurd he.2 ((hsilent h).2.2.1 ▸ List.not_mem_nil)
  | sigterm =>
    have h := herr (by simp [show p.main = .wait from he])
    exact ⟨by simp [Event.apply, Process.Starting], hsilent, fun _ => h⟩
  | terminate =>
    have h := herr (by simp [show p.main = .terminate from he])
    exact ⟨by simp [Event.apply, Process.Starting], hsilent, fun _ => h⟩
  | disconnect =>
    have h := herr (by simp [show p.main = .disconnect from he])
    exact ⟨by simp [Event.apply, Process.Starting], hsilent, fun _ => h⟩
  | mainReturns =>
    have h := herr (by simp [show p.main = .closed from he])
    exact ⟨by simp [Event.apply, Process.stop, Process.Starting],
      fun hh => ⟨rfl, rfl, rfl, (hsilent hh).2.2.2⟩, fun _ => h⟩
  | die =>
    exact ⟨by simp [Event.apply, Process.stop, Process.Starting],
      fun hh => ⟨rfl, rfl, rfl, (hsilent hh).2.2.2⟩, fun hne => absurd rfl hne⟩
  | launch => exact sound_fresh (p.epoch + 1)
  | deliver m => exact ⟨hunreg, hsilent, herr⟩
  | reconnect keep => exact ⟨hunreg, hsilent, herr⟩

structure Process.Silent (p : Process) : Prop where
  main : p.main = .wait ∨ p.main = .terminate
  handler : p.handler = false

theorem silent_apply {b : ReceiverBuilder} {p : Process} {e : Event} (he : e.Enabled p)
    (hp : p.Silent) (hends : ¬ e.Ends) : (e.apply b p).Silent := by
  obtain ⟨hmain, hhandler⟩ := hp
  cases e with
  | connect ok => rcases hmain with h | h <;> simp [Event.Enabled, h] at he
  | build ok => rcases hmain with h | h <;> simp [Event.Enabled, h] at he
  | start ok => rcases hmain with h | h <;> simp [Event.Enabled, h] at he
  | receiveAsync ok => rcases hmain with h | h <;> simp [Event.Enabled, h] at he
  | launch => rcases hmain with h | h <;> simp [Event.Enabled, Process.Alive, h] at he
  | sigterm => exact ⟨.inr rfl, hhandler⟩
  | terminate => exact absurd trivial hends
  | disconnect => exact absurd trivial hends
  | mainReturns => exact absurd trivial hends
  | die => exact absurd trivial hends
  | _ => exact ⟨hmain, hhandler⟩

end Consumer

variable {ι κ : Type*} [DecidableEq ι] [DecidableEq κ] {D : Deployment}

theorem run_sound {queues : String → Option (Queue κ)} {es : List (Event ι κ)} {s : State ι κ}
    (h : (machine ι κ D).Run (.initial D queues) es s) (j : κ) : (s.consumers j).Sound := by
  have hr := run_consumer h j
  exact hr.invariant (Consumer.sound_step D.receiver) (Consumer.sound_fresh 0)

def Event.Unseats (j : κ) : Event ι κ → Prop
  | .producer _ _ => False
  | .consumer k e => k = j ∧ (e.Ends ∨ e.IsReconnect)

/-- The receivers other than `j` have in flight no more than they had in `s`, and
`j`, whose receiver is the active one, has no callback. -/
structure State.Blocked (D : Deployment) (t s : State ι κ) (j : κ) : Prop where
  exclusive : ∀ q ∈ t.queue D, q.Exclusive
  active : ∃ q ∈ t.queue D, q.bound.head? = some j
  silent : (t.consumers j).Silent
  sound : (t.consumers j).Sound
  others : ∀ k, k ≠ j → ∀ m ∈ (t.consumers k).inFlight, m ∈ (s.consumers k).inFlight

theorem blocked_step {s : State ι κ} {j : κ} (e : Event ι κ) (t : State ι κ)
    (hseat : ¬ e.Unseats j) (he : e.Enabled D t) (ht : t.Blocked D s j) :
    (e.apply D t).Blocked D s j := by
  obtain ⟨q, hq, hhead⟩ := ht.active
  cases e with
  | producer i e =>
    refine ⟨?_, ⟨q.route D.topicMatch e.accepted, by simp [Option.mem_def.mp hq], hhead⟩,
      ht.silent, ht.sound, ht.others⟩
    rw [queue_producer, Option.mem_def.mp hq]
    intro r hr
    rw [← Option.some.inj hr]
    exact Queue.exclusive_route (ht.exclusive q hq) D.topicMatch e.accepted
  | consumer k e =>
    obtain ⟨hlocal, hallows⟩ := he
    rw [Option.mem_def.mp hq] at hallows
    have hkeep : k = j → ¬ (e.Ends ∨ e.IsReconnect) := fun hk hgone => hseat ⟨hk, hgone⟩
    have hqueue : ((Event.consumer (ι := ι) k e).apply D t).queue D = some (q.follow k e) := by
      simp [Option.mem_def.mp hq]
    refine ⟨?_, ⟨q.follow k e, hqueue, Queue.head_follow hhead hkeep⟩, ?_, ?_, ?_⟩
    · rw [hqueue]
      intro r hr
      rw [← Option.some.inj hr]
      exact Queue.exclusive_follow (ht.exclusive q hq) hallows
    · rw [consumers_consumer]
      by_cases hk : k = j
      · subst k
        rw [Function.update_self]
        exact Consumer.silent_apply hlocal ht.silent fun hends => hkeep rfl (.inl hends)
      · rw [Function.update_of_ne (Ne.symm hk)]
        exact ht.silent
    · rw [consumers_consumer]
      by_cases hk : k = j
      · subst k
        rw [Function.update_self]
        exact Consumer.sound_step D.receiver e _ hlocal ht.sound
      · rw [Function.update_of_ne (Ne.symm hk)]
        exact ht.sound
    · intro l hl m hm
      rw [consumers_consumer] at hm
      by_cases hlk : l = k
      · subst l
        rw [Function.update_self] at hm
        have hnone : e.delivered = [] := by
          refine Queue.delivered_of_not_head (q := some q) ?_ ?_ hallows
          · exact fun r hr => ht.exclusive r (hq.trans hr)
          · exact fun hl' => hl (Option.some.inj (hl'.symm.trans hhead))
        have happly := Consumer.inFlight_apply (b := D.receiver) hlocal
        rw [hnone, Multiset.coe_nil, add_zero] at happly
        apply ht.others k hl
        exact Multiset.mem_of_le happly (Multiset.mem_add.mpr (.inl hm))
      · rw [Function.update_of_ne hlk] at hm
        exact ht.others l hl m hm

theorem run_blocked {s t : State ι κ} {j : κ} {es : List (Event ι κ)}
    (h : (machine ι κ D).Run s es t) (hseat : ∀ e ∈ es, ¬ e.Unseats j) (hs : s.Blocked D s j) :
    t.Blocked D s j :=
  h.invariant_on (P := fun e => ¬ e.Unseats j) blocked_step hseat hs

theorem increments_step {s t : State ι κ} {j : κ} {e : Event ι κ} (he : e.Enabled D t)
    (ht : t.Blocked D s j) : ∀ a ∈ (e.apply D t).increments,
      a ∈ t.increments ∨ a.pod ≠ j ∧ a.msg ∈ (s.consumers a.pod).inFlight := by
  intro a ha
  cases e with
  | producer i e => exact Or.inl ha
  | consumer k e =>
    rcases List.mem_append.mp ha with ha | ha
    · exact Or.inl ha
    · obtain ⟨m, hm, rfl⟩ := List.mem_map.mp ha
      have hsleeping := Consumer.sleeping_of_incremented he.1 hm
      have hk : k ≠ j := by
        intro hk
        subst k
        have hsilent := ht.sound.silent ht.silent.handler
        exact absurd hsleeping (hsilent.1 ▸ List.not_mem_nil)
      refine Or.inr ⟨hk, ht.others k hk m ?_⟩
      simp [Consumer.Process.inFlight, Consumer.Process.uncounted, hsleeping]

theorem held_step {s t : State ι κ} {j : κ} {e : Event ι κ} {m : Message} (he : e.Enabled D t)
    (ht : t.Blocked D s j) (hm : ∀ k, k ≠ j → m ∉ (s.consumers k).inFlight) (hheld : t.Held D m) :
    (e.apply D t).Held D m := by
  obtain ⟨q, hq, hm'⟩ := hheld
  cases e with
  | producer i e =>
    exact ⟨_, by simp [Option.mem_def.mp hq], Queue.holds_route hm' D.topicMatch e.accepted⟩
  | consumer k e =>
    refine ⟨q.follow k e, by simp [Option.mem_def.mp hq], Queue.holds_follow hm' k ?_⟩
    intro hack
    have hacks := Consumer.acks_of_acknowledged he.1 hack
    by_cases hk : k = j
    · subst k
      have hsilent := ht.sound.silent ht.silent.handler
      exact absurd hacks (hsilent.2.2.1 ▸ List.not_mem_nil)
    · apply hm k hk
      apply ht.others k hk
      simp [Consumer.Process.inFlight, hacks]

theorem stored_step {t : State ι κ} {e : Event ι κ} {m : Message}
    (h : m ∈ (e.apply D t).stored) : m ∈ t.stored ∨ (e.apply D t).Held D m := by
  cases e with
  | consumer k e => exact Or.inl h
  | producer i e =>
    rcases List.mem_append.mp h with h | h
    · exact Or.inl h
    · cases hq : t.queue D with
      | none =>
        rw [hq] at h
        exact absurd h List.not_mem_nil
      | some q =>
        rw [hq] at h
        exact Or.inr ⟨_, by simp [hq], Queue.holds_taken h⟩

/-- Once the active receiver is one whose callback was not registered, then until
it is unseated the queue keeps every message it holds or is sent, but for those
already in flight with other receivers; only these are counted any more. The
process meanwhile waits for a signal with both its counters at zero. -/
theorem silent_blocks (topicMatch : String → String → Bool) (pc : Producer.Config)
    (cc : Consumer.Config) {queues : String → Option (Queue κ)}
    (hunused : ∀ q ∈ queues cc.queue, q.Unused) {es : List (Event ι κ)} {s : State ι κ}
    (h : (machine ι κ (deploy topicMatch pc cc)).Run
      (.initial (deploy topicMatch pc cc) queues) es s)
    {q : Queue κ} (hq : s.queue (deploy topicMatch pc cc) = some q) {j : κ}
    (hhead : q.bound.head? = some j) (hsilent : (s.consumers j).Silent)
    {fs : List (Event ι κ)} {t : State ι κ}
    (h' : (machine ι κ (deploy topicMatch pc cc)).Run s fs t)
    (hseat : ∀ e ∈ fs, ¬ e.Unseats j) :
    (∀ m ∈ t.stored, (m ∈ s.stored → s.Held (deploy topicMatch pc cc) m) →
        (∀ k, k ≠ j → m ∉ (s.consumers k).inFlight) → t.Held (deploy topicMatch pc cc) m) ∧
      (∀ a ∈ t.increments, a ∈ s.increments ∨
        a.pod ≠ j ∧ a.msg ∈ (s.consumers a.pod).inFlight) ∧
      (t.consumers j).Silent ∧ (t.consumers j).consumedTotal = 0 ∧
        (t.consumers j).consumeErrors = 0 := by
  have hs := run_attended rfl hunused h
  have hblocked : s.Blocked (deploy topicMatch pc cc) s j :=
    ⟨hs.exclusive, ⟨q, hq, hhead⟩, hsilent, run_sound h j, fun _ _ _ hm => hm⟩
  have ht := run_blocked h' hseat hblocked
  refine ⟨?_, ?_, ht.silent, (ht.sound.silent ht.silent.handler).2.2.2, ?_⟩
  · intro m hm hstart hothers
    have hkeep : t.Blocked (deploy topicMatch pc cc) s j ∧
        (m ∈ t.stored → t.Held (deploy topicMatch pc cc) m) := by
      refine h'.invariant_on (P := fun e => ¬ e.Unseats j)
        (I := fun u => u.Blocked (deploy topicMatch pc cc) s j ∧
          (m ∈ u.stored → u.Held (deploy topicMatch pc cc) m)) ?_ hseat ⟨hblocked, hstart⟩
      intro e u hu he hI
      refine ⟨blocked_step e u hu he hI.1, ?_⟩
      intro hstored
      rcases stored_step hstored with hold | hnew
      · exact held_step he hI.1 hothers (hI.2 hold)
      · exact hnew
    exact hkeep.2 hm
  · have hcount : t.Blocked (deploy topicMatch pc cc) s j ∧ ∀ a ∈ t.increments,
        a ∈ s.increments ∨ a.pod ≠ j ∧ a.msg ∈ (s.consumers a.pod).inFlight := by
      refine h'.invariant_on (P := fun e => ¬ e.Unseats j)
        (I := fun u => u.Blocked (deploy topicMatch pc cc) s j ∧ ∀ a ∈ u.increments,
          a ∈ s.increments ∨ a.pod ≠ j ∧ a.msg ∈ (s.consumers a.pod).inFlight) ?_ hseat
        ⟨hblocked, fun a ha => Or.inl ha⟩
      intro e u hu he hI
      refine ⟨blocked_step e u hu he hI.1, ?_⟩
      intro a ha
      rcases increments_step he hI.1 a ha with hold | hnew
      · exact hI.2 a hold
      · exact Or.inr hnew
    exact hcount.2
  · apply ht.sound.errors
    rcases ht.silent.main with hmain | hmain <;> simp [hmain]

def silentStart (j k : κ) : List (Event Unit κ) :=
  [.consumer j (.connect true), .consumer j (.build true), .consumer j (.start true),
    .consumer j (.receiveAsync false)] ++ consumerStart k ++ producerStart ()

def publishOne : List (Event Unit κ) :=
  [.producer () (.publish 0 Producer.leastPrice), .producer () .incPublished,
    .producer () (.accept (Producer.message (Producer.config fun _ => "") 0 Producer.leastPrice))]

theorem silent_blocks_publishOne :
    let D := deploy (· == ·) (Producer.config fun _ => "") (Consumer.config fun _ => "")
    let queues : String → Option (Queue (Fin 2)) := fun _ =>
      some (.create { D.receiver with subscriptions := [D.producer.topic] })
    let s := (machine Unit (Fin 2) D).final (silentStart 0 1) (.initial D queues)
    let t := (machine Unit (Fin 2) D).final publishOne s
    (∀ m ∈ t.stored, (m ∈ s.stored → s.Held D m) →
        (∀ k, k ≠ 0 → m ∉ (s.consumers k).inFlight) → t.Held D m) ∧
      (∀ a ∈ t.increments, a ∈ s.increments ∨
        a.pod ≠ 0 ∧ a.msg ∈ (s.consumers a.pod).inFlight) ∧
      (t.consumers 0).Silent ∧ (t.consumers 0).consumedTotal = 0 ∧
        (t.consumers 0).consumeErrors = 0 := by
  intro D queues s t
  have hunused : ∀ q ∈ queues D.receiver.queue, q.Unused :=
    fun q hq => Option.some.inj hq ▸ Queue.unused_create rfl
  have hr : (machine Unit (Fin 2) D).Run (.initial D queues) (silentStart 0 1) s :=
    Machine.Legal.run (by decide)
  have hr' : (machine Unit (Fin 2) D).Run s publishOne t := Machine.Legal.run (by decide)
  exact silent_blocks (· == ·) _ _ hunused hr rfl rfl ⟨.inl rfl, rfl⟩ hr'
    (by simp [publishOne, Event.Unseats])

end SolacePubSub
