import SolacePubSub.AtLeastOnce
import SolacePubSub.ActiveReceiver

/-!
# Recovery by restart

Whatever has failed before, a stored message is never beyond reach: once the
bound consumers are stopped and any one consumer is started again, it can handle
and acknowledge all that the queue still holds.
-/

namespace SolacePubSub
variable {ι κ : Type*}

def Event.OfConsumer : Event ι κ → Prop
  | .producer _ _ => False
  | .consumer _ _ => True

variable {D : Deployment} {s t : State ι κ} {q : Queue κ} {j : κ}

structure State.ServedBy (D : Deployment) (s : State ι κ) (q : Queue κ) (j : κ) : Prop where
  queue : s.queue D = some q
  bound : q.bound = [j]
  unacked : q.unacked j = []
  main : (s.consumers j).main = .wait
  handler : (s.consumers j).handler = true

def State.Unbound (D : Deployment) (s : State ι κ) : Prop := ∀ q ∈ s.queue D, q.bound = []

theorem alive_of_receiving {p : Consumer.Process} (hp : p.Receiving) : p.Alive := by
  rcases hp with h | h | h <;> simp [Consumer.Process.Alive, h]

theorem not_held_of_drained (hs : s.Attended D) (hj : s.ServedBy D q j) (hm : q.messages = [])
    (m : Message) : ¬ s.Held D m := by
  intro hheld
  obtain ⟨r, hr, hmem | ⟨k, hmem⟩⟩ := hheld
  · rw [Option.mem_def, hj.queue] at hr
    rw [← Option.some.inj hr, hm] at hmem
    exact List.not_mem_nil hmem
  · have hactive := (hs.exclusive r hr).active k (List.ne_nil_of_mem hmem)
    rw [Option.mem_def, hj.queue] at hr
    rw [← Option.some.inj hr] at hactive hmem
    rw [hj.bound] at hactive
    rw [← Option.some.inj hactive, hj.unacked] at hmem
    exact List.not_mem_nil hmem

variable [DecidableEq ι] [DecidableEq κ]

def Repairs (D : Deployment) (s t : State ι κ) : Prop :=
  (machine ι κ D).ReachableOn Event.OfConsumer s t

theorem Repairs.of_run (es : List Consumer.Event)
    (h : (machine ι κ D).Run s (es.map (Event.consumer j)) t) : Repairs D s t := by
  refine ⟨_, ?_, h⟩
  intro e he
  obtain ⟨_, _, rfl⟩ := List.mem_map.mp he
  trivial

theorem Repairs.invariant {I : State ι κ → Prop}
    (step : ∀ (e : Event ι κ) u, e.Enabled D u → I u → I (e.apply D u)) (h : Repairs D s t)
    (hs : I s) : I t := by
  obtain ⟨es, _, hr⟩ := h
  exact hr.invariant step hs

theorem Repairs.stored (h : Repairs D s t) : t.stored = s.stored := by
  obtain ⟨es, hes, hr⟩ := h
  refine hr.invariant_on (I := fun u => u.stored = s.stored) ?_ hes rfl
  intro e u he _ hu
  cases e with
  | producer i e => exact he.elim
  | consumer j e => exact hu

theorem repairs_unbind (hs : s.Attended D) (hD : D.receiver.access = .exclusive) :
    ∃ t, Repairs D s t ∧ t.Unbound D := by
  induction hn : ((s.queue D).map (·.bound.length)).getD 0 using Nat.strong_induction_on
    generalizing s with
  | _ n ih =>
    by_cases hb : s.Unbound D
    · exact ⟨s, .refl s, hb⟩
    · obtain ⟨q, hq, hne⟩ : ∃ q, s.queue D = some q ∧ q.bound ≠ [] := by
        simpa [State.Unbound] using hb
      obtain ⟨k, hk⟩ := List.exists_mem_of_ne_nil _ hne
      have hrecv := (hs.receiving k).mpr ⟨q, hq, hk⟩
      have hdie : (Event.consumer (ι := ι) k .die).Enabled D s :=
        ⟨alive_of_receiving hrecv, trivial⟩
      have hstep : Repairs D s ((Event.consumer k .die).apply D s) :=
        .of_run [.die] (.cons hdie (.nil _))
      have hqueue : ((Event.consumer (ι := ι) k .die).apply D s).queue D = some (q.release k) := by
        simp [hq, Queue.follow]
      have hless : (q.release k).bound.length < n := by
        rw [← hn, hq]
        exact List.length_filter_lt_length_iff_exists.mpr ⟨k, hk, by simp⟩
      obtain ⟨t, ht, hnone⟩ :=
        ih _ hless (attended_step hD _ s hdie hs) (by rw [hqueue]; rfl)
      exact ⟨t, hstep.trans ht, hnone⟩

theorem repairs_end (hb : s.Unbound D) (j : κ) :
    ∃ t, Repairs D s t ∧ t.Unbound D ∧ ¬ (t.consumers j).Alive := by
  by_cases halive : (s.consumers j).Alive
  · refine ⟨_, .of_run [.die] (.cons ⟨halive, trivial⟩ (.nil _)), ?_, ?_⟩
    · intro r hr
      cases hq : s.queue D with
      | none => simp [hq, Queue.followOrCreate] at hr
      | some q =>
        have hrelease : q.release j = r := by simpa [hq, Queue.follow] using hr
        rw [← hrelease, Queue.release, hb q hq]
        rfl
    · simp [consumers_consumer, Consumer.Event.apply, Consumer.Process.stop,
        Consumer.Process.Alive]
  · exact ⟨s, .refl s, hb, halive⟩

theorem repairs_launch (hcreate : D.receiver.missingResources = .createOnStart)
    (hb : s.Unbound D) (hu : ∀ q ∈ s.queue D, q.unacked j = [])
    (hj : ¬ (s.consumers j).Alive) : ∃ t r, Repairs D s t ∧ t.ServedBy D r j := by
  refine ⟨_, ((s.queue D).getD (.create D.receiver)).bind j, .of_run [.launch, .connect true,
    .build true, .start true, .receiveAsync true] (.cons ⟨hj, trivial⟩ (.cons ?_ (.cons ?_
      (.cons ?_ (.cons ?_ (.nil _)))))), ?_⟩
  · simp [Event.Enabled, consumers_consumer, Consumer.Event.Enabled, Consumer.Event.apply,
      Consumer.Process.fresh, Queue.Allows]
  · simp [Event.Enabled, consumers_consumer, Consumer.Event.Enabled, Consumer.Event.apply,
      Queue.Allows]
  · simp [Event.Enabled, consumers_consumer, Consumer.Event.Enabled, Consumer.Event.apply,
      Queue.Allows, hcreate]
  · simp [Event.Enabled, consumers_consumer, Consumer.Event.Enabled, Consumer.Event.apply,
      Queue.Allows]
  · constructor
    · cases hq : s.queue D <;> simp [hq, Queue.followOrCreate, Queue.follow]
    · cases hq : s.queue D with
      | none => rfl
      | some q => simp [Queue.bind, hb q hq]
    · cases hq : s.queue D with
      | none => rfl
      | some q => exact hu q hq
    · simp [consumers_consumer, Consumer.Event.apply]
    · simp [consumers_consumer, Consumer.Event.apply]

theorem repairs_handle (hack : D.receiver.ack = .auto) (hs : s.ServedBy D q j) {m : Message}
    (hm : m ∈ q.messages) :
    ∃ t r, Repairs D s t ∧ t.ServedBy D r j ∧ r.messages = q.messages.erase m := by
  have hpermits : Permits q.access q.bound j := hs.bound ▸ permits_singleton q.access j
  have halive : (s.consumers j).Alive := by simp [Consumer.Process.Alive, hs.main]
  refine ⟨_, (q.deliver j m).acknowledge j m, .of_run [.deliver m, .callback m,
    .incConsumed m, .callbackReturns m, .ack m] (.cons ⟨.inr (.inl hs.main), ?_⟩ (.cons ?_
      (.cons ?_ (.cons ?_ (.cons ?_ (.nil _)))))), ?_, rfl⟩
  · exact ⟨q, hs.queue, hpermits, hm⟩
  · simp [Event.Enabled, consumers_consumer, Consumer.Event.Enabled, Consumer.Event.apply,
      Queue.Allows, Consumer.Process.Alive, hs.main, hs.handler]
  · simp [Event.Enabled, consumers_consumer, Consumer.Event.Enabled, Consumer.Event.apply,
      Queue.Allows, Consumer.Process.Alive, hs.main]
  · simp [Event.Enabled, consumers_consumer, Consumer.Event.Enabled, Consumer.Event.apply,
      Queue.Allows, Consumer.Process.Alive, hs.main]
  · simp [Event.Enabled, consumers_consumer, Consumer.Event.Enabled, Consumer.Event.apply,
      Queue.Allows, Consumer.Process.Alive, hs.main, hack, Consumer.AckMode.afterCallback]
  · constructor
    · simp [hs.queue, Queue.follow]
    · exact hs.bound
    · simp [Queue.acknowledge, Queue.deliver, hs.unacked]
    · simp [consumers_consumer, Consumer.Event.apply, hs.main]
    · simp [consumers_consumer, Consumer.Event.apply, hs.handler]

theorem repairs_drain (hack : D.receiver.ack = .auto) (hs : s.ServedBy D q j) :
    ∃ t r, Repairs D s t ∧ t.ServedBy D r j ∧ r.messages = [] := by
  induction hn : q.messages.length generalizing s q with
  | zero => exact ⟨s, q, .refl s, hs, List.length_eq_zero_iff.mp hn⟩
  | succ n ih =>
    obtain ⟨m, hm⟩ := List.exists_mem_of_length_pos (by omega : 0 < q.messages.length)
    obtain ⟨t, r, ht, hr, hless⟩ := repairs_handle hack hs hm
    have hlen : r.messages.length = n := by
      rw [hless, List.length_erase_of_mem hm, hn]
      rfl
    obtain ⟨u, p, hu, hp, hempty⟩ := ih hr hlen
    exact ⟨u, p, ht.trans hu, hp, hempty⟩

theorem repairs_served (hs : s.Attended D) (hD : D.receiver.access = .exclusive)
    (hack : D.receiver.ack = .auto) (hcreate : D.receiver.missingResources = .createOnStart)
    (j : κ) :
    ∃ t q, Repairs D s t ∧ t.ServedBy D q j ∧ ∀ m, ¬ t.Held D m := by
  obtain ⟨t₁, h₁, hb₁⟩ := repairs_unbind hs hD
  have hs₁ := h₁.invariant (attended_step hD) hs
  obtain ⟨t₂, h₂, hb₂, hdead⟩ := repairs_end hb₁ j
  have hs₂ := h₂.invariant (attended_step hD) hs₁
  -- With nobody bound, everything delivered is back on the queue.
  have hu₂ : ∀ q ∈ t₂.queue D, q.unacked j = [] := by
    intro q hq
    by_contra hne
    have hactive := (hs₂.exclusive q hq).active j hne
    rw [hb₂ q hq] at hactive
    exact Option.some_ne_none j hactive.symm
  obtain ⟨t₃, q₃, h₃, hserved₃⟩ := repairs_launch hcreate hb₂ hu₂ hdead
  have hs₃ := h₃.invariant (attended_step hD) hs₂
  obtain ⟨t, q, h₄, hserved, hempty⟩ := repairs_drain hack hserved₃
  have hs₄ := h₄.invariant (attended_step hD) hs₃
  exact ⟨t, q, h₁.trans (h₂.trans (h₃.trans h₄)), hserved,
    not_held_of_drained hs₄ hserved hempty⟩

/-- From every state that any failures may lead to, the consumers alone can
reach one in which the queue exists and `j` serves it, the queue holds nothing,
and each message ever stored on it has been handled to the end. -/
theorem recoverable (topicMatch : String → String → Bool) (pc : Producer.Config)
    (cc : Consumer.Config) {queues : String → Option (Queue κ)}
    (hq : ∀ q ∈ queues cc.queue, q.Unused)
    (h : (machine ι κ (deploy topicMatch pc cc)).Reachable
      (.initial (deploy topicMatch pc cc) queues) s) (j : κ) :
    ∃ t, Repairs (deploy topicMatch pc cc) s t ∧
      (∃ q, t.queue (deploy topicMatch pc cc) = some q ∧
        t.ServedBy (deploy topicMatch pc cc) q j) ∧
      (∀ m, ¬ t.Held (deploy topicMatch pc cc) m) ∧
      t.stored = s.stored ∧ ∀ m ∈ s.stored, t.Finished m := by
  obtain ⟨es, hr⟩ := h
  have hs := run_attended rfl hq hr
  obtain ⟨t, q, ht, hserved, hnone⟩ := repairs_served hs rfl rfl rfl j
  refine ⟨t, ht, ⟨q, hserved.queue, hserved⟩, hnone, ht.stored, ?_⟩
  intro m hm
  rw [← ht.stored] at hm
  obtain ⟨fs, _, hr'⟩ := ht
  have hsteps := refines_channel (hr.append hr') (callbacksLogged_initial _ queues)
  have hsafe := DeliveryChannel.safe_of_steps hsteps (channel_initial_safe _ queues)
  exact (hsafe hm).resolve_left (hnone m)

theorem recoverable_failover :
    let D := deploy (· == ·) (Producer.config fun _ => "") (Consumer.config fun _ => "")
    let queues : String → Option (Queue (Fin 2)) := fun _ =>
      some (.create { D.receiver with subscriptions := [D.producer.topic] })
    let s := (machine Unit (Fin 2) D).final (failover 0 1) (.initial D queues)
    ∃ t, Repairs D s t ∧ (∃ q, t.queue D = some q ∧ t.ServedBy D q 0) ∧
      (∀ m, ¬ t.Held D m) ∧ t.stored = s.stored ∧ ∀ m ∈ s.stored, t.Finished m := by
  intro D queues s
  have hunused : ∀ q ∈ queues D.receiver.queue, q.Unused :=
    fun q hq => Option.some.inj hq ▸ Queue.unused_create rfl
  exact recoverable (· == ·) _ _ hunused ⟨failover 0 1, Machine.Legal.run (by decide)⟩ 0

end SolacePubSub
