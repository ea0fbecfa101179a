import SolacePubSub.ActiveReceiver
import SolacePubSub.MessageLag

/-!
# Which pods the lag is about

A Service passes each scrape to one pod, and the rule sums over the one series
that comes of it. While the same two pods answer, what is recorded is about these
two. A consumer to which the queue does not deliver has counted nothing, so that
with its answers the lag is the rate of the producer alone, whatever the active
consumer has counted.
-/

namespace SolacePubSub
variable {ι κ : Type*}

def State.Standby (D : Deployment) (s : State ι κ) : Prop :=
  ∀ k, s.active D ≠ some k →
    (s.consumers k).uncounted.card = 0 ∧ (s.consumers k).consumedTotal = 0

theorem standby_initial (D : Deployment) (queues : String → Option (Queue κ)) :
    (State.initial (ι := ι) D queues).Standby D := fun _ _ => ⟨rfl, rfl⟩

theorem Consumer.seated_of_failureFree {e : Event} (hf : e.FailureFree) :
    ¬ (e.Ends ∨ e.IsReconnect) := by
  cases e with
  | reconnect keep => exact hf.elim
  | terminate => exact hf.elim
  | disconnect => exact hf.elim
  | mainReturns => exact hf.elim
  | die => exact hf.elim
  | _ => exact fun h => h.elim id id

variable [DecidableEq ι] [DecidableEq κ] {D : Deployment}

theorem standby_step (e : Event ι κ) (s : State ι κ) (hf : e.FailureFree) (he : e.Enabled D s)
    (ha : s.Attended D) (hs : s.Standby D) : (e.apply D s).Standby D := by
  intro k hk
  cases e with
  | producer i e =>
    rw [active_producer] at hk
    exact hs k hk
  | consumer j e =>
    have hbefore : s.active D ≠ some k := fun h =>
      hk (active_consumer h fun _ => Consumer.seated_of_failureFree hf)
    obtain ⟨huncounted, htotal⟩ := hs k hbefore
    rw [consumers_consumer]
    by_cases hkj : k = j
    · subst k
      rw [Function.update_self]
      have hstep := Consumer.uncounted_apply (b := D.receiver) he.1
      have hcount := Consumer.consumed_balance (b := D.receiver) (p := s.consumers j) hf
      rw [Queue.delivered_of_not_head ha.exclusive hbefore he.2, List.length_nil] at hstep
      omega
    · rw [Function.update_of_ne hkj]
      exact ⟨huncounted, htotal⟩

namespace Monitoring

theorem run_standby (hD : D.receiver.access = .exclusive) {queues : String → Option (Queue κ)}
    (hq : ∀ q ∈ queues D.receiver.queue, q.Unused) {es : List (Event ι κ)} {s : State ι κ}
    (h : (machine ι κ D).Run (.initial D queues) es s) (hf : ∀ e ∈ es, e.Faultless) :
    ∀ x ∈ s.scrapes, x.state.Standby D := by
  have hall : s.system.Attended D ∧ s.system.Standby D ∧ ∀ x ∈ s.scrapes, x.state.Standby D := by
    refine h.invariant_on (P := Event.Faultless) (I := fun t => t.system.Attended D ∧
      t.system.Standby D ∧ ∀ x ∈ t.scrapes, x.state.Standby D) ?_ hf
      ⟨attended_initial hq, standby_initial D queues, fun _ hx => absurd hx List.not_mem_nil⟩
    intro e t hfree he ht
    obtain ⟨ha, hs, hscrapes⟩ := ht
    cases e with
    | system e => exact ⟨attended_step hD e _ he ha, standby_step e _ hfree he ha hs, hscrapes⟩
    | scrape i j =>
      refine ⟨ha, hs, ?_⟩
      intro x hx
      rcases List.mem_append.mp hx with hx | hx
      · exact hscrapes x hx
      · rw [List.mem_singleton.mp hx]
        exact hs
  exact hall.2.2

/-- In every failure-free run, while producer `i` and consumer `k` answer, the
recorded lag is the growth of their two counters, by the span, whatever all other
pods publish and count. If the queue does not deliver to `k`, its total is zero and
the lag is positive exactly if `i` has published, whatever has been consumed. -/
theorem lag_of_answering_pods [Fintype ι] [Fintype κ] (topicMatch : String → String → Bool)
    (pc : Producer.Config) (cc : Consumer.Config) {queues : String → Option (Queue κ)}
    {q : Queue κ} (hq : queues cc.queue = some q)
    (hsub : q.subscriptions.any (topicMatch · pc.topic) = true) (hempty : q.messages = [])
    (hunused : q.Unused) {interval : ℚ} (hint : 0 < interval) {es : List (Event ι κ)}
    {s : State ι κ}
    (h : (machine ι κ (deploy topicMatch pc cc)).Run
      (.initial (deploy topicMatch pc cc) queues) es s)
    (hf : ∀ e ∈ es, e.Faultless) {w : List (Scrape ι κ)} (hw : w <:+: s.scrapes)
    (hlen : 2 ≤ w.length) {i : ι} {k : κ}
    (hpods : ∀ x ∈ w, x.producer = some i ∧ x.consumer = some k) {first last : Scrape ι κ}
    (hfirst : w.head? = some first) (hlast : w.getLast? = some last) :
    let published (x : Scrape ι κ) := (x.state.producers i).publishedTotal
    let consumed (x : Scrape ι κ) := (x.state.consumers k).consumedTotal
    lagOver interval w = (((published last : ℚ) - published first) -
        (consumed last - consumed first)) / ((w.length - 1) * interval) ∧
      (last.state.active (deploy topicMatch pc cc) ≠ some k → consumed last = 0 ∧
        (0 < lagOver interval w ↔ published first < published last)) := by
  intro published consumed
  have hs : s.Recorded (deploy topicMatch pc cc) :=
    run_recorded h hf (recorded_initial hq hsub hempty)
  have hord := hs.ordered.sublist hw.sublist
  have hpub := rate_map interval published (hord.imp fun h => h.1 i) hfirst hlast
  have hcon := rate_map interval consumed (hord.imp fun h => h.2 k) hfirst hlast
  have hlag : lagOver interval w = (((published last : ℚ) - published first) -
      (consumed last - consumed first)) / ((w.length - 1) * interval) := by
    rw [lagOver_of_pods interval hpods, hpub, hcon, ← sub_div]
  refine ⟨hlag, ?_⟩
  intro hstandby
  have hunused' : ∀ r ∈ queues (deploy topicMatch pc cc).receiver.queue, r.Unused :=
    fun r hr => Option.some.inj (hq.symm.trans hr) ▸ hunused
  have hzero : consumed last = 0 :=
    (run_standby rfl hunused' h hf last (hw.subset (List.mem_of_getLast? hlast)) k hstandby).2
  have hgrowth := ScrapedCounters.increase_map consumed (hord.imp fun h => h.2 k) hfirst hlast
  have hzero' : consumed first = 0 := by omega
  have hspan : 0 < ((w.length : ℚ) - 1) * interval := by
    have hlen' : (2 : ℚ) ≤ w.length := by exact_mod_cast hlen
    exact mul_pos (by linarith) hint
  refine ⟨hzero, ?_⟩
  rw [hlag, hzero, hzero', div_pos_iff_of_pos_right hspan, sub_self, sub_zero, sub_pos,
    Nat.cast_lt]

theorem run_scrape {s : SolacePubSub.State ι κ} (xs : List (Scrape ι κ)) {i : ι} {k : κ}
    (hi : (s.producers i).Alive) (hk : (s.consumers k).Alive) :
    (machine ι κ D).Run ⟨s, xs⟩ [.scrape (some i) (some k)]
      ⟨s, xs ++ [⟨some i, some k, s⟩]⟩ := by
  refine .cons ⟨?_, ?_⟩ (.nil _)
  · intro x hx
    rwa [← Option.some.inj hx]
  · intro y hy
    rwa [← Option.some.inj hy]

def handledBy (j : κ) : List (SolacePubSub.Event Unit κ) :=
  let m := Producer.message (Producer.config fun _ => "") 0 Producer.leastPrice
  [.producer () (.publish 0 Producer.leastPrice), .producer () (.accept m),
    .producer () .incPublished, .producer () .wake, .consumer j (.deliver m),
    .consumer j (.callback m), .consumer j (.incConsumed m), .consumer j (.callbackReturns m),
    .consumer j (.ack m)]

theorem lag_of_answering_pods_standby :
    let D := deploy (· == ·) (Producer.config fun _ => "") (Consumer.config fun _ => "")
    let q : Queue (Fin 2) := .create { D.receiver with subscriptions := [D.producer.topic] }
    let s := (SolacePubSub.machine Unit (Fin 2) D).final
      (consumerStart 0 ++ consumerStart 1 ++ producerStart ()) (.initial D fun _ => some q)
    let t := (SolacePubSub.machine Unit (Fin 2) D).final (handledBy 0) s
    (t.consumers 1).consumedTotal = 0 ∧
      0 < lagOver 15 [⟨some (), some (1 : Fin 2), s⟩, ⟨some (), some 1, t⟩] ∧
        t.outstanding D = ∅ := by
  intro D q s t
  have hs : (SolacePubSub.machine Unit (Fin 2) D).Run (.initial D fun _ => some q)
      (consumerStart 0 ++ consumerStart 1 ++ producerStart ()) s := Machine.Legal.run (by decide)
  have ht : (SolacePubSub.machine Unit (Fin 2) D).Run s (handledBy 0) t :=
    Machine.Legal.run (by decide)
  have hr := ((run_system hs []).append (run_scrape (i := ()) (k := 1) [] (by decide)
    (by decide))).append ((run_system ht _).append (run_scrape (i := ()) (k := 1) _ (by decide)
      (by decide)))
  have hlag := lag_of_answering_pods (· == ·) _ (Consumer.config fun _ => "") rfl (by decide) rfl
    (Queue.unused_create rfl) (by norm_num : (0 : ℚ) < 15) hr ?_ List.infix_rfl (by decide)
    (i := ()) (k := 1) ?_ rfl rfl
  · obtain ⟨hzero, hpos⟩ := hlag.2 (by decide)
    exact ⟨hzero, hpos.mpr (by decide), by decide⟩
  · simp [handledBy, producerStart, consumerStart, Event.Faultless,
      SolacePubSub.Event.FailureFree, Producer.Event.FailureFree, Consumer.Event.FailureFree]
  · simp

end Monitoring

end SolacePubSub
