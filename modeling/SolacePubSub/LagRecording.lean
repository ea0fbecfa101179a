import SolacePubSub.ActiveReceiver
import SolacePubSub.MessageLag

/-!
# When the lag is recorded

Prometheus has no rate for a series with fewer than two samples in the range, no
sum over no series and no difference with a side missing. A target that did not
answer twice therefore leaves the rule without a value. That is so while no
consumer is up, which is when the backlog grows.
-/

namespace SolacePubSub.Monitoring
variable {ι κ : Type*}

/-- The `sum` of an instant vector, which over no series is empty. -/
def vectorSum (values : List ℚ) : Option ℚ := if values = [] then none else some values.sum

def vectorSub : Option ℚ → Option ℚ → Option ℚ
  | some x, some y => some (x - y)
  | _, _ => none

theorem isSome_vectorSum {values : List ℚ} : (vectorSum values).isSome ↔ values ≠ [] := by
  unfold vectorSum
  split_ifs with h <;> simp [h]

theorem isSome_vectorSub {x y : Option ℚ} : (vectorSub x y).isSome ↔ x.isSome ∧ y.isSome := by
  cases x <;> cases y <;> simp [vectorSub]

def samples (f : Scrape ι κ → Option ℕ) (w : List (Scrape ι κ)) : List (ℕ × ℕ) :=
  w.zipIdx.filterMap fun x => (f x.1).map fun v => (x.2, v)

def samplesOver (w : List (Scrape ι κ)) (metric : String) : List (List (ℕ × ℕ)) :=
  [samples (Scrape.fromProducer metric) w, samples (Scrape.fromConsumer metric) w]

/-- The rule `solace_message_lag` over the scrapes in its range, with the `rate` of Prometheus. -/
def recordedLag (rate : List (ℕ × ℕ) → Option ℚ) (w : List (Scrape ι κ)) : Option ℚ :=
  vectorSub (vectorSum ((samplesOver w "solace_messages_published_total").filterMap rate))
    (vectorSum ((samplesOver w "solace_messages_consumed_total").filterMap rate))

theorem length_samples (f : Scrape ι κ → Option ℕ) (w : List (Scrape ι κ)) :
    (samples f w).length = w.countP fun x => (f x).isSome := by
  have hfrom : ∀ n, ((w.zipIdx n).filterMap fun x => (f x.1).map fun v => (x.2, v)).length =
      w.countP fun x => (f x).isSome := by
    induction w with
    | nil => simp
    | cons x w ih =>
      intro n
      rw [List.zipIdx_cons, List.countP_cons, ← ih (n + 1)]
      cases hx : f x <;> simp [hx]
  exact hfrom 0

theorem fromProducer_isSome (x : Scrape ι κ) :
    (x.fromProducer "solace_messages_published_total").isSome = x.producer.isSome ∧
      (x.fromProducer "solace_messages_consumed_total").isSome = false := by
  cases h : x.producer <;> simp [Scrape.fromProducer, h, Producer.Process.metrics]

theorem fromConsumer_isSome (x : Scrape ι κ) :
    (x.fromConsumer "solace_messages_consumed_total").isSome = x.consumer.isSome ∧
      (x.fromConsumer "solace_messages_published_total").isSome = false := by
  cases h : x.consumer <;> simp [Scrape.fromConsumer, h, Consumer.Process.metrics]

section Rule
variable {rate : List (ℕ × ℕ) → Option ℚ}

theorem isSome_recordedLag (hrate : ∀ l, (rate l).isSome ↔ 2 ≤ l.length)
    (w : List (Scrape ι κ)) : (recordedLag rate w).isSome ↔
      2 ≤ w.countP (·.producer.isSome) ∧ 2 ≤ w.countP (·.consumer.isSome) := by
  have hside : ∀ metric, (vectorSum ((samplesOver w metric).filterMap rate)).isSome ↔
      2 ≤ w.countP (fun x => (x.fromProducer metric).isSome) ∨
        2 ≤ w.countP (fun x => (x.fromConsumer metric).isSome) := by
    intro metric
    rw [isSome_vectorSum, ne_eq, List.filterMap_eq_nil_iff, ← length_samples, ← length_samples,
      ← hrate, ← hrate]
    simp [samplesOver, Option.isSome_iff_ne_none, imp_iff_not_or]
  rw [recordedLag, isSome_vectorSub, hside, hside]
  simp [fromProducer_isSome, fromConsumer_isSome]

end Rule

def slope (interval : ℚ) (l : List (ℕ × ℕ)) : Option ℚ :=
  match l.head?, l.getLast? with
  | some first, some last =>
    if 2 ≤ l.length then
      some (ScrapedCounters.increase (l.map (·.2)) / (((last.1 : ℚ) - first.1) * interval))
    else none
  | _, _ => none

theorem isSome_slope (interval : ℚ) (l : List (ℕ × ℕ)) :
    (slope interval l).isSome ↔ 2 ≤ l.length := by
  cases l with
  | nil => simp [slope]
  | cons x l =>
    rw [slope, List.head?_cons, List.getLast?_eq_some_getLast (List.cons_ne_nil x l)]
    dsimp only
    split_ifs with h
    · exact iff_of_true rfl h
    · exact iff_of_false Bool.false_ne_true h

theorem map_samples (f : Scrape ι κ → Option ℕ) (w : List (Scrape ι κ)) :
    (samples f w).map (·.2) = w.filterMap f := by
  rw [samples, List.map_filterMap]
  conv_rhs => rw [← List.zipIdx_map_fst 0 w, List.filterMap_map]
  apply List.filterMap_congr
  intro x _
  cases h : f x.1 <;> simp [h]

theorem slope_samples (interval : ℚ) {f : Scrape ι κ → Option ℕ} {w : List (Scrape ι κ)}
    (hw : ∀ x ∈ w, (f x).isSome) (hlen : 2 ≤ w.length) :
    slope interval (samples f w) = some (rate interval (w.filterMap f)) := by
  have hall : samples f w = w.zipIdx.map fun x => (x.2, (f x.1).getD 0) := by
    rw [samples, ← List.filterMap_eq_map]
    apply List.filterMap_congr
    intro x hx
    obtain ⟨v, hv⟩ := Option.isSome_iff_exists.mp (hw x.1 (List.fst_mem_of_mem_zipIdx hx))
    simp [hv]
  have hcount : (w.filterMap f).length = w.length := by
    rw [← map_samples, hall]
    simp
  obtain ⟨first, hfirst⟩ : ∃ x, w.head? = some x := by
    cases w with
    | nil => simp at hlen
    | cons x w => exact ⟨x, rfl⟩
  obtain ⟨last, hlast⟩ : ∃ x, w.getLast? = some x := by
    cases w with
    | nil => simp at hlen
    | cons x w => exact ⟨_, List.getLast?_eq_some_getLast (List.cons_ne_nil x w)⟩
  have hspan : ((0 + w.length - 1 : ℕ) : ℚ) - (0 : ℕ) = (w.length : ℚ) - 1 := by
    rw [Nat.zero_add, Nat.cast_sub (by omega)]
    simp
  rw [slope, map_samples, hall]
  simp only [List.head?_map, List.getLast?_map, List.head?_zipIdx, List.getLast?_zipIdx, hfirst,
    hlast, Option.map_some, List.length_map, List.length_zipIdx, if_pos hlen, hspan, rate, hcount]

theorem recordedLag_slope (interval : ℚ) {w : List (Scrape ι κ)}
    (hw : ∀ x ∈ w, x.producer.isSome ∧ x.consumer.isSome) (hlen : 2 ≤ w.length) :
    recordedLag (slope interval) w = some (lagOver interval w) := by
  have hpub := slope_samples interval (f := Scrape.fromProducer "solace_messages_published_total")
    (fun x hx => (fromProducer_isSome x).1.trans (hw x hx).1) hlen
  have hcon := slope_samples interval (f := Scrape.fromConsumer "solace_messages_consumed_total")
    (fun x hx => (fromConsumer_isSome x).1.trans (hw x hx).2) hlen
  have hnone : ∀ {f : Scrape ι κ → Option ℕ}, (∀ x, (f x).isSome = false) →
      samples f w = [] ∧ w.filterMap f = [] := by
    intro f hf
    have hlen := length_samples f w
    have hvalues := map_samples f w
    simp only [hf, List.countP_false, Function.const_apply] at hlen
    rw [List.length_eq_zero_iff.mp hlen, List.map_nil] at hvalues
    exact ⟨List.length_eq_zero_iff.mp hlen, hvalues.symm⟩
  have hpub' := hnone fun x : Scrape ι κ => (fromConsumer_isSome x).2
  have hcon' := hnone fun x : Scrape ι κ => (fromProducer_isSome x).2
  have hempty : slope interval [] = none := rfl
  simp [recordedLag, lagOver, solaceMessageLag, sumRate, seriesOver, samplesOver, hpub, hcon, hpub',
    hcon', hempty, vectorSum, vectorSub, rate_nil]

def ConsumerUp (x : Scrape ι κ) : Prop := ∃ j, (x.state.consumers j).Alive

instance [Fintype κ] (x : Scrape ι κ) : Decidable (ConsumerUp x) :=
  inferInstanceAs (Decidable (∃ j, (x.state.consumers j).Alive))

structure State.Answered (s : State ι κ) : Prop where
  producers : ∀ x ∈ s.scrapes, ∀ i ∈ x.producer, (x.state.producers i).Alive
  consumers : ∀ x ∈ s.scrapes, ∀ j ∈ x.consumer, (x.state.consumers j).Alive

variable [DecidableEq ι] [DecidableEq κ] {D : Deployment}

theorem answered_step (e : Event ι κ) (s : State ι κ) (he : e.Enabled D s) (hs : s.Answered) :
    (e.apply D s).Answered := by
  cases e with
  | system e => exact ⟨hs.producers, hs.consumers⟩
  | scrape i j =>
    refine ⟨?_, ?_⟩ <;> intro x hx <;> rcases List.mem_append.mp hx with hx | hx
    · exact hs.producers x hx
    · rw [List.mem_singleton.mp hx]
      exact he.1
    · exact hs.consumers x hx
    · rw [List.mem_singleton.mp hx]
      exact he.2

theorem run_answered {queues : String → Option (Queue κ)} {es : List (Event ι κ)} {s : State ι κ}
    (h : (machine ι κ D).Run (.initial D queues) es s) : s.Answered :=
  h.invariant answered_step ⟨fun _ hx => absurd hx List.not_mem_nil,
    fun _ hx => absurd hx List.not_mem_nil⟩

section Outage
variable {i : ι}

/-- No consumer is up or was at any scrape. Producer `i` answered all scrapes
alone, with one message waiting at the first of them and one more at each next,
and is about to publish again. -/
structure State.Outage (D : Deployment) (i : ι) (n : ℕ) (s : State ι κ) : Prop where
  main : (s.system.producers i).main = .wait
  loop : (s.system.producers i).loop = .top
  down : ∀ j, ¬ (s.system.consumers j).Alive
  queue : ∃ q, s.system.queue D = some q ∧ q.messages.length = n ∧
    q.subscriptions.any (D.topicMatch · D.producer.topic) = true
  waiting : s.scrapes.map (fun x => (x.state.undelivered D).length) = List.range' 1 n
  scrapes : ∀ x ∈ s.scrapes, x.producer = some i ∧ x.consumer = none ∧ ¬ ConsumerUp x

theorem outage_next {n : ℕ} {s : State ι κ} (hs : s.Outage D i n) :
    ∃ es t, (machine ι κ D).Run s es t ∧ t.Outage D i (n + 1) := by
  obtain ⟨q, hq, hn, hsub⟩ := hs.queue
  let m := Producer.message D.producer s.system.handed.length Producer.leastPrice
  have hstored : [m].filter (q.attracts D.topicMatch) = [m] := by
    rw [List.filter_eq_self]
    intro m' hm'
    rw [List.mem_singleton.mp hm']
    exact hsub
  have hlength : ((((q.route D.topicMatch []).route D.topicMatch [m]).route D.topicMatch []).route
      D.topicMatch []).messages.length = n + 1 := by
    simp only [Queue.route, List.filter_nil, List.append_nil, List.length_append]
    rw [show [m].filter _ = [m] from hstored, hn]
    rfl
  refine ⟨[.system (.producer i (.publish s.system.handed.length Producer.leastPrice)),
    .system (.producer i (.accept m)), .system (.producer i .incPublished),
    .system (.producer i .wake), .scrape (some i) none], _,
    .cons ?_ (.cons ?_ (.cons ?_ (.cons ?_ (.cons ?_ (.nil _))))), ?_⟩
  · exact ⟨⟨by simp [Producer.Process.Alive, hs.main], hs.loop⟩, rfl⟩
  · simp [machine, Event.apply, Event.Enabled, SolacePubSub.Event.Enabled, producers_producer,
      Producer.Event.Enabled, Producer.Event.apply, Producer.Event.Numbered,
      Producer.Process.Connected, hs.main, m]
  · simp [machine, Event.apply, Event.Enabled, SolacePubSub.Event.Enabled, producers_producer,
      Producer.Event.Enabled, Producer.Event.apply, Producer.Event.Numbered,
      Producer.Process.Alive, Producer.Loop.pending, hs.main]
  · simp [machine, Event.apply, Event.Enabled, SolacePubSub.Event.Enabled, producers_producer,
      Producer.Event.Enabled, Producer.Event.apply, Producer.Event.Numbered,
      Producer.Process.Alive, hs.main]
  · simp [machine, Event.apply, Event.Enabled, producers_producer, Producer.Event.apply,
      Producer.Process.Alive, hs.main]
  · constructor
    · simp [machine, Event.apply, producers_producer, Producer.Event.apply, hs.main]
    · simp [machine, Event.apply, producers_producer, Producer.Event.apply]
    · exact hs.down
    · refine ⟨(((q.route D.topicMatch []).route D.topicMatch [m]).route D.topicMatch []).route
        D.topicMatch [], ?_, hlength, hsub⟩
      simp [machine, Event.apply, hq, Producer.Event.accepted]
    · simp only [machine, Event.apply, List.map_append, hs.waiting, List.range'_1_concat,
        List.map_singleton]
      simp only [State.undelivered, queue_producer, hq, Option.map_some, Producer.Event.accepted]
      rw [hlength, Nat.add_comm]
    · intro x hx
      rcases List.mem_append.mp hx with hx | hx
      · exact hs.scrapes x hx
      · rw [List.mem_singleton.mp hx]
        refine ⟨rfl, rfl, fun hup => ?_⟩
        obtain ⟨j, hj⟩ := hup
        exact hs.down j hj

theorem run_die {s : SolacePubSub.State ι κ} {q : Queue κ} (hq : s.queue D = some q)
    (hempty : q.messages = []) (hunacked : ∀ j, q.unacked j = []) (pods : List κ)
    (hnodup : pods.Nodup) (halive : ∀ j ∈ pods, (s.consumers j).Alive) :
    ∃ t r, (SolacePubSub.machine ι κ D).Run s (pods.map fun j => .consumer j .die) t ∧
      t.producers = s.producers ∧ (∀ j ∈ pods, ¬ (t.consumers j).Alive) ∧
      (∀ j ∉ pods, t.consumers j = s.consumers j) ∧ t.queue D = some r ∧ r.messages = [] ∧
      r.subscriptions = q.subscriptions := by
  induction pods generalizing s q with
  | nil => exact ⟨s, q, .nil s, rfl, by simp, fun _ _ => rfl, hq, hempty, rfl⟩
  | cons j pods ih =>
    obtain ⟨hj, hrest⟩ := List.nodup_cons.mp hnodup
    let u := (SolacePubSub.Event.consumer (ι := ι) j .die).apply D s
    have hstep : (SolacePubSub.Event.consumer (ι := ι) j .die).Enabled D s :=
      ⟨halive j List.mem_cons_self, trivial⟩
    have hqueue : u.queue D = some (q.release j) := by simp [u, hq, Queue.follow]
    have hsame : ∀ k, k ≠ j → u.consumers k = s.consumers k := by
      intro k hk
      simp [u, consumers_consumer, hk]
    have hdead : ¬ (u.consumers j).Alive := by
      simp [u, consumers_consumer, Consumer.Event.apply, Consumer.Process.stop,
        Consumer.Process.Alive]
    have hreleased : ∀ k, (q.release j).unacked k = [] := by
      intro k
      by_cases hk : k = j <;> simp [Queue.release, hk, hunacked k]
    obtain ⟨t, r, hr, hproducers, hdown, hothers, htq, hrm, hrs⟩ := ih hqueue
      (by simp [Queue.release, hempty, hunacked j]) hreleased hrest fun k hk => by
        rw [hsame k (fun hkj => hj (hkj ▸ hk))]
        exact halive k (List.mem_cons_of_mem j hk)
    refine ⟨t, r, .cons hstep hr, hproducers, ?_, ?_, htq, hrm, hrs⟩
    · intro k hk
      rcases List.mem_cons.mp hk with rfl | hk
      · rwa [hothers k hj]
      · exact hdown k hk
    · intro k hk
      rw [hothers k (List.not_mem_of_not_mem_cons hk), hsame k (List.ne_of_not_mem_cons hk)]

theorem outage_start [Fintype κ] {queues : String → Option (Queue κ)} {q : Queue κ}
    (hq : queues D.receiver.queue = some q)
    (hsub : q.subscriptions.any (D.topicMatch · D.producer.topic) = true)
    (hempty : q.messages = []) (hunused : q.Unused) (i : ι) :
    ∃ es t, (machine ι κ D).Run (.initial D queues) es t ∧ t.Outage D i 0 := by
  obtain ⟨s, r, hr, hproducers, hdown, _, hqueue, hmessages, hsubs⟩ :=
    run_die (ι := ι) (s := .initial D queues) hq hempty hunused.unacked Finset.univ.toList
      (Finset.nodup_toList _) fun j _ => by simp [Consumer.Process.fresh, Consumer.Process.Alive]
  have hfresh : s.producers i = .fresh := congrFun hproducers i
  have hstart : (SolacePubSub.machine ι κ D).Legal (producerStart i) s := by
    refine ⟨?_, ?_, ?_, trivial⟩
    · simp [SolacePubSub.Event.Enabled, Producer.Event.Enabled, hfresh, Producer.Process.fresh,
        Producer.Event.Numbered]
    · simp [SolacePubSub.Event.Enabled, producers_producer, Producer.Event.Enabled,
        Producer.Event.apply, Producer.Event.Numbered]
    · simp [SolacePubSub.Event.Enabled, producers_producer, Producer.Event.Enabled,
        Producer.Event.apply, Producer.Event.Numbered]
  refine ⟨_, _, run_system (hr.append hstart.run) [], ?_⟩
  have hup : ((SolacePubSub.machine ι κ D).final (producerStart i) s).producers i =
      { s.producers i with main := .wait, loop := .top } := by
    simp [Machine.final, producerStart, SolacePubSub.machine, producers_producer,
      Producer.Event.apply]
  constructor
  · rw [hup]
  · rw [hup]
  · exact fun j => hdown j (Finset.mem_toList.mpr (Finset.mem_univ j))
  · refine ⟨((r.route D.topicMatch []).route D.topicMatch []).route D.topicMatch [], ?_, ?_, ?_⟩
    · simp [Machine.final, producerStart, SolacePubSub.machine, hqueue, Producer.Event.accepted]
    · simp [Queue.route, hmessages]
    · exact hsubs ▸ hsub
  · rfl
  · exact fun x hx => absurd hx List.not_mem_nil

theorem exists_outage [Fintype κ] {queues : String → Option (Queue κ)} {q : Queue κ}
    (hq : queues D.receiver.queue = some q)
    (hsub : q.subscriptions.any (D.topicMatch · D.producer.topic) = true)
    (hempty : q.messages = []) (hunused : q.Unused) (i : ι) (n : ℕ) :
    ∃ es t, (machine ι κ D).Run (.initial D queues) es t ∧ t.Outage D i n := by
  induction n with
  | zero => exact outage_start hq hsub hempty hunused i
  | succ n ih =>
    obtain ⟨es, s, hr, hs⟩ := ih
    obtain ⟨fs, t, hr', ht⟩ := outage_next hs
    exact ⟨es ++ fs, t, hr.append hr', ht⟩

/-- Whatever fails, the rule has a value over a window of scrapes only if at two
of them some consumer was up, and exactly if both targets answered twice. So a
backlog may grow by one message from each scrape to the next, with the producer
answering all of them and no consumer up at any, and no window records a lag. -/
theorem lag_blind [Fintype κ] (topicMatch : String → String → Bool) (pc : Producer.Config)
    (cc : Consumer.Config) {rate : List (ℕ × ℕ) → Option ℚ}
    (hrate : ∀ l, (rate l).isSome ↔ 2 ≤ l.length) {queues : String → Option (Queue κ)}
    {q : Queue κ} (hq : queues cc.queue = some q)
    (hsub : q.subscriptions.any (topicMatch · pc.topic) = true) (hempty : q.messages = [])
    (hunused : q.Unused) :
    (∀ es s w, (machine ι κ (deploy topicMatch pc cc)).Run
        (.initial (deploy topicMatch pc cc) queues) es s → w <:+: s.scrapes →
      ((recordedLag rate w).isSome ↔
          2 ≤ w.countP (·.producer.isSome) ∧ 2 ≤ w.countP (·.consumer.isSome)) ∧
        ((recordedLag rate w).isSome →
          2 ≤ w.countP fun x => ConsumerUp x)) ∧
      ∀ (i : ι) n, ∃ es s, (machine ι κ (deploy topicMatch pc cc)).Run
          (.initial (deploy topicMatch pc cc) queues) es s ∧
        (s.system.undelivered (deploy topicMatch pc cc)).length = n ∧ s.scrapes.length = n ∧
        (∀ x ∈ s.scrapes, x.producer = some i ∧ ¬ ConsumerUp x) ∧
        s.scrapes.map (fun x => (x.state.undelivered (deploy topicMatch pc cc)).length) =
          List.range' 1 n ∧
        ∀ w, w <:+: s.scrapes → recordedLag rate w = none := by
  refine ⟨?_, ?_⟩
  · intro es s w hr hw
    have hrecorded := isSome_recordedLag hrate w
    refine ⟨hrecorded, fun hsome => ?_⟩
    have hs := run_answered hr
    refine (hrecorded.mp hsome).2.trans (List.countP_mono_left ?_)
    intro x hx hanswer
    obtain ⟨j, hj⟩ := Option.isSome_iff_exists.mp hanswer
    exact decide_eq_true ⟨j, hs.consumers x (hw.subset hx) j hj⟩
  · intro i n
    obtain ⟨es, s, hr, hs⟩ := exists_outage (D := deploy topicMatch pc cc) hq hsub hempty hunused
      i n
    obtain ⟨r, hqueue, hlen, _⟩ := hs.queue
    have hscraped := congrArg List.length hs.waiting
    rw [List.length_map, List.length_range'] at hscraped
    refine ⟨es, s, hr, ?_, hscraped, ?_, hs.waiting, ?_⟩
    · rw [State.undelivered, hqueue]
      exact hlen
    · intro x hx
      obtain ⟨hproducer, _, hdown⟩ := hs.scrapes x hx
      exact ⟨hproducer, hdown⟩
    · intro w hw
      rw [← Option.not_isSome_iff_eq_none, isSome_recordedLag hrate]
      have hnone : w.countP (·.consumer.isSome) = 0 := by
        rw [List.countP_eq_zero]
        intro x hx
        simp [(hs.scrapes x (hw.subset hx)).2.1]
      omega

theorem lag_blind_slope :
    let D := deploy (· == ·) (Producer.config fun _ => "") (Consumer.config fun _ => "")
    let q : Queue (Fin 2) := .create { D.receiver with subscriptions := [D.producer.topic] }
    let queues : String → Option (Queue (Fin 2)) := fun _ => some q
    (∀ es s w, (machine Unit (Fin 2) D).Run (.initial D queues) es s → w <:+: s.scrapes →
      ((recordedLag (slope 15) w).isSome ↔
          2 ≤ w.countP (·.producer.isSome) ∧ 2 ≤ w.countP (·.consumer.isSome)) ∧
        ((recordedLag (slope 15) w).isSome →
          2 ≤ w.countP fun x => ConsumerUp x)) ∧
      ∀ (i : Unit) n, ∃ es s, (machine Unit (Fin 2) D).Run (.initial D queues) es s ∧
        (s.system.undelivered D).length = n ∧ s.scrapes.length = n ∧
        (∀ x ∈ s.scrapes, x.producer = some i ∧ ¬ ConsumerUp x) ∧
        s.scrapes.map (fun x => (x.state.undelivered D).length) = List.range' 1 n ∧
        ∀ w, w <:+: s.scrapes → recordedLag (slope 15) w = none := by
  intro D q queues
  have hsub : q.subscriptions.any (D.topicMatch · D.producer.topic) = true := by decide
  have hq : queues D.receiver.queue = some q := rfl
  exact lag_blind (· == ·) _ (Consumer.config fun _ => "") (isSome_slope 15) hq hsub rfl
    (Queue.unused_create rfl)

end Outage

end SolacePubSub.Monitoring
