import SolacePubSub.System
import SolacePubSub.Lib.ScrapedCounters

/-!
# Scrapes through the two Services

Prometheus has a single static target for each job, a ClusterIP Service. A
scrape is answered by any live pod behind the Service, whose metrics server is
up before it connects to the broker, or by none; all answers of one target go
to one series for each metric.
-/

namespace SolacePubSub

def Producer.Process.metrics (p : Process) : List (String × ℕ) :=
  [("solace_messages_published_total", p.publishedTotal),
    ("solace_publish_errors_total", p.publishErrors)]

def Consumer.Process.metrics (p : Process) : List (String × ℕ) :=
  [("solace_messages_consumed_total", p.consumedTotal),
    ("solace_consume_errors_total", p.consumeErrors)]

/-- One scrape of both targets: the pods that answered and the state they were in. -/
structure Scrape (ι κ : Type*) where
  producer : Option ι
  consumer : Option κ
  state : State ι κ

namespace Scrape
variable {ι κ : Type*}

def fromProducer (metric : String) (x : Scrape ι κ) : Option ℕ :=
  x.producer.bind fun i => (x.state.producers i).metrics.lookup metric

def fromConsumer (metric : String) (x : Scrape ι κ) : Option ℕ :=
  x.consumer.bind fun j => (x.state.consumers j).metrics.lookup metric

def consumed (x : Scrape ι κ) : Option (ScrapedCounters.Sample κ) :=
  x.consumer.map fun j => ⟨j, (x.state.consumers j).consumedTotal, x.state.increments.length⟩

theorem fromConsumer_eq (x : Scrape ι κ) :
    x.fromConsumer "solace_messages_consumed_total" = x.consumed.map (·.value) := by
  cases h : x.consumer with
  | none => simp [fromConsumer, consumed, h]
  | some j => simp [fromConsumer, consumed, h, Consumer.Process.metrics]

end Scrape

namespace Monitoring

structure State (ι κ : Type*) where
  system : SolacePubSub.State ι κ
  scrapes : List (Scrape ι κ)

inductive Event (ι κ : Type*)
  | system (e : SolacePubSub.Event ι κ)
  | scrape (producer : Option ι) (consumer : Option κ)

variable {ι κ : Type*}

def State.initial (D : Deployment) (queues : String → Option (Queue κ)) : State ι κ where
  system := .initial D queues
  scrapes := []

def State.consumedSeries (s : State ι κ) : List (ScrapedCounters.Sample κ) :=
  s.scrapes.filterMap Scrape.consumed

def State.counters (s : State ι κ) : ScrapedCounters.State κ where
  counter := fun j => (s.system.consumers j).consumedTotal
  counted := s.system.increments.length
  series := s.consumedSeries

theorem honest_initial (D : Deployment) (queues : String → Option (Queue κ)) :
    (State.initial (ι := ι) D queues).counters.Honest where
  series := List.Pairwise.nil
  current _ ha := absurd ha List.not_mem_nil

def counterEvent (j : κ) : Consumer.Event → Option (ScrapedCounters.Event κ)
  | .incConsumed _ => some (.count j)
  | .launch => some (.restart j)
  | _ => none

def Event.counterEvent : Event ι κ → Option (ScrapedCounters.Event κ)
  | .system (.consumer j e) => Monitoring.counterEvent j e
  | .system (.producer _ _) => none
  | .scrape _ j => j.map .scrape

theorem consumedSeries_scrapes (t : SolacePubSub.State ι κ) (pods : List κ) :
    State.consumedSeries ⟨t, pods.map fun j => ⟨none, some j, t⟩⟩ =
      pods.map fun j => ⟨j, (t.consumers j).consumedTotal, t.increments.length⟩ := by
  rw [State.consumedSeries, List.filterMap_map, ← List.filterMap_eq_map]
  rfl

variable [DecidableEq ι] [DecidableEq κ]

def Event.apply (D : Deployment) (s : State ι κ) : Event ι κ → State ι κ
  | .system e => { s with system := e.apply D s.system }
  | .scrape i j => { s with scrapes := s.scrapes ++ [⟨i, j, s.system⟩] }

def Event.Enabled (D : Deployment) (s : State ι κ) : Event ι κ → Prop
  | .system e => e.Enabled D s.system
  | .scrape i j =>
    (∀ x ∈ i, (s.system.producers x).Alive) ∧ ∀ y ∈ j, (s.system.consumers y).Alive

instance enabledDecidable (D : Deployment) (s : State ι κ) :
    ∀ e : Event ι κ, Decidable (e.Enabled D s)
  | .system e => inferInstanceAs (Decidable (e.Enabled D s.system))
  | .scrape i j => inferInstanceAs (Decidable
    ((∀ x ∈ i, (s.system.producers x).Alive) ∧ ∀ y ∈ j, (s.system.consumers y).Alive))

def machine (ι κ : Type*) [DecidableEq ι] [DecidableEq κ] (D : Deployment) :
    Machine (State ι κ) (Event ι κ) where
  Enabled e s := e.Enabled D s
  apply e s := e.apply D s

instance (D : Deployment) (e : Event ι κ) (s : State ι κ) :
    Decidable ((machine ι κ D).Enabled e s) :=
  inferInstanceAs (Decidable (e.Enabled D s))

theorem counters_consumer (D : Deployment) (s : State ι κ) (j : κ) (e : Consumer.Event) :
    ((Event.system (.consumer j e)).apply D s).counters =
      { s.counters with
        counter := Function.update s.counters.counter j
          (e.apply D.receiver (s.system.consumers j)).consumedTotal
        counted := s.counters.counted + e.incremented.length } := by
  simp only [State.counters, Event.apply, consumers_consumer, State.consumedSeries]
  congr 1
  · exact Function.comp_update (·.consumedTotal) s.system.consumers j _
  · simp [SolacePubSub.Event.apply]

theorem counters_unchanged {D : Deployment} {s : State ι κ} {j : κ} {e : Consumer.Event}
    (hc : (e.apply D.receiver (s.system.consumers j)).consumedTotal =
      (s.system.consumers j).consumedTotal)
    (hi : e.incremented = []) :
    ((Event.system (.consumer j e)).apply D s).counters = s.counters := by
  rw [counters_consumer, hc, hi]
  exact congrArg (fun f => { s.counters with counter := f })
    (Function.update_eq_self j s.counters.counter)

theorem run_counters {D : Deployment} {s t : State ι κ} {es : List (Event ι κ)}
    (h : (machine ι κ D).Run s es t) :
    (ScrapedCounters.machine κ).Run s.counters (es.filterMap Event.counterEvent) t.counters := by
  refine h.project State.counters Event.counterEvent ?_
  intro e s _
  cases e with
  | scrape i j =>
    cases j with
    | none =>
      simp [Event.counterEvent, machine, Event.apply, State.counters, State.consumedSeries,
        Scrape.consumed]
    | some j =>
      refine ⟨trivial, ?_⟩
      simp [machine, Event.apply, State.counters, State.consumedSeries, Scrape.consumed,
        ScrapedCounters.machine, ScrapedCounters.Event.apply]
  | system e =>
    cases e with
    | producer i e => rfl
    | consumer j e =>
      cases e with
      | incConsumed m => exact ⟨trivial, counters_consumer D s j _⟩
      | launch => exact ⟨trivial, counters_consumer D s j _⟩
      | build ok => cases ok <;> exact counters_unchanged rfl rfl
      | start ok => cases ok <;> exact counters_unchanged rfl rfl
      | _ => exact counters_unchanged rfl rfl

theorem withinCount_of_onePod {D : Deployment} {queues : String → Option (Queue κ)} {s : State ι κ}
    {es : List (Event ι κ)} (h : (machine ι κ D).Run (.initial D queues) es s)
    {w : List (ScrapedCounters.Sample κ)} (hw : w <:+: s.consumedSeries)
    (hone : ∀ a ∈ w, ∀ b ∈ w, a.pod = b.pod) : ScrapedCounters.WithinCount w :=
  (ScrapedCounters.run_honest (run_counters h) (honest_initial D queues)).withinCount hw hone

theorem run_system {D : Deployment} {s t : SolacePubSub.State ι κ}
    {es : List (SolacePubSub.Event ι κ)} (h : (SolacePubSub.machine ι κ D).Run s es t)
    (xs : List (Scrape ι κ)) : (machine ι κ D).Run ⟨s, xs⟩ (es.map .system) ⟨t, xs⟩ := by
  induction h with
  | nil => exact .nil _
  | cons he _ ih => exact .cons he ih

def scrapes (pods : List κ) : List (Event ι κ) := pods.map fun j => .scrape none (some j)

theorem run_scrapes {D : Deployment} {s : State ι κ} (pods : List κ)
    (halive : ∀ j, (s.system.consumers j).Alive) :
    (machine ι κ D).Run s (scrapes pods)
      { s with scrapes := s.scrapes ++ pods.map fun j => ⟨none, some j, s.system⟩ } := by
  induction pods generalizing s with
  | nil => simp [scrapes]
  | cons j pods ih =>
    have hrest := ih (s := (Event.scrape none (some j)).apply D s) halive
    simp only [Event.apply, List.append_assoc, List.singleton_append] at hrest
    refine .cons ⟨by simp, ?_⟩ hrest
    intro y _
    exact halive y

def countOne (j : κ) (m : Message) : List (SolacePubSub.Event ι κ) :=
  consumerStart j ++ [.consumer j (.deliver m), .consumer j (.callback m),
    .consumer j (.incConsumed m)]

def loaded (D : Deployment) (m : Message) : Queue κ :=
  { Queue.create D.receiver with messages := [m] }

theorem countOne_legal (D : Deployment) (j : κ) (m : Message) :
    (SolacePubSub.machine ι κ D).Legal (countOne j m) (.initial D fun _ => some (loaded D m)) := by
  simp [countOne, consumerStart, Machine.Legal, SolacePubSub.Event.Enabled, consumers_consumer,
    Consumer.Event.Enabled, Consumer.Event.apply, Consumer.Process.fresh, Queue.Allows,
    Consumer.Process.Alive, Consumer.Process.Receiving, loaded, Queue.create, Queue.follow,
    Queue.bind, permits_singleton]

theorem countOne_value {D : Deployment} {j : κ} {m : Message} {t : SolacePubSub.State ι κ}
    (h : (SolacePubSub.machine ι κ D).Run (.initial D fun _ => some (loaded D m)) (countOne j m) t)
    (k : κ) : (t.consumers k).consumedTotal = Function.update (fun _ => 0) j 1 k := by
  have hcounters := (run_counters (run_system h [])).final_eq
  exact congrFun (congrArg ScrapedCounters.State.counter hcounters.symm) k

theorem countOne_alive {D : Deployment} {j : κ} {m : Message} {t : SolacePubSub.State ι κ}
    (h : (SolacePubSub.machine ι κ D).Run (.initial D fun _ => some (loaded D m)) (countOne j m) t)
    (k : κ) : (t.consumers k).Alive := by
  have hk := (run_consumer h k).final_eq
  by_cases hjk : j = k
  · rw [← hk]
    simp [countOne, consumerStart, SolacePubSub.Event.ofConsumer, hjk, Machine.final,
      Consumer.machine, Consumer.Event.apply, Consumer.Process.Alive]
  · rw [← hk]
    simp [countOne, consumerStart, SolacePubSub.Event.ofConsumer, hjk, Machine.final,
      Consumer.Process.fresh, Consumer.Process.Alive]

theorem exists_overcount (D : Deployment) (m : Message) {pods : List κ} {j k : κ} (hj : j ∈ pods)
    (hk : k ∈ pods) (hne : j ≠ k) :
    ∃ queues es s w, (machine ι κ D).Run (.initial D queues) es s ∧ w <:+: s.consumedSeries ∧
      w.map (·.pod) = pods ∧ ¬ ScrapedCounters.WithinCount w := by
  -- A pod that has counted one message answers a scrape after one that has counted none.
  obtain ⟨first, rest, l, rfl, hl, hfirst⟩ :
      ∃ first rest l, pods = first :: rest ∧ l ∈ first :: rest ∧ first ≠ l := by
    cases pods with
    | nil => exact absurd hj List.not_mem_nil
    | cons first rest =>
      by_cases h : first = j
      · exact ⟨first, rest, k, rfl, hk, h ▸ hne⟩
      · exact ⟨first, rest, j, rfl, hj, h⟩
  have hr := (countOne_legal (ι := ι) D l m).run
  have hrun := (run_system hr []).append
    (run_scrapes (first :: rest) (countOne_alive hr))
  refine ⟨_, _, _, _, hrun, List.infix_rfl, ?_, ?_⟩
  · rw [List.nil_append, consumedSeries_scrapes, List.map_map]
    exact List.map_id _
  · rw [List.nil_append, consumedSeries_scrapes]
    refine ScrapedCounters.not_withinCount rfl ?_ (List.mem_map_of_mem hl) ?_
    · intro a ha
      obtain ⟨y, _, rfl⟩ := List.mem_map.mp ha
      rfl
    · have hvalue := countOne_value hr first
      have hvalue' := countOne_value hr l
      rw [Function.update_of_ne hfirst] at hvalue
      rw [Function.update_self] at hvalue'
      exact hvalue.trans_lt (hvalue' ▸ Nat.zero_lt_one)

/-- A window of scrapes of the consumer target is never overcounted, whatever
the pods count and however they restart, exactly if one pod answers all of it. -/
theorem never_overcounted_iff (topicMatch : String → String → Bool) (pc : Producer.Config)
    (cc : Consumer.Config) (pods : List κ) :
    (∀ queues es s w, (machine ι κ (deploy topicMatch pc cc)).Run
        (.initial (deploy topicMatch pc cc) queues) es s →
      w <:+: s.consumedSeries → w.map (·.pod) = pods → ScrapedCounters.WithinCount w) ↔
        ∀ j ∈ pods, ∀ k ∈ pods, j = k := by
  constructor
  · intro h j hj k hk
    by_contra hne
    let m := Producer.message pc 0 Producer.leastPrice
    obtain ⟨queues, es, s, w, hr, hw, hpods, hover⟩ :=
      exists_overcount (ι := ι) (deploy topicMatch pc cc) m hj hk hne
    exact hover (h queues es s w hr hw hpods)
  · intro hone queues es s w hr hw hpods
    refine withinCount_of_onePod hr hw ?_
    intro a ha b hb
    apply hone
    · exact hpods ▸ List.mem_map_of_mem ha
    · exact hpods ▸ List.mem_map_of_mem hb

/-- Pod 1 has counted a message, then pods 0, 1 and 0 answer the scrapes: the
increase is 1, and nothing was counted meanwhile. -/
def switchedPods (m : Message) : List (Event Unit (Fin 2)) :=
  (countOne 1 m).map .system ++ scrapes [0, 1, 0]

theorem overcounted_switchedPods :
    ¬ ∀ (n : ℕ), 1 ≤ n → ∀ (topicMatch : String → String → Bool) (pc : Producer.Config)
      (cc : Consumer.Config) queues es s w,
      (machine Unit (Fin n) (deploy topicMatch pc cc)).Run
          (.initial (deploy topicMatch pc cc) queues) es s →
        w <:+: s.consumedSeries → ScrapedCounters.WithinCount w := by
  intro h
  let pc := Producer.config fun _ => ""
  let cc := Consumer.config fun _ => ""
  let D := deploy (· == ·) pc cc
  let m := Producer.message pc 0 Producer.leastPrice
  have hr : (machine Unit (Fin 2) D).Run (.initial D fun _ => some (loaded D m))
      (switchedPods m) _ :=
    Machine.Legal.run (by decide)
  have hwithin := h 2 (by decide) (· == ·) pc cc _ _ _ _ hr List.infix_rfl
  exact absurd (hwithin _ rfl _ rfl) (by decide)

end Monitoring
end SolacePubSub
