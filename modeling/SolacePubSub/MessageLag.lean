import SolacePubSub.Conservation
import SolacePubSub.Monitoring
import Mathlib.Algebra.Order.Field.Rat
import Mathlib.Algebra.Order.Field.Basic
import Mathlib.Algebra.Order.BigOperators.Group.Finset
import Mathlib.Tactic.Linarith
import Mathlib.Tactic.NormNum
import Mathlib.Tactic.Ring

/-!
# The recording rule `solace_message_lag`

The rule subtracts the rates of the two counters. Over a window this is the
growth of the difference between the counters, divided by the time, so that a
backlog which drains or stands still is recorded as a lag of zero or less.
-/

namespace SolacePubSub

section Counters
variable {ι κ : Type*}

def State.totals (s : State ι κ) : (ι → ℕ) × (κ → ℕ) :=
  (fun i => (s.producers i).publishedTotal, fun j => (s.consumers j).consumedTotal)

variable [Fintype ι] [Fintype κ]

def Producer.Loop.due : Producer.Loop → Finset Message
  | .handed m => {m}
  | _ => ∅

section Single
variable {D : Deployment} {s : State Unit κ}

end Single

theorem Producer.publishedTotal_le {cfg : Producer.Config} {p : Producer.Process}
    {e : Producer.Event} (hf : e.FailureFree) :
    p.publishedTotal ≤ (e.apply cfg p).publishedTotal := by
  cases e with
  | incPublished => exact Nat.le_succ _
  | build ok => cases ok <;> exact le_rfl
  | start ok => cases ok <;> exact le_rfl
  | launch => exact hf.elim
  | _ => exact le_rfl

end Counters

section Growth
variable {ι κ : Type*} [DecidableEq ι] [DecidableEq κ]

theorem totals_step (D : Deployment) (e : Event ι κ) (s : State ι κ) (hf : e.FailureFree) :
    s.totals ≤ (e.apply D s).totals := by
  cases e with
  | producer i e =>
    refine ⟨fun k => ?_, le_rfl⟩
    by_cases hk : k = i
    · subst k
      simpa [State.totals, producers_producer] using Producer.publishedTotal_le hf
    · simp [State.totals, producers_producer, hk]
  | consumer j e =>
    refine ⟨le_rfl, fun k => ?_⟩
    by_cases hk : k = j
    · subst k
      simp [State.totals, consumers_consumer, Consumer.consumed_balance hf]
    · simp [State.totals, consumers_consumer, hk]

end Growth

namespace Monitoring
variable {ι κ : Type*}

/-- No failure in the system, and both targets answer every scrape. -/
def Event.Faultless : Event ι κ → Prop
  | .system e => e.FailureFree
  | .scrape i j => i.isSome ∧ j.isSome

variable [Fintype ι] [Fintype κ]

structure State.Recorded (D : Deployment) (s : State ι κ) : Prop where
  ledger : s.system.Ledger D []
  ledgers : ∀ x ∈ s.scrapes, x.state.Ledger D []
  answered : ∀ x ∈ s.scrapes, x.producer.isSome ∧ x.consumer.isSome
  ordered : s.scrapes.Pairwise fun x y => x.state.totals ≤ y.state.totals
  current : ∀ x ∈ s.scrapes, x.state.totals ≤ s.system.totals

theorem recorded_initial {D : Deployment} {queues : String → Option (Queue κ)} {q : Queue κ}
    (hq : queues D.receiver.queue = some q)
    (hsub : q.subscriptions.any (D.topicMatch · D.producer.topic) = true)
    (hempty : q.messages = []) : (State.initial (ι := ι) D queues).Recorded D where
  ledger := hempty ▸ ledger_initial hq hsub
  ledgers _ hx := absurd hx List.not_mem_nil
  answered _ hx := absurd hx List.not_mem_nil
  ordered := List.Pairwise.nil
  current _ hx := absurd hx List.not_mem_nil

variable [DecidableEq ι] [DecidableEq κ]

theorem recorded_step (D : Deployment) (e : Event ι κ) (s : State ι κ) (hf : e.Faultless)
    (he : e.Enabled D s) (hs : s.Recorded D) : (e.apply D s).Recorded D := by
  cases e with
  | system e =>
    refine ⟨ledger_step e s.system hf he hs.ledger, hs.ledgers, hs.answered, hs.ordered, ?_⟩
    intro x hx
    exact (hs.current x hx).trans (totals_step D e s.system hf)
  | scrape i j =>
    have hlast : ∀ {P : Scrape ι κ → Prop}, (∀ x ∈ s.scrapes, P x) → P ⟨i, j, s.system⟩ →
        ∀ x ∈ s.scrapes ++ [⟨i, j, s.system⟩], P x := by
      intro P hold hnew x hx
      rcases List.mem_append.mp hx with hx | hx
      · exact hold x hx
      · rw [List.mem_singleton.mp hx]
        exact hnew
    refine ⟨hs.ledger, hlast hs.ledgers hs.ledger, hlast hs.answered hf, ?_,
      hlast hs.current le_rfl⟩
    refine List.pairwise_append.mpr ⟨hs.ordered, List.pairwise_singleton _ _, ?_⟩
    intro x hx y hy
    rw [List.mem_singleton.mp hy]
    exact hs.current x hx

theorem run_recorded {D : Deployment} {s t : State ι κ} {es : List (Event ι κ)}
    (h : (machine ι κ D).Run s es t) (hf : ∀ e ∈ es, e.Faultless) (hs : s.Recorded D) :
    t.Recorded D :=
  h.invariant_on (recorded_step D) hf hs

/-- `rate` of the samples of one series that are `interval` seconds apart. -/
def rate (interval : ℚ) (samples : List ℕ) : ℚ :=
  ScrapedCounters.increase samples / ((samples.length - 1) * interval)

def sumRate (interval : ℚ) (series : String → List (List ℕ)) (metric : String) : ℚ :=
  ((series metric).map (rate interval)).sum

def solaceMessageLag (interval : ℚ) (series : String → List (List ℕ)) : ℚ :=
  sumRate interval series "solace_messages_published_total" -
    sumRate interval series "solace_messages_consumed_total"

/-- The samples of a metric that the two targets gave in the scrapes `w`. A
target that does not show the metric leaves an empty series, with rate zero. -/
def seriesOver (w : List (Scrape ι κ)) (metric : String) : List (List ℕ) :=
  [w.filterMap (Scrape.fromProducer metric), w.filterMap (Scrape.fromConsumer metric)]

def lagOver (interval : ℚ) (w : List (Scrape ι κ)) : ℚ := solaceMessageLag interval (seriesOver w)

theorem rate_nil (interval : ℚ) : rate interval [] = 0 := by simp [rate, ScrapedCounters.increase]

omit [Fintype ι] [Fintype κ] [DecidableEq ι] [DecidableEq κ] in
theorem lagOver_of_pods (interval : ℚ) {i : ι} {k : κ} {w : List (Scrape ι κ)}
    (hw : ∀ x ∈ w, x.producer = some i ∧ x.consumer = some k) :
    lagOver interval w = rate interval (w.map fun x => (x.state.producers i).publishedTotal) -
      rate interval (w.map fun x => (x.state.consumers k).consumedTotal) := by
  have hpub : w.filterMap (Scrape.fromProducer "solace_messages_published_total") =
      w.map fun x => (x.state.producers i).publishedTotal := by
    rw [← List.filterMap_eq_map]
    apply List.filterMap_congr
    intro x hx
    simp [Scrape.fromProducer, (hw x hx).1, Producer.Process.metrics]
  have hcon : w.filterMap (Scrape.fromConsumer "solace_messages_consumed_total") =
      w.map fun x => (x.state.consumers k).consumedTotal := by
    rw [← List.filterMap_eq_map]
    apply List.filterMap_congr
    intro x hx
    simp [Scrape.fromConsumer, (hw x hx).2, Consumer.Process.metrics]
  have hnone : w.filterMap (Scrape.fromConsumer "solace_messages_published_total") = [] := by
    rw [List.filterMap_eq_nil_iff]
    intro x hx
    simp [Scrape.fromConsumer, (hw x hx).2, Consumer.Process.metrics]
  have hnone' : w.filterMap (Scrape.fromProducer "solace_messages_consumed_total") = [] := by
    rw [List.filterMap_eq_nil_iff]
    intro x hx
    simp [Scrape.fromProducer, (hw x hx).1, Producer.Process.metrics]
  simp [lagOver, solaceMessageLag, sumRate, seriesOver, hpub, hcon, hnone, hnone', rate_nil]

theorem rate_map {α : Type*} (interval : ℚ) (f : α → ℕ) {w : List α}
    (hord : w.Pairwise fun x y => f x ≤ f y) {first last : α} (hfirst : w.head? = some first)
    (hlast : w.getLast? = some last) :
    rate interval (w.map f) = ((f last : ℚ) - f first) / ((w.length - 1) * interval) := by
  have hinc := ScrapedCounters.increase_map f hord hfirst hlast
  rw [rate, List.length_map, ← hinc, Nat.cast_add, add_sub_cancel_left]

end Monitoring
end SolacePubSub
