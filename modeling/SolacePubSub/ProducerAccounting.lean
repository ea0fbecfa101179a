import SolacePubSub.System

/-!
# What the producer's counters count

Every message of a successful `Publish` is buffered, accepted, rejected or
discarded, and `publishedTotal` counts all four. The two counters therefore
follow the return values of `Publish`, not the decisions of the broker, and
agree with the broker exactly in the runs that lose nothing after the buffer.
-/

namespace SolacePubSub
namespace Producer

def Process.notAccepted (p : Process) : ℕ :=
  p.failed + p.rejected.length + p.discarded.length + p.outbound.length

def Process.AgreesWithBroker (p : Process) : Prop :=
  p.publishedTotal = p.accepted.length ∧ p.publishErrors = p.notAccepted

instance (p : Process) : Decidable p.AgreesWithBroker := inferInstanceAs (Decidable (_ ∧ _))

structure Process.Balanced (p : Process) : Prop where
  published : p.publishedTotal + p.loop.pending =
    p.outbound.length + p.accepted.length + p.rejected.length + p.discarded.length
  errors : p.main ≠ .fatal → p.publishErrors + p.loop.erring = p.failed
  unstarted : p.main = .connect ∨ p.main = .build ∨ p.main = .start → p.loop = .absent
  buffered : p.outbound ≠ [] → p.Alive ∧ p.loop ≠ .absent

theorem balanced_fresh : Process.fresh.Balanced := by
  constructor <;> simp [Process.fresh, Loop.pending, Loop.erring]

theorem Process.Balanced.errors_at {p : Process} (hb : p.Balanced) {c : Main} (hp : p.main = c)
    (hc : c ≠ .fatal) : p.publishErrors + p.loop.erring = p.failed :=
  hb.errors (hp ▸ hc)

theorem Process.Balanced.emptied {p : Process} (hb : p.Balanced) (hp : ¬ p.Alive) :
    p.outbound = [] := by
  by_contra hne
  exact hp (hb.buffered hne).1

theorem started_of_loop {p : Process} (hb : p.Balanced) (hl : p.loop ≠ .absent) :
    ¬ (p.main = .connect ∨ p.main = .build ∨ p.main = .start) :=
  fun h => hl (hb.unstarted h)

theorem balanced_loop {p q : Process} (hb : p.Balanced) (ha : p.Alive) (hl : p.loop ≠ .absent)
    (hm : q.main = p.main) (hl' : q.loop ≠ .absent)
    (hpub : q.publishedTotal + q.loop.pending =
      q.outbound.length + q.accepted.length + q.rejected.length + q.discarded.length)
    (herr : p.publishErrors + p.loop.erring = p.failed →
      q.publishErrors + q.loop.erring = q.failed) : q.Balanced where
  published := hpub
  errors _ := herr (hb.errors ha.2)
  unstarted h := absurd (hm ▸ h) (started_of_loop hb hl)
  buffered _ := ⟨by rwa [Process.Alive, hm], hl'⟩

theorem balanced_take {p q : Process} (hb : p.Balanced) (hne : p.outbound ≠ [])
    (hm : q.main = p.main) (hl : q.loop = p.loop)
    (ht : q.publishedTotal = p.publishedTotal) (he : q.publishErrors = p.publishErrors)
    (hf : q.failed = p.failed)
    (hlen : q.outbound.length + q.accepted.length + q.rejected.length + q.discarded.length =
      p.outbound.length + p.accepted.length + p.rejected.length + p.discarded.length) :
    q.Balanced where
  published := by rw [ht, hl, hlen]; exact hb.published
  errors h := by rw [he, hl, hf]; exact hb.errors (hm ▸ h)
  unstarted h := by rw [hl]; exact hb.unstarted (hm ▸ h)
  buffered _ := by
    rw [Process.Alive, hm, hl]
    exact hb.buffered hne

theorem balanced_discard {p : Process} (hb : p.Balanced) : p.discard.Balanced where
  published := by
    have h := hb.published
    simp only [Process.discard, List.length_nil, List.length_append]
    omega
  errors h := hb.errors h
  unstarted h := hb.unstarted h
  buffered h := absurd rfl h

theorem balanced_step (cfg : Config) (e : Event) (p : Process) (he : e.Enabled p)
    (hb : p.Balanced) : (e.apply cfg p).Balanced := by
  have hpub := hb.published
  cases e with
  | connect ok =>
    have hl := hb.unstarted (.inl he)
    have herr := hb.errors_at he (by decide)
    exact ⟨hpub, fun _ => herr, fun _ => hl, fun h => absurd hl (hb.buffered h).2⟩
  | build ok =>
    have hl := hb.unstarted (.inr (.inl he))
    have herr := hb.errors_at he (by decide)
    cases ok with
    | true => exact ⟨hpub, fun _ => herr, fun _ => hl, fun h => absurd hl (hb.buffered h).2⟩
    | false =>
      exact ⟨hpub, fun h => absurd rfl h, fun _ => hl, fun h => absurd hl (hb.buffered h).2⟩
  | start ok =>
    have hl := hb.unstarted (.inr (.inr he))
    have herr := hb.errors_at he (by decide)
    cases ok with
    | true =>
      rw [hl] at hpub herr
      exact ⟨hpub, fun _ => herr, by simp [Event.apply], fun h => absurd hl (hb.buffered h).2⟩
    | false =>
      exact ⟨hpub, fun h => absurd rfl h, fun _ => hl, fun h => absurd hl (hb.buffered h).2⟩
  | publish id price =>
    obtain ⟨ha, hl⟩ := he
    rw [hl] at hpub
    refine balanced_loop hb ha (by simp [hl]) rfl (by simp [Event.apply]) ?_
      (by simp [Event.apply, hl, Loop.erring])
    simp [Event.apply, Loop.pending] at hpub ⊢
    omega
  | publishFails =>
    obtain ⟨ha, hl⟩ := he
    rw [hl] at hpub
    refine balanced_loop hb ha (by simp [hl]) rfl (by simp [Event.apply]) hpub ?_
    simp [Event.apply, hl, Loop.erring]
  | incErrors =>
    obtain ⟨ha, hl⟩ := he
    rw [hl] at hpub
    refine balanced_loop hb ha (by simp [hl]) rfl (by simp [Event.apply]) hpub ?_
    simp [Event.apply, hl, Loop.erring]
  | incPublished =>
    obtain ⟨ha, hl⟩ := he
    rw [hl] at hpub
    have hn : p.loop ≠ .absent := by
      intro h
      simp [h, Loop.pending] at hl
    refine balanced_loop hb ha hn rfl (by simp [Event.apply]) hpub ?_
    cases hp : p.loop <;> simp [hp, Loop.pending] at hl
    simp [Event.apply, Loop.erring]
  | wake =>
    obtain ⟨ha, hl⟩ := he
    rw [hl] at hpub
    refine balanced_loop hb ha (by simp [hl]) rfl (by simp [Event.apply]) hpub ?_
    simp [Event.apply, hl, Loop.erring]
  | accept m =>
    obtain ⟨_, hm⟩ := he
    refine balanced_take hb (List.ne_nil_of_mem hm) rfl rfl rfl rfl rfl ?_
    have hpos := List.length_pos_of_mem hm
    simp only [Event.apply, List.length_erase_of_mem hm, List.length_append, List.length_singleton]
    omega
  | reject m =>
    obtain ⟨_, hm⟩ := he
    refine balanced_take hb (List.ne_nil_of_mem hm) rfl rfl rfl rfl rfl ?_
    have hpos := List.length_pos_of_mem hm
    simp only [Event.apply, List.length_erase_of_mem hm, List.length_append, List.length_singleton]
    omega
  | sigterm =>
    have herr := hb.errors_at he (by decide)
    exact ⟨hpub, fun _ => herr, by simp [Event.apply],
      fun h => ⟨by simp [Event.apply, Process.Alive], (hb.buffered h).2⟩⟩
  | disconnect =>
    have hd := balanced_discard hb
    have herr := hb.errors_at he (by decide)
    exact ⟨hd.published, fun _ => herr, by simp [Event.apply], fun h => absurd rfl h⟩
  | mainReturns =>
    have hd := balanced_discard hb
    have herr := hb.errors_at he (by decide)
    exact ⟨hd.published, fun _ => herr, by simp [Event.apply], fun h => absurd rfl h⟩
  | die =>
    have hd := balanced_discard hb
    exact ⟨hd.published, fun h => absurd rfl h, by simp [Event.apply], fun h => absurd rfl h⟩
  | launch => exact balanced_fresh

theorem run_balanced {cfg : Config} {es : List Event} {p : Process}
    (h : (machine cfg).Run .fresh es p) : p.Balanced :=
  h.invariant (balanced_step cfg) balanced_fresh

theorem Process.Balanced.final {p : Process} (hb : p.Balanced) (hret : p.main = .returned) :
    p.publishedTotal + p.loop.pending =
        p.accepted.length + p.rejected.length + p.discarded.length ∧
      p.publishErrors + p.loop.erring = p.failed ∧
      (p.AgreesWithBroker ↔ p.rejected = [] ∧ p.discarded = [] ∧
        p.loop.pending = 0 ∧ p.loop.erring = 0) := by
  have hempty := hb.emptied fun h => h.1 hret
  have hpub := hb.published
  have herr := hb.errors_at hret (by decide)
  rw [hempty, List.length_nil, Nat.zero_add] at hpub
  refine ⟨hpub, herr, ?_⟩
  rw [Process.AgreesWithBroker, Process.notAccepted, hempty, List.length_nil,
    ← List.length_eq_zero_iff, ← List.length_eq_zero_iff]
  constructor
  · intro hagree
    omega
  · intro hlost
    omega

/-- In the final state `publishedTotal` counts what was accepted, rejected and
discarded alike and `publishErrors` the failed `Publish` calls, each less the
one increment that the end of the process may have cut off. The counters agree
with the broker exactly when nothing was rejected or discarded and no increment
was cut off. -/
theorem final_counters {cfg : Config} {es : List Event} {p : Process}
    (h : (machine cfg).Run .fresh es p) (hret : p.main = .returned) :
    p.publishedTotal + p.loop.pending =
        p.accepted.length + p.rejected.length + p.discarded.length ∧
      p.publishErrors + p.loop.erring = p.failed ∧
      (p.AgreesWithBroker ↔ p.rejected = [] ∧ p.discarded = [] ∧
        p.loop.pending = 0 ∧ p.loop.erring = 0) := by
  have hb := run_balanced h
  exact hb.final hret

/-- One message is buffered and counted, then SIGTERM arrives before the broker
has taken it. -/
def lostAtShutdown : List Event :=
  [.connect true, .build true, .start true, .publish 0 leastPrice, .incPublished, .sigterm,
    .disconnect, .mainReturns]

theorem final_counters_lostAtShutdown :
    let p := (machine (config fun _ => "")).final lostAtShutdown .fresh
    p.publishedTotal + p.loop.pending =
        p.accepted.length + p.rejected.length + p.discarded.length ∧
      p.publishErrors + p.loop.erring = p.failed ∧
      (p.AgreesWithBroker ↔ p.rejected = [] ∧ p.discarded = [] ∧
        p.loop.pending = 0 ∧ p.loop.erring = 0) :=
  final_counters (Machine.Legal.run (by decide)) rfl

theorem counters_disagree_with_broker :
    ¬ ∀ (cfg : Config) (es : List Event) (p : Process),
      (machine cfg).Run .fresh es p → p.main = .returned → p.AgreesWithBroker := by
  intro h
  have hr : (machine (config fun _ => "")).Run .fresh lostAtShutdown _ :=
    Machine.Legal.run (by decide)
  have hpub := (h _ _ _ hr rfl).1
  exact absurd hpub (by decide)

end Producer

variable {ι κ : Type*} [DecidableEq ι] [DecidableEq κ]

theorem run_producers_balanced {D : Deployment} {queues : String → Option (Queue κ)} {s : State ι κ}
    {es : List (Event ι κ)} (h : (machine ι κ D).Run (.initial D queues) es s) (i : ι) :
    (s.producers i).Balanced := by
  have hr := run_producer h i
  exact Producer.run_balanced hr

end SolacePubSub
