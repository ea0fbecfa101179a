import SolacePubSub.Pacing
import SolacePubSub.ActiveReceiver
import SolacePubSub.MessageFates

/-!
# The throughput of one queue

An exclusive queue delivers to one receiver, whose callbacks run one after
another. So all consumers together count no more than one message for every ten
milliseconds, but for what a receiver still has in hand when it is terminated or
bound anew, and however many consumers there are, whatever else has been stored
waits.
-/

namespace SolacePubSub

namespace Consumer

def Event.kept (b : ReceiverBuilder) (p : Process) (e : Event) : ℕ :=
  match e with
  | .terminate | .reconnect _ => (e.apply b p).uncounted.card
  | _ => 0

theorem slept_le_uncounted (p : Process) (n : ℕ) :
    p.slept n ≤ callbackPause * p.uncounted.card := by
  unfold Process.slept
  split_ifs with h
  · exact Nat.zero_le _
  · have hpos := List.length_pos_iff.mpr h
    have hone : 1 ≤ p.uncounted.card := by
      rw [Process.uncounted, Multiset.card_add, Multiset.coe_card, Multiset.coe_card]
      omega
    calc callbackPause - n ≤ callbackPause * 1 := Nat.sub_le _ _
      _ ≤ callbackPause * p.uncounted.card := Nat.mul_le_mul_left _ hone

theorem uncounted_gone {b : ReceiverBuilder} {p : Process} {e : Event} (he : e.Enabled p)
    (hrecv : p.Receiving) (hgone : e.Ends ∨ e.IsReconnect) :
    e.incremented.length + (e.apply b p).uncounted.card ≤ e.kept b p := by
  cases e with
  | terminate => exact (Nat.zero_add _).le
  | reconnect keep => exact (Nat.zero_add _).le
  | mainReturns => exact le_rfl
  | die => exact le_rfl
  | disconnect =>
    have hmain : p.main = .disconnect := he
    simp [Process.Receiving, hmain] at hrecv
  | _ => exact (hgone.elim id id).elim

theorem charge_incremented (e : Event) :
    callbackPause * e.incremented.length = if e.isIncrement then callbackPause else 0 := by
  cases e <;> rfl

end Consumer

namespace Pacing
open Consumer (callbackPause)
variable {ι κ : Type*} [DecidableEq ι] [DecidableEq κ]

def Event.kept (D : Deployment) : Event ι κ → State ι κ → ℕ
  | .system (.consumer j e), s => e.kept D.receiver (s.system.consumers j)
  | _, _ => 0

/-- The ticks that the clock has already given to the uncounted messages of
consumer `j`. Those with a receiver that is not active have been paid in full. -/
def State.credit (D : Deployment) (s : State ι κ) (j : κ) : ℕ :=
  if s.system.active D = some j then (s.system.consumers j).slept (s.busy j)
  else callbackPause * (s.system.consumers j).uncounted.card

variable {D : Deployment} {s : State ι κ} {j k : κ}

section Credit
omit [DecidableEq ι]

theorem credit_active (h : s.system.active D = some j) :
    s.credit D j = (s.system.consumers j).slept (s.busy j) := if_pos h

theorem credit_inactive (h : s.system.active D ≠ some j) :
    s.credit D j = callbackPause * (s.system.consumers j).uncounted.card := if_neg h

theorem credit_le (D : Deployment) (s : State ι κ) (j : κ) :
    s.credit D j ≤ callbackPause * (s.system.consumers j).uncounted.card := by
  by_cases h : s.system.active D = some j
  · rw [credit_active h]
    exact Consumer.slept_le_uncounted _ _
  · rw [credit_inactive h]

end Credit

theorem credit_producer (i : ι) (e : Producer.Event) (k : κ) :
    ((Event.system (.producer i e)).apply D s).credit D k = s.credit D k := by
  simp only [State.credit, Event.apply, active_producer, consumers_producer]

theorem credit_tick (hk : s.system.active D = some k) :
    ((Event.tick : Event ι κ).apply D s).credit D k ≤ s.credit D k + 1 := by
  have htick := (s.system.consumers k).slept_tick (s.busy k)
  rw [credit_active hk, credit_active (s := (Event.tick : Event ι κ).apply D s) hk, Nat.add_comm]
  exact htick

theorem credit_tick_other (hk : s.system.active D ≠ some k) :
    ((Event.tick : Event ι κ).apply D s).credit D k = s.credit D k := by
  rw [credit_inactive hk, credit_inactive (s := (Event.tick : Event ι κ).apply D s) hk]
  rfl

theorem credit_other (hk : k ≠ j) (e : Consumer.Event) :
    ((Event.system (.consumer j e)).apply D s).credit D k ≤ s.credit D k := by
  have hsame : ((Event.system (.consumer j e)).apply D s).system.consumers k =
      s.system.consumers k := Function.update_of_ne hk _ _
  by_cases hactive : s.system.active D = some k
  · have hstill : ((Event.system (.consumer j e)).apply D s).system.active D = some k :=
      active_consumer hactive fun h => absurd h.symm hk
    rw [credit_active hstill, credit_active hactive, hsame]
    exact (congrArg _ (Function.update_of_ne hk _ _)).le
  · rw [credit_inactive hactive, ← hsame]
    exact credit_le D _ k

theorem credit_consumer {e : Consumer.Event}
    (he : (Event.system (.consumer j e)).Enabled D s) (ha : s.system.Attended D)
    (hs : s.WellTimed) :
    ((Event.system (.consumer j e)).apply D s).credit D j + callbackPause * e.incremented.length ≤
      s.credit D j + callbackPause * e.kept D.receiver (s.system.consumers j) := by
  obtain ⟨henabled, hdue⟩ := he
  have hafter : ((Event.system (.consumer j e)).apply D s).system.consumers j =
      e.apply D.receiver (s.system.consumers j) := Function.update_self _ _ _
  have hle := credit_le D ((Event.system (.consumer j e)).apply D s) j
  rw [hafter] at hle
  by_cases hactive : s.system.active D = some j
  · by_cases hgone : e.Ends ∨ e.IsReconnect
    · have hkept := Nat.mul_le_mul_left callbackPause (Consumer.uncounted_gone (b := D.receiver)
        henabled.1 (receiving_of_active ha hactive) hgone)
      rw [Nat.mul_add] at hkept
      omega
    · have hstill : ((Event.system (.consumer j e)).apply D s).system.active D = some j :=
        active_consumer hactive fun _ => hgone
      have hbusy : ((Event.system (.consumer j e)).apply D s).busy j =
          e.busyAfter (s.busy j) := Function.update_self _ _ _
      have hslept := Consumer.slept_apply (b := D.receiver) henabled.1 hdue (hs.sequential j)
      rw [credit_active hstill, credit_active hactive, hafter, hbusy, Consumer.charge_incremented]
      omega
  · have hstep := Consumer.uncounted_apply (b := D.receiver) henabled.1
    rw [Queue.delivered_of_not_head ha.exclusive hactive henabled.2, List.length_nil,
      Nat.add_zero] at hstep
    have hpaid := Nat.mul_le_mul_left callbackPause hstep
    rw [Nat.mul_add] at hpaid
    rw [credit_inactive hactive]
    omega

theorem attended_timed (hD : D.receiver.access = .exclusive) (e : Event ι κ) (s : State ι κ)
    (he : e.Enabled D s) (hs : s.system.Attended D) : (e.apply D s).system.Attended D := by
  cases e with
  | tick => exact hs
  | system e =>
    cases e with
    | producer i e => exact attended_step hD _ _ he.1 hs
    | consumer j e => exact attended_step hD _ _ he.1 hs

variable [Fintype κ]

theorem credit_step (e : Event ι κ) (s : State ι κ) (he : e.Enabled D s) (hs : s.WellTimed)
    (ha : s.system.Attended D) :
    callbackPause * (e.apply D s).system.increments.length + ∑ k, (e.apply D s).credit D k ≤
      (if isTick e then 1 else 0) + callbackPause * e.kept D s +
        (callbackPause * s.system.increments.length + ∑ k, s.credit D k) := by
  cases e with
  | tick =>
    have hticked : ∑ k, ((Event.tick : Event ι κ).apply D s).credit D k ≤
        (∑ k, s.credit D k) + 1 := by
      cases hactive : s.system.active D with
      | none =>
        have hsame : ∀ k, ((Event.tick : Event ι κ).apply D s).credit D k = s.credit D k :=
          fun k => credit_tick_other (by simp [hactive])
        simp only [hsame]
        exact Nat.le_succ _
      | some j =>
        have hothers : ∀ k, k ≠ j → ((Event.tick : Event ι κ).apply D s).credit D k ≤
            s.credit D k := by
          intro k hk
          exact (credit_tick_other fun h => hk (Option.some.inj (h.symm.trans hactive))).le
        exact FamilySum.sum_add_le (x := 0) j (credit_tick hactive) hothers
    simp only [isTick, Event.kept, Event.apply, if_true] at hticked ⊢
    omega
  | system e =>
    cases e with
    | producer i e =>
      simp only [credit_producer]
      simp only [isTick, Event.kept, Event.apply, SolacePubSub.Event.apply]
      omega
    | consumer j e =>
      have hsum := FamilySum.sum_add_le j (credit_consumer he ha hs)
        (fun k hk => credit_other (D := D) (s := s) hk e)
      have hlength : ((Event.system (.consumer j e)).apply D s).system.increments.length =
          s.system.increments.length + e.incremented.length := by
        simp [Event.apply, SolacePubSub.Event.apply]
      rw [hlength, Nat.mul_add]
      simp only [isTick, Event.kept]
      omega

section Counts
omit [DecidableEq ι] [DecidableEq κ] [Fintype κ]

theorem stored_le {t : SolacePubSub.State ι κ} (hnodup : t.stored.Nodup) :
    t.stored.length ≤ t.increments.length + (t.stored.filter (· ∉ t.counted)).length := by
  have hsubset : t.stored.filter (· ∈ t.counted) ⊆ t.counted := by
    intro m hm
    simpa using List.of_mem_filter hm
  have hle := ((hnodup.filter (· ∈ t.counted)).subperm hsubset).length_le
  have hsplit := List.length_eq_length_filter_add (l := t.stored) (· ∈ t.counted)
  have hcounted : t.counted.length = t.increments.length := List.length_map _
  simp only [decide_not]
  omega

end Counts

def Event.untimed : Event ι κ → Option (SolacePubSub.Event ι κ)
  | .system e => some e
  | .tick => none

omit [Fintype κ] in
theorem run_untimed {t : State ι κ} {es : List (Event ι κ)} (h : (machine ι κ D).Run s es t) :
    (SolacePubSub.machine ι κ D).Run s.system (es.filterMap Event.untimed) t.system := by
  refine h.project State.system Event.untimed ?_
  intro e s he
  cases e with
  | tick => rfl
  | system e =>
    cases e with
    | producer i e => exact ⟨he.1, rfl⟩
    | consumer j e => exact ⟨he.1, rfl⟩

/-- Whatever fails, all consumers together count no more than one message for
every ten milliseconds and one for each that a receiver kept when it was
terminated or bound anew. If the queue was empty at first, everything stored
beyond that is still to be counted, however many consumers there are. -/
theorem throughput_bounded [Fintype ι] (topicMatch : String → String → Bool)
    (pc : Producer.Config) (cc : Consumer.Config) {queues : String → Option (Queue κ)}
    (hq : ∀ q ∈ queues cc.queue, q.Unused) {es : List (Event ι κ)} {s : State ι κ}
    (h : (machine ι κ (deploy topicMatch pc cc)).Run
      (.initial (deploy topicMatch pc cc) queues) es s) :
    let D := deploy topicMatch pc cc
    let kept := (machine ι κ D).total (Event.kept D) es (.initial D queues)
    callbackPause * s.system.increments.length ≤ es.countP isTick + callbackPause * kept ∧
      ((SolacePubSub.State.initial (ι := ι) D queues).stored = [] →
        callbackPause * s.system.stored.length ≤ es.countP isTick + callbackPause *
          (kept + (s.system.stored.filter (· ∉ s.system.counted)).length)) := by
  intro D kept
  have hspent := h.amortized (P := fun _ => True)
    (I := fun t => t.WellTimed ∧ t.system.Attended D)
    (v := fun t => callbackPause * t.system.increments.length + ∑ k, t.credit D k)
    (f := fun _ _ => 0)
    (fun e t he ht => ⟨wellTimed_step e t he ht.1, attended_timed rfl e t he ht.2⟩)
    (fun e t _ he ht => (Nat.zero_add _).le.trans (credit_step e t he ht.1 ht.2))
    (fun _ _ => trivial) ⟨wellTimed_initial D queues, attended_initial hq⟩
  have hcredit : ∑ k, (State.initial (ι := ι) D queues).credit D k = 0 := by
    refine Finset.sum_eq_zero fun k _ => Nat.le_zero.mp ?_
    exact credit_le D (State.initial D queues) k
  have hcounted : callbackPause * s.system.increments.length ≤
      es.countP isTick + callbackPause * kept := by
    rw [Machine.total_zero, Machine.total_add, Machine.total_charges, one_mul,
      Machine.total_mul_left, hcredit] at hspent
    change 0 + (_ + _) ≤ _ + callbackPause * kept + (callbackPause * 0 + 0) at hspent
    omega
  refine ⟨hcounted, fun hempty => ?_⟩
  have hstored := stored_le (run_stored_nodup (run_untimed h) hempty)
  have hpaid := Nat.mul_le_mul_left callbackPause hstored
  rw [Nat.mul_add] at hpaid ⊢
  omega

/-- The callback of `j` runs on after its receiver was terminated, beside the one
that `k` runs for the same message, so that two counts take ten milliseconds. -/
def overlapping (j k : κ) : List (Event Unit κ) :=
  let m := Producer.message (Producer.config fun _ => "") 0 Producer.leastPrice
  let twice : List (SolacePubSub.Event Unit κ) :=
    [.producer () (.publish 0 Producer.leastPrice), .producer () (.accept m),
      .consumer j (.deliver m), .consumer j (.callback m), .consumer j .sigterm,
      .consumer j .terminate, .consumer k (.deliver m), .consumer k (.callback m)]
  (consumerStart j ++ consumerStart k ++ producerStart () ++ twice).map .system ++
    List.replicate callbackPause .tick ++
    [.system (.consumer j (.incConsumed m)), .system (.consumer k (.incConsumed m))]

theorem throughput_bounded_overlapping :
    let D := deploy (· == ·) (Producer.config fun _ => "") (Consumer.config fun _ => "")
    let queues : String → Option (Queue (Fin 2)) := fun _ =>
      some (.create { D.receiver with subscriptions := [D.producer.topic] })
    let s := (machine Unit (Fin 2) D).final (overlapping 0 1) (.initial D queues)
    let kept := (machine Unit (Fin 2) D).total (Event.kept D) (overlapping 0 1) (.initial D queues)
    callbackPause * s.system.increments.length ≤
        (overlapping (0 : Fin 2) 1).countP isTick + callbackPause * kept ∧
      ((SolacePubSub.State.initial (ι := Unit) D queues).stored = [] →
        callbackPause * s.system.stored.length ≤
          (overlapping (0 : Fin 2) 1).countP isTick + callbackPause *
            (kept + (s.system.stored.filter (· ∉ s.system.counted)).length)) := by
  intro D queues s kept
  have hunused : ∀ q ∈ queues D.receiver.queue, q.Unused :=
    fun q hq => Option.some.inj hq ▸ Queue.unused_create rfl
  exact throughput_bounded (· == ·) _ _ hunused (Machine.Legal.run (by decide))

end Pacing

end SolacePubSub
