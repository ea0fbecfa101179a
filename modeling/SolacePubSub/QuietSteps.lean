import SolacePubSub.ActiveReceiver

/-!
# Quiet steps

The steps of a system in which nothing is published any more, nothing fails and
no process is told to stop, while those that were told before shut down. Every
hop of a message and every step of a process lowers the measure below. A receiver
that terminates gives back what it has not acknowledged, so each step of a
shutdown is priced at all the messages that may have to be handed out again.
-/

namespace SolacePubSub

namespace Producer

/-- Nothing fails and no process is told to stop. One that was told before goes on
shutting down. -/
def Event.Undisturbed : Event → Prop
  | .connect ok | .build ok | .start ok => ok = true
  | .reject _ | .sigterm | .die | .launch => False
  | _ => True

def Event.Quiet : Event → Prop
  | .publish _ _ | .publishFails => False
  | e => e.Undisturbed

def Main.stepsToWait : Main → ℕ
  | .connect => 3
  | .build => 2
  | .start => 1
  | _ => 0

def Main.closing : Main → ℕ
  | .disconnect => 2
  | .closed => 1
  | _ => 0

def Loop.stepsToTop : Loop → ℕ
  | .handed _ => 2
  | .failed | .asleep => 1
  | _ => 0

def Process.stepsAhead (p : Process) : ℕ :=
  -- A buffered message has six steps ahead of it, the last of them its ack.
  p.main.stepsToWait + p.main.closing + p.loop.stepsToTop + 6 * p.outbound.length

theorem stepsAhead_apply (cfg : Config) {p : Process} {e : Event} (he : e.Enabled p)
    (hquiet : e.Quiet) :
    (e.apply cfg p).stepsAhead + 5 * e.accepted.length + 1 ≤ p.stepsAhead := by
  cases e with
  | connect ok =>
    have hmain : p.main = .connect := he
    rw [show ok = true from hquiet]
    simp only [Event.apply, Process.stepsAhead, Event.accepted, hmain, Main.stepsToWait,
      Main.closing, List.length_nil, ↓reduceIte]
    omega
  | build ok =>
    have hmain : p.main = .build := he
    rw [show ok = true from hquiet]
    simp only [Event.apply, Process.stepsAhead, Event.accepted, hmain, Main.stepsToWait,
      Main.closing, List.length_nil, ↓reduceIte]
    omega
  | start ok =>
    have hmain : p.main = .start := he
    rw [show ok = true from hquiet]
    simp only [Event.apply, Process.stepsAhead, Event.accepted, hmain, Main.stepsToWait,
      Main.closing, Loop.stepsToTop, List.length_nil, ↓reduceIte]
    omega
  | incErrors =>
    simp only [Event.apply, Process.stepsAhead, Event.accepted, he.2, Loop.stepsToTop,
      List.length_nil]
    omega
  | incPublished =>
    have hpending := he.2
    cases hl : p.loop <;> simp [hl, Loop.pending] at hpending
    simp only [Event.apply, Process.stepsAhead, Event.accepted, hl, Loop.stepsToTop,
      List.length_nil]
    omega
  | wake =>
    simp only [Event.apply, Process.stepsAhead, Event.accepted, he.2, Loop.stepsToTop,
      List.length_nil]
    omega
  | accept m =>
    have hpos := List.length_pos_of_mem he.2
    simp only [Event.apply, Process.stepsAhead, Event.accepted, List.length_erase_of_mem he.2,
      List.length_singleton]
    omega
  | disconnect =>
    have hmain : p.main = .disconnect := he
    simp only [Event.apply, Process.discard, Process.stepsAhead, Event.accepted, hmain,
      Main.stepsToWait, Main.closing, List.length_nil]
    omega
  | mainReturns =>
    have hmain : p.main = .closed := he
    simp only [Event.apply, Process.discard, Process.stepsAhead, Event.accepted, hmain,
      Main.stepsToWait, Main.closing, List.length_nil]
    omega
  | _ => exact hquiet.elim

theorem handedOver_of_quiet {cfg : Config} {e : Event} (h : e.Quiet) : e.handedOver cfg = [] := by
  cases e with
  | publish id price => exact h.elim
  | _ => rfl

end Producer

namespace Consumer

def Event.Undisturbed : Event → Prop
  | .connect ok | .build ok | .start ok | .receiveAsync ok => ok = true
  | .reconnect _ | .sigterm | .die | .launch => False
  | _ => True

def Main.stepsToWait : Main → ℕ
  | .connect => 4
  | .build => 3
  | .start => 2
  | .register => 1
  | _ => 0

def Main.closing : Main → ℕ
  | .terminate => 3
  | .disconnect => 2
  | .closed => 1
  | _ => 0

def Process.stepsAhead (p : Process) : ℕ :=
  p.main.stepsToWait + p.main.closing + 4 * p.buffer.length + 3 * p.sleeping.length +
    2 * p.counted.length + p.acks.length

theorem AckMode.length_afterCallback (a : AckMode) (m : Message) :
    (a.afterCallback m).length ≤ 1 := by
  cases a <;> simp [AckMode.afterCallback]

theorem stepsAhead_apply {b : ReceiverBuilder} {p : Process} {e : Event} (he : e.Enabled p)
    (hu : e.Undisturbed) :
    (e.apply b p).stepsAhead + 1 ≤ p.stepsAhead + 5 * e.delivered.length := by
  cases e with
  | connect ok =>
    have hmain : p.main = .connect := he
    rw [show ok = true from hu]
    simp only [Event.apply, Process.stepsAhead, Event.delivered, hmain, Main.stepsToWait,
      Main.closing, List.length_nil, ↓reduceIte]
    omega
  | build ok =>
    have hmain : p.main = .build := he
    rw [show ok = true from hu]
    simp only [Event.apply, Process.stepsAhead, Event.delivered, hmain, Main.stepsToWait,
      Main.closing, List.length_nil, ↓reduceIte]
    omega
  | start ok =>
    have hmain : p.main = .start := he
    rw [show ok = true from hu]
    simp only [Event.apply, Process.stepsAhead, Event.delivered, hmain, Main.stepsToWait,
      Main.closing, List.length_nil, ↓reduceIte]
    omega
  | receiveAsync ok =>
    have hmain : p.main = .register := he
    simp only [Event.apply, Process.stepsAhead, Event.delivered, hmain, Main.stepsToWait,
      Main.closing, List.length_nil]
    omega
  | deliver m =>
    simp only [Event.apply, Process.stepsAhead, Event.delivered, List.length_append,
      List.length_singleton]
    omega
  | callback m =>
    have hpos := List.length_pos_of_mem he.2.2
    simp only [Event.apply, Process.stepsAhead, Event.delivered, List.length_append,
      List.length_erase_of_mem he.2.2, List.length_singleton]
    omega
  | incConsumed m =>
    have hpos := List.length_pos_of_mem he.2
    simp only [Event.apply, Process.stepsAhead, Event.delivered, List.length_append,
      List.length_erase_of_mem he.2, List.length_singleton]
    omega
  | callbackReturns m =>
    have hpos := List.length_pos_of_mem he.2
    have hack := b.ack.length_afterCallback m
    simp only [Event.apply, Process.stepsAhead, Event.delivered, List.length_append,
      List.length_erase_of_mem he.2]
    omega
  | ack m =>
    have hpos := List.length_pos_of_mem he.2
    simp only [Event.apply, Process.stepsAhead, Event.delivered, List.length_erase_of_mem he.2]
    omega
  | loseAck m =>
    have hpos := List.length_pos_of_mem he.2
    simp only [Event.apply, Process.stepsAhead, Event.delivered, List.length_erase_of_mem he.2]
    omega
  | terminate =>
    have hmain : p.main = .terminate := he
    simp only [Event.apply, Process.stepsAhead, Event.delivered, hmain, Main.stepsToWait,
      Main.closing, List.length_nil]
    omega
  | disconnect =>
    have hmain : p.main = .disconnect := he
    simp only [Event.apply, Process.stepsAhead, Event.delivered, hmain, Main.stepsToWait,
      Main.closing, List.length_nil]
    omega
  | mainReturns =>
    have hmain : p.main = .closed := he
    simp only [Event.apply, Process.stop, Process.stepsAhead, Event.delivered, hmain,
      Main.stepsToWait, Main.closing, List.length_nil]
    omega
  | _ => exact hu.elim

theorem closing_apply {b : ReceiverBuilder} {p : Process} {e : Event} (he : e.Enabled p)
    (hu : e.Undisturbed) :
    (e.apply b p).main.closing = p.main.closing ∧ ¬ e.Ends ∨
      (e.apply b p).main.closing + 1 = p.main.closing ∧ e.Ends := by
  cases e with
  | connect ok =>
    have hmain : p.main = .connect := he
    rw [show ok = true from hu]
    exact Or.inl ⟨by rw [hmain]; rfl, id⟩
  | build ok =>
    have hmain : p.main = .build := he
    rw [show ok = true from hu]
    exact Or.inl ⟨by rw [hmain]; rfl, id⟩
  | start ok =>
    have hmain : p.main = .start := he
    rw [show ok = true from hu]
    exact Or.inl ⟨by rw [hmain]; rfl, id⟩
  | receiveAsync ok =>
    have hmain : p.main = .register := he
    exact Or.inl ⟨by rw [hmain]; rfl, id⟩
  | terminate =>
    have hmain : p.main = .terminate := he
    exact Or.inr ⟨by rw [hmain]; rfl, trivial⟩
  | disconnect =>
    have hmain : p.main = .disconnect := he
    exact Or.inr ⟨by rw [hmain]; rfl, trivial⟩
  | mainReturns =>
    have hmain : p.main = .closed := he
    exact Or.inr ⟨by rw [hmain]; rfl, trivial⟩
  | reconnect keep => exact hu.elim
  | sigterm => exact hu.elim
  | die => exact hu.elim
  | launch => exact hu.elim
  | _ => exact Or.inl ⟨rfl, id⟩

end Consumer

variable {ι κ : Type*}

def Event.Undisturbed : Event ι κ → Prop
  | .producer _ e => e.Undisturbed
  | .consumer _ e => e.Undisturbed

def Event.Quiet : Event ι κ → Prop
  | .producer _ e => e.Quiet
  | .consumer _ e => e.Undisturbed

def State.unacked (D : Deployment) (s : State ι κ) (j : κ) : List Message :=
  ((s.queue D).map (·.unacked j)).getD []

def State.unsettled [Fintype ι] [Fintype κ] (D : Deployment) (s : State ι κ) : ℕ :=
  ∑ i, (s.producers i).outbound.length + (s.undelivered D).length + ∑ j, (s.unacked D j).length

/-- A bound on the quiet steps that can follow. Each step of a shutdown may put
all that is unsettled back on the queue. -/
def State.stepsAhead [Fintype ι] [Fintype κ] (D : Deployment) (s : State ι κ) : ℕ :=
  5 * s.unsettled D * ∑ j, (s.consumers j).main.closing + ∑ i, (s.producers i).stepsAhead +
    5 * (s.undelivered D).length + ∑ j, (s.consumers j).stepsAhead

section Step
variable [DecidableEq κ] {D : Deployment}

theorem card_returned_le [Fintype ι] [Fintype κ] (s : State ι κ) (j : κ) (e : Consumer.Event) :
    ((Event.consumer (ι := ι) j e).returned D s).card ≤ s.unsettled D := by
  have hle : ((Event.consumer (ι := ι) j e).returned D s).card ≤ (s.unacked D j).length := by
    rw [State.unacked, Event.returned]
    cases s.queue D with
    | none => exact Nat.zero_le _
    | some q => exact Queue.length_returned_le j q e
  have hsum := Finset.single_le_sum (f := fun k => (s.unacked D k).length)
    (fun k _ => Nat.zero_le _) (Finset.mem_univ j)
  rw [State.unsettled]
  exact hle.trans (hsum.trans (Nat.le_add_left _ _))

theorem returned_of_stays (s : State ι κ) (j : κ) {e : Consumer.Event} (hu : e.Undisturbed)
    (hends : ¬ e.Ends) : (Event.consumer (ι := ι) j e).returned D s = 0 := by
  rw [Event.returned]
  cases s.queue D with
  | none => rfl
  | some q => cases e <;> first | rfl | exact hu.elim | exact absurd trivial hends

variable [DecidableEq ι]

theorem unacked_consumer (s : State ι κ) (j : κ) (e : Consumer.Event) :
    (((Event.consumer (ι := ι) j e).apply D s).unacked D j).length +
        ((Event.consumer (ι := ι) j e).returned D s).card ≤
      (s.unacked D j).length + e.delivered.length := by
  rw [State.unacked, State.unacked, Event.returned, queue_consumer]
  cases hq : s.queue D with
  | none =>
    cases hnew : Queue.followOrCreate D.receiver j e none with
    | none => exact Nat.zero_le _
    | some r =>
      rw [Queue.eq_of_followOrCreate_none hnew]
      exact Nat.zero_le _
  | some q =>
    rw [Queue.followOrCreate_some]
    exact Queue.unacked_fates j q e

theorem unacked_consumer_of_ne (s : State ι κ) {j k : κ} (hk : k ≠ j) (e : Consumer.Event) :
    ((Event.consumer (ι := ι) j e).apply D s).unacked D k = s.unacked D k := by
  rw [State.unacked, State.unacked, queue_consumer]
  cases hq : s.queue D with
  | none =>
    cases hnew : Queue.followOrCreate D.receiver j e none with
    | none => rfl
    | some r =>
      rw [Queue.eq_of_followOrCreate_none hnew]
      rfl
  | some q =>
    rw [Queue.followOrCreate_some]
    exact Queue.unacked_follow_of_ne q hk e

theorem unsettled_step [Fintype ι] [Fintype κ] (e : Event ι κ) (s : State ι κ) (hquiet : e.Quiet)
    (he : e.Enabled D s) : (e.apply D s).unsettled D ≤ s.unsettled D := by
  cases e with
  | producer i e =>
    have hout := congrArg Multiset.card (Producer.outbound_fates D.producer he.1)
    have htaken := Multiset.card_le_card (taken_le D.topicMatch (s.queue D) e.accepted)
    simp only [Multiset.card_add, Multiset.coe_card, Producer.handedOver_of_quiet hquiet,
      List.length_nil] at hout htaken
    have hsum := FamilySum.sum_add_le (f := fun k => (((Event.producer i e).apply D s).producers
      k).outbound.length) (g := fun k => (s.producers k).outbound.length) i (x := e.accepted.length)
      (y := 0) (by simp only [producers_producer, Function.update_self]; omega)
      (fun k hk => by simp [producers_producer, hk])
    have hunacked : ∀ j, (((Event.producer i e).apply D s).unacked D j) = s.unacked D j := by
      intro j
      rw [State.unacked, State.unacked, queue_producer]
      cases s.queue D <;> rfl
    simp only [State.unsettled, undelivered_taken, hunacked, List.length_append]
    omega
  | consumer j e =>
    have hmsg := congrArg Multiset.card (undelivered_consumer (ι := ι) D s j he.2)
    simp only [Multiset.card_add, Multiset.coe_card] at hmsg
    have hsum := FamilySum.sum_add_le (f := fun k => (((Event.consumer (ι := ι) j e).apply D
      s).unacked D k).length) (g := fun k => (s.unacked D k).length) j
      (x := ((Event.consumer (ι := ι) j e).returned D s).card) (y := e.delivered.length)
      (unacked_consumer s j e)
      (fun k hk => (congrArg List.length (unacked_consumer_of_ne s hk e)).le)
    simp only [State.unsettled, producers_consumer]
    omega

theorem stepsAhead_step [Fintype ι] [Fintype κ] (e : Event ι κ) (s : State ι κ)
    (hquiet : e.Quiet) (he : e.Enabled D s) :
    (e.apply D s).stepsAhead D + 1 ≤ s.stepsAhead D := by
  have hunsettled := unsettled_step e s hquiet he
  cases e with
  | producer i e =>
    obtain ⟨d, hd⟩ := Nat.exists_eq_add_of_le (Producer.stepsAhead_apply D.producer he.1 hquiet)
    have hsum := FamilySum.sum_update_balance (fun p => p.stepsAhead) s.producers i
      (e.apply D.producer (s.producers i)) (x := 5 * e.accepted.length + 1 + d) (y := 0) (by omega)
    have htaken := Multiset.card_le_card (taken_le D.topicMatch (s.queue D) e.accepted)
    rw [Multiset.coe_card, Multiset.coe_card] at htaken
    have hprice := Nat.mul_le_mul_right (∑ j, (s.consumers j).main.closing)
      (Nat.mul_le_mul_left 5 hunsettled)
    simp only [State.stepsAhead, undelivered_taken, producers_producer, consumers_producer,
      List.length_append] at hprice ⊢
    omega
  | consumer j e =>
    obtain ⟨hlocal, hallows⟩ := he
    obtain ⟨d, hd⟩ := Nat.exists_eq_add_of_le (Consumer.stepsAhead_apply (b := D.receiver)
      hlocal hquiet)
    have hsum := FamilySum.sum_update_balance (fun p => p.stepsAhead) s.consumers j
      (e.apply D.receiver (s.consumers j)) (x := 1 + d) (y := 5 * e.delivered.length) (by omega)
    have hmsg := congrArg Multiset.card (undelivered_consumer (ι := ι) D s j hallows)
    simp only [Multiset.card_add, Multiset.coe_card] at hmsg
    simp only [State.stepsAhead, producers_consumer, consumers_consumer]
    rcases Consumer.closing_apply (b := D.receiver) hlocal hquiet with
      ⟨hclosing, hends⟩ | ⟨hclosing, _⟩
    · have hsame : ∑ k, (Function.update s.consumers j (e.apply D.receiver (s.consumers j))
          k).main.closing = ∑ k, (s.consumers k).main.closing :=
        FamilySum.sum_update_balance (fun p => p.main.closing) s.consumers j _ (x := 0) (y := 0)
          hclosing
      have hprice := Nat.mul_le_mul_right (∑ k, (s.consumers k).main.closing)
        (Nat.mul_le_mul_left 5 hunsettled)
      rw [returned_of_stays s j hquiet hends, Multiset.card_zero] at hmsg
      rw [hsame]
      omega
    · -- A step of a shutdown pays for what it puts back on the queue.
      have hless : ∑ k, (Function.update s.consumers j (e.apply D.receiver (s.consumers j))
          k).main.closing + 1 = ∑ k, (s.consumers k).main.closing :=
        FamilySum.sum_update_balance (fun p => p.main.closing) s.consumers j _ (x := 1) (y := 0)
          hclosing
      have hprice := Nat.mul_le_mul_right (∑ k, (Function.update s.consumers j
        (e.apply D.receiver (s.consumers j)) k).main.closing) (Nat.mul_le_mul_left 5 hunsettled)
      have hreturned := card_returned_le (ι := ι) (D := D) s j e
      rw [← hless, Nat.mul_succ]
      omega

end Step

end SolacePubSub
