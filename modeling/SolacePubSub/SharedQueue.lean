import SolacePubSub.ConsumerScaling
import SolacePubSub.Lib.FamilySum
import Mathlib.Algebra.Order.BigOperators.Group.Finset

/-!
# Backlog on a shared queue

The same clocked system with a queue that serves every bound receiver. Ten
receivers for each producer then take every message in the tick in which it is
published, so that no message ever waits through a tick: what `startConsumer`
lacks to scale out is the access type alone.
-/

namespace SolacePubSub.Scaling
open Consumer (AccessType callbackPause)
open Producer (publishPause)

variable {ι κ : Type*} [Fintype κ]

def State.remaining (s : State ι κ) (r : ℕ) : ℕ := ∑ j, if s.busy j = r then 1 else 0

def State.handling (s : State ι κ) : ℕ := ∑ j, if s.busy j = 0 then 0 else 1

theorem handling_eq {s : State ι κ} (hs : ∀ j, s.busy j ≤ callbackPause) :
    s.handling = ∑ r ∈ Finset.range callbackPause, s.remaining (r + 1) := by
  unfold State.handling State.remaining
  rw [Finset.sum_comm]
  apply Finset.sum_congr rfl
  intro j _
  have hj := hs j
  by_cases hidle : s.busy j = 0
  · simp [hidle]
  · have hr : ∀ r, s.busy j = r + 1 ↔ s.busy j - 1 = r := by
      intro r
      omega
    have hmem : s.busy j - 1 ∈ Finset.range callbackPause := Finset.mem_range.mpr (by omega)
    simp [hidle, hr, Finset.sum_ite_eq, hmem]

section Step
variable [DecidableEq ι] [DecidableEq κ] {s : State ι κ} {j : κ} {r : ℕ}

theorem remaining_handOver (hidle : s.busy j = 0) (hr : 0 < r) :
    ((Event.handOver (ι := ι) j).apply s).remaining r =
      s.remaining r + if callbackPause = r then 1 else 0 :=
  FamilySum.sum_update_balance (fun b => if b = r then 1 else 0) s.busy j callbackPause
    (x := 0) (by simp [hidle, hr.ne])

theorem handling_handOver (hidle : s.busy j = 0) :
    ((Event.handOver (ι := ι) j).apply s).handling = s.handling + 1 :=
  FamilySum.sum_update_balance (fun b => if b = 0 then 0 else 1) s.busy j callbackPause
    (x := 0) (by simp [hidle, callbackPause])

theorem remaining_tick (hr : 0 < r) :
    ((Event.tick : Event ι κ).apply s).remaining r = s.remaining (r + 1) := by
  apply Finset.sum_congr rfl
  intro k _
  have hiff : s.busy k - 1 = r ↔ s.busy k = r + 1 := by omega
  simp only [Event.apply, hiff]

theorem handling_tick :
    ((Event.tick : Event ι κ).apply s).handling + s.remaining 1 = s.handling := by
  unfold State.handling State.remaining
  rw [← Finset.sum_add_distrib]
  apply Finset.sum_congr rfl
  intro k _
  match h : s.busy k with
  | 0 => simp [Event.apply, h]
  | 1 => simp [Event.apply, h]
  | n + 2 => simp [Event.apply, h]

end Step

variable [Fintype ι]

structure State.Shared (s : State ι κ) : Prop where
  asleep : ∀ i, s.asleep i ≤ publishPause
  bounded : ∀ j, s.busy j ≤ callbackPause
  recent : s.waiting + s.remaining callbackPause ≤ ∑ i, s.asleep i
  older : ∀ r, 0 < r → s.remaining r ≤ Fintype.card ι
  account : s.published = s.completed + s.waiting + s.handling

theorem State.Shared.recent_le {s : State ι κ} (hs : s.Shared) :
    s.waiting + s.remaining callbackPause ≤ Fintype.card ι := by
  have hsum : ∑ i, s.asleep i ≤ ∑ _ : ι, publishPause := Finset.sum_le_sum fun i _ => hs.asleep i
  have hcard : ∑ _ : ι, publishPause = Fintype.card ι := by simp [publishPause]
  have hrecent := hs.recent
  omega

theorem State.Shared.waiting_add_handling_le {s : State ι κ} (hs : s.Shared) :
    s.waiting + s.handling ≤ callbackPause * Fintype.card ι := by
  have hrecent := hs.recent_le
  have holder : ∑ r ∈ Finset.range 9, s.remaining (r + 1) ≤ ∑ _r ∈ Finset.range 9, Fintype.card ι :=
    Finset.sum_le_sum fun r _ => hs.older (r + 1) (Nat.succ_pos r)
  rw [handling_eq hs.bounded]
  simp only [callbackPause, Finset.sum_range_succ _ 9, Nat.reduceAdd, Finset.sum_const,
    Finset.card_range, smul_eq_mul] at hrecent holder ⊢
  omega

theorem shared_initial : (State.initial (ι := ι) (κ := κ)).Shared where
  asleep _ := Nat.zero_le _
  bounded _ := Nat.zero_le _
  recent := by simp [State.initial, State.remaining, callbackPause]
  older r hr := by simp [State.initial, State.remaining, hr.ne]
  account := by simp [State.initial, State.handling]

/-- When time passes the queue is empty: else every receiver would be busy, and
there are more of them than messages of the last ten ticks. -/
theorem waiting_of_tick {bound : List κ} (hbound : ∀ j, j ∈ bound)
    (hcard : callbackPause * Fintype.card ι ≤ Fintype.card κ) {s : State ι κ} (hs : s.Shared)
    (he : (Event.tick : Event ι κ).Enabled .nonExclusive bound s) : s.waiting = 0 := by
  by_contra hwait
  have hpos := Nat.pos_of_ne_zero hwait
  have hbusy : ∀ j, s.busy j ≠ 0 := fun j hidle => he j ⟨hbound j, hidle, hpos⟩
  have hall : s.handling = Fintype.card κ := by simp [State.handling, hbusy]
  have hle := hs.waiting_add_handling_le
  omega

variable [DecidableEq ι] [DecidableEq κ] {bound : List κ}

theorem shared_publish {s : State ι κ} (hs : s.Shared) {i : ι} (hi : s.asleep i = 0) :
    ((Event.publish i).apply s).Shared := by
  have hrecent := hs.recent
  have hacc := hs.account
  have hasleep : ∑ k, Function.update s.asleep i publishPause k = ∑ k, s.asleep k + 1 :=
    FamilySum.sum_update_balance id s.asleep i publishPause (x := 0) (by rw [hi]; rfl)
  refine ⟨?_, hs.bounded, ?_, hs.older, ?_⟩
  · change ∀ k, Function.update s.asleep i publishPause k ≤ publishPause
    rw [Function.forall_update_iff s.asleep (p := fun _ n => n ≤ publishPause)]
    constructor
    · exact le_rfl
    · exact fun k _ => hs.asleep k
  · change s.waiting + 1 + s.remaining callbackPause ≤ _
    refine le_trans ?_ hasleep.ge
    omega
  · change s.published + 1 = s.completed + (s.waiting + 1) + s.handling
    omega

theorem shared_handOver {s : State ι κ} (hs : s.Shared) {j : κ} (hidle : s.busy j = 0)
    (hwait : 0 < s.waiting) : ((Event.handOver j).apply s).Shared := by
  have hrecent := hs.recent
  have hacc := hs.account
  have hlimit := hs.recent_le
  refine ⟨hs.asleep, ?_, ?_, ?_, ?_⟩
  · change ∀ k, Function.update s.busy j callbackPause k ≤ callbackPause
    rw [Function.forall_update_iff s.busy (p := fun _ n => n ≤ callbackPause)]
    constructor
    · exact le_rfl
    · exact fun k _ => hs.bounded k
  · rw [remaining_handOver hidle (by decide), if_pos rfl]
    change s.waiting - 1 + (s.remaining callbackPause + 1) ≤ ∑ i, s.asleep i
    omega
  · intro r hr
    rw [remaining_handOver hidle hr]
    split_ifs with heq
    · subst r
      omega
    · exact hs.older r hr
  · rw [handling_handOver hidle]
    change s.published = s.completed + (s.waiting - 1) + (s.handling + 1)
    omega

theorem shared_tick {s : State ι κ} (hs : s.Shared) (hempty : s.waiting = 0) :
    ((Event.tick : Event ι κ).apply s).Shared := by
  have hacc := hs.account
  have hhandling := handling_tick (s := s)
  have hnone : s.remaining (callbackPause + 1) = 0 := by
    apply Finset.sum_eq_zero
    intro j _
    rw [if_neg]
    have hj := hs.bounded j
    omega
  refine ⟨fun i => (Nat.sub_le _ _).trans (hs.asleep i),
    fun j => (Nat.sub_le _ _).trans (hs.bounded j), ?_, ?_, ?_⟩
  · rw [remaining_tick (by decide), hnone]
    exact hempty.trans_le (Nat.zero_le _)
  · intro r hr
    rw [remaining_tick hr]
    exact hs.older (r + 1) (Nat.succ_pos r)
  · change s.published = s.completed + s.remaining 1 + s.waiting +
      ((Event.tick : Event ι κ).apply s).handling
    omega

theorem shared_step (hbound : ∀ j, j ∈ bound)
    (hcard : callbackPause * Fintype.card ι ≤ Fintype.card κ) (e : Event ι κ) (s : State ι κ)
    (he : e.Enabled .nonExclusive bound s) (hs : s.Shared) : (e.apply s).Shared := by
  cases e with
  | publish i => exact shared_publish hs he
  | handOver j =>
    obtain ⟨_, hidle, hwait⟩ := he
    exact shared_handOver hs hidle hwait
  | tick => exact shared_tick hs (waiting_of_tick hbound hcard hs he)

theorem backlog_le_of_shared (hbound : ∀ j, j ∈ bound)
    (hcard : callbackPause * Fintype.card ι ≤ Fintype.card κ) {es : List (Event ι κ)}
    {t : State ι κ} (h : (machine ι κ .nonExclusive bound).Run .initial es t) :
    t.backlog ≤ callbackPause * Fintype.card ι := by
  have hs : t.Shared := h.invariant (shared_step hbound hcard) shared_initial
  have hacc := hs.account
  have hle := hs.waiting_add_handling_le
  rw [State.backlog]
  omega

end SolacePubSub.Scaling
