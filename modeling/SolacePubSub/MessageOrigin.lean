import SolacePubSub.AtLeastOnce
import SolacePubSub.ActiveReceiver
import SolacePubSub.Lib.FlatJson

/-!
# Where messages come from

A message comes into being in a `Publish` and nowhere else. Whatever is lost,
redelivered or counted again, what a consumer is given is what some producer
handed over, and its payload still reads as the JSON object of one price.
-/

namespace SolacePubSub

namespace Producer

theorem payload_eq_render (price : Fin 1000) :
    payload price = FlatJson.render [("price".toList, price.val)] := by
  rw [← String.toList_inj]
  simp [payload, FlatJson.render, FlatJson.renderMembers, FlatJson.renderMember, toString]

theorem parse_payload (price : Fin 1000) :
    FlatJson.parse (payload price) = some [("price".toList, price.val)] := by
  rw [payload_eq_render]
  exact FlatJson.parse_render (by simp; decide)

def WellFormed (cfg : Config) (m : Message) : Prop :=
  m.topic = cfg.topic ∧
    ∃ price < 1000, FlatJson.parse m.payload = some [("price".toList, price)]

theorem wellFormed_of_handedOver {cfg : Config} {e : Event} {m : Message}
    (h : m ∈ e.handedOver cfg) : WellFormed cfg m := by
  refine ⟨topic_of_handedOver h, ?_⟩
  cases e with
  | publish id price =>
    rw [List.mem_singleton.mp h]
    exact ⟨price.val, price.isLt, parse_payload price⟩
  | _ => exact absurd h List.not_mem_nil

end Producer

namespace Queue
variable {κ : Type*}

theorem not_holds_create (b : Consumer.ReceiverBuilder) (j : κ) (m : Message) :
    ¬ ((create b).bind j).Holds m := by
  rintro (h | ⟨k, h⟩)
  · exact absurd h List.not_mem_nil
  · exact absurd h List.not_mem_nil

theorem holds_of_route {q : Queue κ} {m : Message} {topicMatch : String → String → Bool}
    {ms : List Message} (h : (q.route topicMatch ms).Holds m) : q.Holds m ∨ m ∈ ms := by
  rcases h with h | h
  · rcases List.mem_append.mp h with h | h
    · exact Or.inl (Or.inl h)
    · exact Or.inr (List.mem_of_mem_filter h)
  · exact Or.inl (Or.inr h)

variable [DecidableEq κ]

theorem holds_before_update {q r : Queue κ} {m : Message} {j : κ} {ms : List Message}
    (h : r.Holds m) (hr : r.unacked = Function.update q.unacked j ms)
    (hq : m ∈ r.messages → q.Holds m) (hj : m ∈ ms → q.Holds m) : q.Holds m := by
  rcases h with h | ⟨k, h⟩
  · exact hq h
  · rw [hr] at h
    by_cases hk : k = j
    · subst k
      rw [Function.update_self] at h
      exact hj h
    · rw [Function.update_of_ne hk] at h
      exact Or.inr ⟨k, h⟩

theorem holds_of_release {q : Queue κ} {m : Message} {j : κ} (h : (q.release j).Holds m) :
    q.Holds m := by
  refine holds_before_update h rfl ?_ (fun hm => absurd hm List.not_mem_nil)
  intro hm
  exact (List.mem_append.mp hm).elim (fun hm => Or.inr ⟨j, hm⟩) Or.inl

theorem holds_of_follow {b : Consumer.ReceiverBuilder} {q : Queue κ} {j : κ}
    {e : Consumer.Event} (he : Allows b j (some q) e) {m : Message}
    (h : (q.follow j e).Holds m) : q.Holds m := by
  cases e with
  | deliver n =>
    obtain ⟨r, hr, _, hn⟩ := he
    cases hr
    refine holds_before_update h rfl (fun hm => Or.inl (List.mem_of_mem_erase hm)) ?_
    intro hm
    rcases List.mem_append.mp hm with hm | hm
    · exact Or.inr ⟨j, hm⟩
    · exact Or.inl (List.mem_singleton.mp hm ▸ hn)
  | ack n =>
    exact holds_before_update h rfl Or.inl fun hm => Or.inr ⟨j, List.mem_of_mem_erase hm⟩
  | start ok => cases ok <;> exact h
  | reconnect keep => exact holds_of_release h
  | terminate => exact holds_of_release h
  | disconnect => exact holds_of_release h
  | mainReturns => exact holds_of_release h
  | die => exact holds_of_release h
  | _ => exact h

end Queue

variable {ι κ : Type*}

def State.Carries (D : Deployment) (s : State ι κ) (m : Message) : Prop :=
  (∃ i, m ∈ (s.producers i).outbound) ∨ s.Held D m ∨
    (∃ j, m ∈ (s.consumers j).inFlight) ∨ m ∈ s.counted

variable {D : Deployment}

theorem held_of_delivered {s : State ι κ} {j : κ} {e : Consumer.Event} {m : Message}
    (he : Queue.Allows D.receiver j (s.queue D) e) (h : m ∈ e.delivered) : s.Held D m := by
  cases e with
  | deliver n =>
    obtain ⟨q, hq, _, hn⟩ := he
    rw [List.mem_singleton.mp h]
    exact ⟨q, hq, Or.inl hn⟩
  | _ => exact absurd h List.not_mem_nil

variable [DecidableEq ι] [DecidableEq κ]

theorem carries_producer {s : State ι κ} {i : ι} {e : Producer.Event} {m : Message}
    (he : e.Enabled (s.producers i)) (h : ((Event.producer i e).apply D s).Carries D m) :
    s.Carries D m ∨ m ∈ e.handedOver D.producer := by
  rcases h with ⟨k, h⟩ | ⟨r, hr, h⟩ | h | h
  · rw [producers_producer] at h
    by_cases hk : k = i
    · subst k
      rw [Function.update_self] at h
      exact (Producer.mem_outbound_apply h).imp_left fun h => Or.inl ⟨i, h⟩
    · rw [Function.update_of_ne hk] at h
      exact Or.inl (Or.inl ⟨k, h⟩)
  · rw [queue_producer] at hr
    obtain ⟨q, hq, rfl⟩ := Option.map_eq_some_iff.mp hr
    rcases Queue.holds_of_route h with h | h
    · exact Or.inl (Or.inr (Or.inl ⟨q, hq, h⟩))
    · exact Or.inl (Or.inl ⟨i, Producer.outbound_of_accepted he h⟩)
  · exact Or.inl (Or.inr (Or.inr (Or.inl h)))
  · exact Or.inl (Or.inr (Or.inr (Or.inr h)))

theorem held_of_consumer {s : State ι κ} {j : κ} {e : Consumer.Event} {m : Message}
    (he : Queue.Allows D.receiver j (s.queue D) e)
    (h : ((Event.consumer (ι := ι) j e).apply D s).Held D m) : s.Held D m := by
  obtain ⟨r, hr, h⟩ := h
  rw [queue_consumer] at hr
  cases hq : s.queue D with
  | some q =>
    rw [hq] at he hr
    rw [Queue.followOrCreate_some] at hr
    rw [← Option.some.inj hr] at h
    exact ⟨q, hq, Queue.holds_of_follow he h⟩
  | none =>
    rw [hq] at hr
    rw [Queue.eq_of_followOrCreate_none hr] at h
    exact absurd h (Queue.not_holds_create D.receiver j m)

theorem carries_consumer {s : State ι κ} {j : κ} {e : Consumer.Event} {m : Message}
    (he : (Event.consumer (ι := ι) j e).Enabled D s)
    (h : ((Event.consumer (ι := ι) j e).apply D s).Carries D m) : s.Carries D m := by
  obtain ⟨hlocal, hallows⟩ := he
  rcases h with h | h | ⟨k, h⟩ | h
  · exact Or.inl h
  · exact Or.inr (Or.inl (held_of_consumer hallows h))
  · rw [consumers_consumer] at h
    by_cases hk : k = j
    · subst k
      rw [Function.update_self] at h
      have hle := Consumer.inFlight_apply (b := D.receiver) hlocal
      have hmem := Multiset.mem_of_le hle (Multiset.mem_add.mpr (Or.inl h))
      rcases Multiset.mem_add.mp hmem with hmem | hmem
      · exact Or.inr (Or.inr (Or.inl ⟨j, hmem⟩))
      · exact Or.inr (Or.inl (held_of_delivered hallows hmem))
    · rw [Function.update_of_ne hk] at h
      exact Or.inr (Or.inr (Or.inl ⟨k, h⟩))
  · have hcounted : ((Event.consumer (ι := ι) j e).apply D s).counted =
        s.counted ++ e.incremented := by
      simp [State.counted, Event.apply, Consumer.Process.handle, Function.comp_def]
    rw [hcounted] at h
    rcases List.mem_append.mp h with h | h
    · exact Or.inr (Or.inr (Or.inr h))
    · have hsleeping := Consumer.sleeping_of_incremented hlocal h
      refine Or.inr (Or.inr (Or.inl ⟨j, ?_⟩))
      simp [Consumer.Process.inFlight, Consumer.Process.uncounted, hsleeping]

structure State.Traced (D : Deployment) (s t : State ι κ) : Prop where
  carried : ∀ m, t.Carries D m → s.Carries D m ∨ m ∈ t.handed
  handed : ∀ m ∈ t.handed, m ∈ s.handed ∨ Producer.WellFormed D.producer m

theorem traced_step {s : State ι κ} (e : Event ι κ) (t : State ι κ) (he : e.Enabled D t)
    (ht : s.Traced D t) : s.Traced D (e.apply D t) := by
  cases e with
  | producer i e =>
    refine ⟨?_, ?_⟩
    · intro m hm
      rw [handed_producer, List.mem_append]
      rcases carries_producer he.1 hm with h | h
      · exact (ht.carried m h).imp_right Or.inl
      · exact Or.inr (Or.inr h)
    · intro m hm
      rw [handed_producer] at hm
      rcases List.mem_append.mp hm with h | h
      · exact ht.handed m h
      · exact Or.inr (Producer.wellFormed_of_handedOver h)
  | consumer j e => exact ⟨fun m hm => ht.carried m (carries_consumer he hm), ht.handed⟩

theorem run_traced {s t : State ι κ} {es : List (Event ι κ)} (h : (machine ι κ D).Run s es t) :
    s.Traced D t :=
  h.invariant traced_step ⟨fun _ hm => Or.inl hm, fun _ hm => Or.inl hm⟩

/-- Through any failures, a message that is buffered, held, in flight or counted
was on the queue at first or has been handed over by a producer, and each
message handed over has the producers' topic and a payload that reads as the
JSON object of one price below 1000. -/
theorem carried_genuine (topicMatch : String → String → Bool) (pc : Producer.Config)
    (cc : Consumer.Config) (queues : String → Option (Queue κ)) {es : List (Event ι κ)}
    {s : State ι κ}
    (h : (machine ι κ (deploy topicMatch pc cc)).Run
      (.initial (deploy topicMatch pc cc) queues) es s) :
    (∀ m, s.Carries (deploy topicMatch pc cc) m →
        (∃ q ∈ queues cc.queue, q.Holds m) ∨ m ∈ s.handed) ∧
      ∀ m ∈ s.handed, m.topic = pc.topic ∧
        ∃ price < 1000, FlatJson.parse m.payload = some [("price".toList, price)] := by
  have ht := run_traced h
  refine ⟨?_, ?_⟩
  · intro m hm
    refine (ht.carried m hm).imp_left ?_
    rintro (⟨i, h⟩ | h | ⟨j, h⟩ | h)
    · exact absurd h List.not_mem_nil
    · exact h
    · exact absurd h (Multiset.notMem_zero m)
    · exact absurd h List.not_mem_nil
  · intro m hm
    exact (ht.handed m hm).resolve_left List.not_mem_nil

theorem carried_genuine_failover :
    let D := deploy (· == ·) (Producer.config fun _ => "") (Consumer.config fun _ => "")
    let queues : String → Option (Queue (Fin 2)) := fun _ =>
      some (.create { D.receiver with subscriptions := [D.producer.topic] })
    let s := (machine Unit (Fin 2) D).final (failover 0 1) (.initial D queues)
    (∀ m, s.Carries D m → (∃ q ∈ queues D.receiver.queue, q.Holds m) ∨ m ∈ s.handed) ∧
      ∀ m ∈ s.handed, m.topic = D.producer.topic ∧
        ∃ price < 1000, FlatJson.parse m.payload = some [("price".toList, price)] :=
  carried_genuine (· == ·) _ _ _ (Machine.Legal.run (by decide))

end SolacePubSub
