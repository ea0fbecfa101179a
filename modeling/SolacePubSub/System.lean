import SolacePubSub.Broker
import SolacePubSub.Producer

/-!
# Producers, broker and consumers together

Pods `ι` run the producer, pods `κ` the consumer, and every event is an event
of one process together with what it makes the broker do. A pod whose process
has ended may launch a new one. The fields after `queues` record history: what
was handed to the SDK and stored on the queue, which callbacks incremented
`consumedTotal` and returned, and which acks the broker has processed.
-/

namespace SolacePubSub

/-- The configuration of the programs and the broker's topic matching, which
takes a subscription and a topic. -/
structure Deployment where
  topicMatch : String → String → Bool
  producer : Producer.Config
  receiver : Consumer.ReceiverBuilder

def deploy (topicMatch : String → String → Bool) (pc : Producer.Config) (cc : Consumer.Config) :
    Deployment where
  topicMatch := topicMatch
  producer := pc
  receiver := Consumer.startConsumer cc.queue

structure Handling (κ : Type*) where
  pod : κ
  epoch : ℕ
  msg : Message

structure State (ι κ : Type*) where
  producers : ι → Producer.Process
  consumers : κ → Consumer.Process
  queues : String → Option (Queue κ)
  handed : List Message
  stored : List Message
  increments : List (Handling κ)
  finished : List (Handling κ)
  acked : List Message

inductive Event (ι κ : Type*)
  | producer (i : ι) (e : Producer.Event)
  | consumer (j : κ) (e : Consumer.Event)

variable {ι κ : Type*}

def State.queue (D : Deployment) (s : State ι κ) : Option (Queue κ) := s.queues D.receiver.queue

def State.initial (D : Deployment) (queues : String → Option (Queue κ)) : State ι κ where
  producers := fun _ => .fresh
  consumers := fun _ => .fresh 0
  queues := queues
  handed := []
  stored := ((queues D.receiver.queue).map (·.messages)).getD []
  increments := []
  finished := []
  acked := []

@[simp] theorem queue_initial (D : Deployment) (queues : String → Option (Queue κ)) :
    (State.initial (ι := ι) D queues).queue D = queues D.receiver.queue := rfl

@[simp] theorem producers_initial (D : Deployment) (queues : String → Option (Queue κ)) :
    (State.initial (ι := ι) D queues).producers = fun _ => .fresh := rfl

@[simp] theorem consumers_initial (D : Deployment) (queues : String → Option (Queue κ)) :
    (State.initial (ι := ι) D queues).consumers = fun _ => .fresh 0 := rfl

def Consumer.Process.handle (j : κ) (p : Consumer.Process) (m : Message) : Handling κ :=
  ⟨j, p.epoch, m⟩

def Queue.taken (topicMatch : String → String → Bool) (q : Option (Queue κ))
    (ms : List Message) : List Message :=
  match q with
  | some q => ms.filter (q.attracts topicMatch)
  | none => []

def producerStart (i : ι) : List (Event ι κ) :=
  [.producer i (.connect true), .producer i (.build true), .producer i (.start true)]

def consumerStart (j : κ) : List (Event ι κ) :=
  [.consumer j (.connect true), .consumer j (.build true), .consumer j (.start true),
    .consumer j (.receiveAsync true)]

variable [DecidableEq ι] [DecidableEq κ]

def Event.apply (D : Deployment) (s : State ι κ) : Event ι κ → State ι κ
  | .producer i e =>
    { s with
      producers := Function.update s.producers i (e.apply D.producer (s.producers i))
      queues := fun n => (s.queues n).map (Queue.route D.topicMatch e.accepted)
      handed := s.handed ++ e.handedOver D.producer
      stored := s.stored ++ Queue.taken D.topicMatch (s.queue D) e.accepted }
  | .consumer j e =>
    let p := s.consumers j
    { s with
      consumers := Function.update s.consumers j (e.apply D.receiver p)
      queues := Function.update s.queues D.receiver.queue
        (Queue.followOrCreate D.receiver j e (s.queue D))
      increments := s.increments ++ e.incremented.map (p.handle j)
      finished := s.finished ++ e.finished.map (p.handle j)
      acked := s.acked ++ e.acknowledged }

def Event.Enabled (D : Deployment) (s : State ι κ) : Event ι κ → Prop
  | .producer i e => e.Enabled (s.producers i) ∧ e.Numbered s.handed.length
  | .consumer j e => e.Enabled (s.consumers j) ∧ Queue.Allows D.receiver j (s.queue D) e

instance enabledDecidable (D : Deployment) (s : State ι κ) :
    ∀ e : Event ι κ, Decidable (e.Enabled D s)
  | .producer i e =>
    inferInstanceAs (Decidable (e.Enabled (s.producers i) ∧ e.Numbered s.handed.length))
  | .consumer j e => inferInstanceAs
    (Decidable (e.Enabled (s.consumers j) ∧ Queue.Allows D.receiver j (s.queue D) e))

def machine (ι κ : Type*) [DecidableEq ι] [DecidableEq κ] (D : Deployment) :
    Machine (State ι κ) (Event ι κ) where
  Enabled e s := e.Enabled D s
  apply e s := e.apply D s

instance (D : Deployment) (e : Event ι κ) (s : State ι κ) :
    Decidable ((machine ι κ D).Enabled e s) :=
  inferInstanceAs (Decidable (e.Enabled D s))

section Step
variable (D : Deployment) (s : State ι κ) (i : ι) (j : κ)

@[simp] theorem machine_enabled (e : Event ι κ) :
    (machine ι κ D).Enabled e s = e.Enabled D s := rfl

@[simp] theorem machine_apply (e : Event ι κ) : (machine ι κ D).apply e s = e.apply D s := rfl

@[simp] theorem queue_producer (e : Producer.Event) :
    ((Event.producer i e).apply D s).queue D =
      (s.queue D).map (Queue.route D.topicMatch e.accepted) := rfl

@[simp] theorem queue_consumer (e : Consumer.Event) :
    ((Event.consumer j e).apply D s).queue D =
      Queue.followOrCreate D.receiver j e (s.queue D) := by
  simp [State.queue, Event.apply]

theorem producers_producer (e : Producer.Event) :
    ((Event.producer i e).apply D s).producers =
      Function.update s.producers i (e.apply D.producer (s.producers i)) := rfl

theorem consumers_consumer (e : Consumer.Event) :
    ((Event.consumer j e).apply D s).consumers =
      Function.update s.consumers j (e.apply D.receiver (s.consumers j)) := rfl

@[simp] theorem consumers_producer (e : Producer.Event) :
    ((Event.producer i e).apply D s).consumers = s.consumers := rfl

@[simp] theorem producers_consumer (e : Consumer.Event) :
    ((Event.consumer j e).apply D s).producers = s.producers := rfl

@[simp] theorem handed_producer (e : Producer.Event) :
    ((Event.producer i e).apply D s).handed = s.handed ++ e.handedOver D.producer := rfl

@[simp] theorem handed_consumer (e : Consumer.Event) :
    ((Event.consumer j e).apply D s).handed = s.handed := rfl

end Step

def State.OnTopic (D : Deployment) (s : State ι κ) : Prop :=
  ∀ i, ∀ m ∈ (s.producers i).outbound, m.topic = D.producer.topic

theorem onTopic_step {D : Deployment} (e : Event ι κ) (s : State ι κ) (hs : s.OnTopic D) :
    (e.apply D s).OnTopic D := by
  cases e with
  | consumer j e => exact hs
  | producer i e =>
    intro k
    by_cases hk : k = i
    · subst k
      rw [producers_producer, Function.update_self]
      intro m hm
      rcases Producer.mem_outbound_apply hm with h | h
      · exact hs i m h
      · exact Producer.topic_of_handedOver h
    · rw [producers_producer, Function.update_of_ne hk]
      exact hs k

def Event.ofProducer (i : ι) : Event ι κ → Option Producer.Event
  | .producer k e => if k = i then some e else none
  | .consumer _ _ => none

def Event.ofConsumer (j : κ) : Event ι κ → Option Consumer.Event
  | .consumer k e => if k = j then some e else none
  | .producer _ _ => none

theorem run_producer {D : Deployment} {s t : State ι κ} {es : List (Event ι κ)}
    (h : (machine ι κ D).Run s es t) (i : ι) :
    (Producer.machine D.producer).Run (s.producers i) (es.filterMap (Event.ofProducer i))
      (t.producers i) := by
  refine h.project (fun s => s.producers i) (Event.ofProducer i) ?_
  intro e s he
  cases e with
  | consumer j e => rfl
  | producer k e =>
    by_cases hk : k = i
    · subst k
      simp only [Event.ofProducer, ↓reduceIte, machine_apply, producers_producer,
        Function.update_self]
      exact ⟨he.1, rfl⟩
    · simp only [Event.ofProducer, hk, ↓reduceIte, machine_apply, producers_producer]
      exact Function.update_of_ne (Ne.symm hk) _ _

theorem run_consumer {D : Deployment} {s t : State ι κ} {es : List (Event ι κ)}
    (h : (machine ι κ D).Run s es t) (j : κ) :
    (Consumer.machine D.receiver).Run (s.consumers j) (es.filterMap (Event.ofConsumer j))
      (t.consumers j) := by
  refine h.project (fun s => s.consumers j) (Event.ofConsumer j) ?_
  intro e s he
  cases e with
  | producer i e => rfl
  | consumer k e =>
    by_cases hk : k = j
    · subst k
      simp only [Event.ofConsumer, ↓reduceIte, machine_apply, consumers_consumer,
        Function.update_self]
      exact ⟨he.1, rfl⟩
    · simp only [Event.ofConsumer, hk, ↓reduceIte, machine_apply, consumers_consumer]
      exact Function.update_of_ne (Ne.symm hk) _ _

end SolacePubSub
