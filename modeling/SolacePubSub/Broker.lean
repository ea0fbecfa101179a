import SolacePubSub.Consumer
import Mathlib.Logic.Function.Basic

/-!
# Queues of the broker

What the programs rely on from the broker and the SDK. A message is stored on
a queue only if the queue carries a subscription matching its topic. A stored
message is undelivered, or delivered to one receiver and not yet acknowledged;
when that receiver terminates, reconnects or dies, what it has not acknowledged
goes back to the queue.
-/

namespace SolacePubSub
open Consumer (AccessType ReceiverBuilder)

variable {κ : Type*}

/-- Which of the bound receivers, listed oldest first, a queue may deliver to. -/
def Permits (access : AccessType) (bound : List κ) (j : κ) : Prop :=
  match access with
  | .exclusive => bound.head? = some j
  | .nonExclusive => j ∈ bound

theorem permits_singleton (access : AccessType) (j : κ) : Permits access [j] j := by
  cases access with
  | exclusive => rfl
  | nonExclusive => exact List.mem_singleton.mpr rfl

variable [DecidableEq κ]

instance permitsDecidable : ∀ (access : AccessType) (bound : List κ) (j : κ),
    Decidable (Permits access bound j)
  | .exclusive, bound, j => inferInstanceAs (Decidable (bound.head? = some j))
  | .nonExclusive, bound, j => inferInstanceAs (Decidable (j ∈ bound))

structure Queue (κ : Type*) where
  access : AccessType
  subscriptions : List String
  messages : List Message
  unacked : κ → List Message
  bound : List κ

namespace Queue

/-- The queue that `CREATE_ON_START` creates: it carries the subscriptions that
the receiver asked for and no others. -/
def create (b : ReceiverBuilder) : Queue κ where
  access := b.access
  subscriptions := b.subscriptions
  messages := []
  unacked := fun _ => []
  bound := []

def attracts (q : Queue κ) (topicMatch : String → String → Bool) (m : Message) : Bool :=
  q.subscriptions.any (topicMatch · m.topic)

def route (topicMatch : String → String → Bool) (ms : List Message) (q : Queue κ) : Queue κ :=
  { q with messages := q.messages ++ ms.filter (q.attracts topicMatch) }

def bind (j : κ) (q : Queue κ) : Queue κ := { q with bound := q.bound ++ [j] }

def deliver (j : κ) (m : Message) (q : Queue κ) : Queue κ :=
  { q with
    messages := q.messages.erase m
    unacked := Function.update q.unacked j (q.unacked j ++ [m]) }

def acknowledge (j : κ) (m : Message) (q : Queue κ) : Queue κ :=
  { q with unacked := Function.update q.unacked j ((q.unacked j).erase m) }

def release (j : κ) (q : Queue κ) : Queue κ :=
  { q with
    messages := q.unacked j ++ q.messages
    unacked := Function.update q.unacked j []
    bound := q.bound.filter (· ≠ j) }

def follow (j : κ) (q : Queue κ) : Consumer.Event → Queue κ
  | .start true => q.bind j
  | .deliver m => q.deliver j m
  | .ack m => q.acknowledge j m
  | .reconnect _ => (q.release j).bind j
  | .terminate | .disconnect | .mainReturns | .die => q.release j
  | _ => q

def followOrCreate (b : ReceiverBuilder) (j : κ) :
    Consumer.Event → Option (Queue κ) → Option (Queue κ)
  | e, some q => some (q.follow j e)
  | .start true, none => some ((create b).bind j)
  | _, none => none

@[simp] theorem followOrCreate_some (b : ReceiverBuilder) (j : κ) (e : Consumer.Event)
    (q : Queue κ) : followOrCreate b j e (some q) = some (q.follow j e) := by
  cases e <;> rfl

theorem eq_of_followOrCreate_none {b : ReceiverBuilder} {j : κ} {e : Consumer.Event} {r : Queue κ}
    (h : followOrCreate b j e none = some r) : r = (create b).bind j := by
  cases e with
  | start ok =>
    cases ok with
    | true => exact (Option.some.inj h).symm
    | false => exact absurd h (Option.some_ne_none r).symm
  | _ => exact absurd h (Option.some_ne_none r).symm

theorem subscriptions_follow (j : κ) (q : Queue κ) (e : Consumer.Event) :
    (q.follow j e).subscriptions = q.subscriptions := by
  cases e with
  | start ok => cases ok <;> rfl
  | _ => rfl

def Allows (b : ReceiverBuilder) (j : κ) (q : Option (Queue κ)) : Consumer.Event → Prop
  | .start true => q.isSome ∨ b.missingResources = .createOnStart
  | .deliver m => ∃ r ∈ q, Permits r.access r.bound j ∧ m ∈ r.messages
  | _ => True

instance allowsDecidable (b : ReceiverBuilder) (j : κ) :
    ∀ (q : Option (Queue κ)) (e : Consumer.Event), Decidable (Allows b j q e)
  | q, .start true =>
    inferInstanceAs (Decidable (q.isSome ∨ b.missingResources = .createOnStart))
  | some r, .deliver m =>
    decidable_of_iff (Permits r.access r.bound j ∧ m ∈ r.messages) (by simp [Allows])
  | none, .deliver _ => .isFalse (by simp [Allows])
  | _, .connect _ | _, .build _ | _, .start false | _, .receiveAsync _ | _, .callback _
  | _, .incConsumed _ | _, .callbackReturns _ | _, .ack _ | _, .loseAck _ | _, .reconnect _
  | _, .sigterm | _, .terminate | _, .disconnect | _, .mainReturns | _, .die | _, .launch =>
    .isTrue trivial

end Queue
end SolacePubSub
