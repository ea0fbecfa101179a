import SolacePubSub.Environment
import SolacePubSub.Lib.EventMachine

/-!
# The consumer process

One process of `consumer.go` together with the receiver the SDK gives it. A
delivered message waits in the receiver's buffer until its `ReceiveAsync`
callback starts; the callback sleeps, runs `consumedTotal.Inc` and returns, and
only then does auto-acknowledgement send an ack for it. A callback that has
started keeps running through termination and reconnects, until the process
ends.
-/

namespace SolacePubSub.Consumer

structure Config where
  host : String
  vpn : String
  user : String
  password : String
  queue : String

def config (env : Env) : Config where
  host := getenv env "SOLACE_HOST" "tcp://127.0.0.1:55555"
  vpn := getenv env "SOLACE_VPN" "vpn1"
  user := getenv env "SOLACE_USERNAME" "admin"
  password := getenv env "SOLACE_PASSWORD" "admin"
  queue := getenv env "QUEUE" "q.tick.receiver"

theorem config_queue_ne_empty (env : Env) : (config env).queue ≠ "" :=
  getenv_ne_empty env "QUEUE" (by decide)

inductive AccessType
  | exclusive
  | nonExclusive
deriving DecidableEq, Repr

inductive AckMode
  | auto
  | client
deriving DecidableEq, Repr

def AckMode.afterCallback : AckMode → Message → List Message
  | .auto, m => [m]
  | .client, _ => []

inductive MissingResourcesCreationStrategy
  | doNotCreate
  | createOnStart
deriving DecidableEq, Repr

/-- What the receiver builder has been told when `Build` is called, for a durable
queue. `subscriptions` holds the arguments of `WithSubscriptions`. -/
structure ReceiverBuilder where
  queue : String
  access : AccessType
  ack : AckMode
  missingResources : MissingResourcesCreationStrategy
  subscriptions : List String

/-- The builder chain of `startConsumer`: it calls neither `WithSubscriptions`
nor any method that would add a subscription later. -/
def startConsumer (queueName : String) : ReceiverBuilder where
  queue := queueName
  access := .exclusive
  ack := .auto
  missingResources := .createOnStart
  subscriptions := []

-- in milliseconds
def callbackPause : ℕ := 10

/-- Where the goroutine of `main` stands. After `wait` a signal has arrived and
the deferred calls run, `receiver.Terminate` before `service.Disconnect`;
`fatal` is an exit that skips them. -/
inductive Main
  | connect
  | build
  | start
  | register
  | wait
  | terminate
  | disconnect
  | closed
  | returned
  | fatal
deriving DecidableEq, Repr

/-- `sleeping` and `counted` hold the messages whose callback has not yet and
has already run `consumedTotal.Inc`; `acks` those whose ack is on its way.
`epoch` tells the successive processes of one pod apart. -/
structure Process where
  epoch : ℕ
  main : Main
  handler : Bool
  buffer : List Message
  sleeping : List Message
  counted : List Message
  acks : List Message
  consumedTotal : ℕ
  consumeErrors : ℕ

def Process.fresh (epoch : ℕ) : Process where
  epoch := epoch
  main := .connect
  handler := false
  buffer := []
  sleeping := []
  counted := []
  acks := []
  consumedTotal := 0
  consumeErrors := 0

def Process.Alive (p : Process) : Prop := p.main ≠ .returned ∧ p.main ≠ .fatal

def Process.Receiving (p : Process) : Prop :=
  -- A signal alone does not stop the receiver, but `Terminate` does.
  p.main = .register ∨ p.main = .wait ∨ p.main = .terminate

instance (p : Process) : Decidable p.Alive := inferInstanceAs (Decidable (_ ∧ _))

instance (p : Process) : Decidable p.Receiving := inferInstanceAs (Decidable (_ ∨ _ ∨ _))

/-- `reconnect keep` says whether the receiver keeps the messages it had
buffered, though the broker has taken them back. -/
inductive Event
  | connect (ok : Bool)
  | build (ok : Bool)
  | start (ok : Bool)
  | receiveAsync (ok : Bool)
  | deliver (m : Message)
  | callback (m : Message)
  | incConsumed (m : Message)
  | callbackReturns (m : Message)
  | ack (m : Message)
  | loseAck (m : Message)
  | reconnect (keep : Bool)
  | sigterm
  | terminate
  | disconnect
  | mainReturns
  | die
  | launch
deriving DecidableEq, Repr

def Process.startFails (p : Process) : Process :=
  -- `consumeErrors.Inc()` and `log.Fatal(err)`
  { p with main := .fatal, consumeErrors := p.consumeErrors + 1 }

def Process.stop (p : Process) (c : Main) : Process :=
  { p with main := c, buffer := [], sleeping := [], counted := [], acks := [] }

def Event.apply (b : ReceiverBuilder) (p : Process) : Event → Process
  | .connect ok => { p with main := if ok then .build else .fatal }
  | .build ok => if ok then { p with main := .start } else p.startFails
  | .start ok => if ok then { p with main := .register } else p.startFails
  -- `startConsumer` ignores the error of `ReceiveAsync` and returns the receiver.
  | .receiveAsync ok => { p with main := .wait, handler := ok }
  | .deliver m => { p with buffer := p.buffer ++ [m] }
  | .callback m => { p with buffer := p.buffer.erase m, sleeping := p.sleeping ++ [m] }
  | .incConsumed m =>
    { p with
      sleeping := p.sleeping.erase m
      counted := p.counted ++ [m]
      consumedTotal := p.consumedTotal + 1 }
  | .callbackReturns m =>
    { p with counted := p.counted.erase m, acks := p.acks ++ b.ack.afterCallback m }
  | .ack m | .loseAck m => { p with acks := p.acks.erase m }
  | .reconnect keep => { p with buffer := if keep then p.buffer else [] }
  | .sigterm => { p with main := .terminate }
  | .terminate => { p with main := .disconnect, buffer := [] }
  | .disconnect => { p with main := .closed }
  | .mainReturns => p.stop .returned
  | .die => p.stop .fatal
  | .launch => .fresh (p.epoch + 1)

def Event.Enabled (p : Process) : Event → Prop
  | .connect _ => p.main = .connect
  | .build _ => p.main = .build
  | .start _ => p.main = .start
  | .receiveAsync _ => p.main = .register
  | .deliver _ | .reconnect _ => p.Receiving
  | .callback m => p.Alive ∧ p.handler = true ∧ m ∈ p.buffer
  | .incConsumed m => p.Alive ∧ m ∈ p.sleeping
  | .callbackReturns m => p.Alive ∧ m ∈ p.counted
  | .ack m | .loseAck m => p.Alive ∧ m ∈ p.acks
  -- A signal before `waitForShutdown` has registered for it kills the process: that is `die`.
  | .sigterm => p.main = .wait
  | .terminate => p.main = .terminate
  | .disconnect => p.main = .disconnect
  | .mainReturns => p.main = .closed
  | .die => p.Alive
  | .launch => ¬ p.Alive

instance enabledDecidable (p : Process) : ∀ e : Event, Decidable (e.Enabled p)
  | .connect _ => inferInstanceAs (Decidable (p.main = .connect))
  | .build _ => inferInstanceAs (Decidable (p.main = .build))
  | .start _ => inferInstanceAs (Decidable (p.main = .start))
  | .receiveAsync _ => inferInstanceAs (Decidable (p.main = .register))
  | .deliver _ | .reconnect _ => inferInstanceAs (Decidable p.Receiving)
  | .callback m => inferInstanceAs (Decidable (p.Alive ∧ p.handler = true ∧ m ∈ p.buffer))
  | .incConsumed m => inferInstanceAs (Decidable (p.Alive ∧ m ∈ p.sleeping))
  | .callbackReturns m => inferInstanceAs (Decidable (p.Alive ∧ m ∈ p.counted))
  | .ack m | .loseAck m => inferInstanceAs (Decidable (p.Alive ∧ m ∈ p.acks))
  | .sigterm => inferInstanceAs (Decidable (p.main = .wait))
  | .terminate => inferInstanceAs (Decidable (p.main = .terminate))
  | .disconnect => inferInstanceAs (Decidable (p.main = .disconnect))
  | .mainReturns => inferInstanceAs (Decidable (p.main = .closed))
  | .die => inferInstanceAs (Decidable p.Alive)
  | .launch => inferInstanceAs (Decidable ¬p.Alive)

def machine (b : ReceiverBuilder) : Machine Process Event where
  Enabled e p := e.Enabled p
  apply e p := e.apply b p

def Event.delivered : Event → List Message
  | .deliver m => [m]
  | _ => []

def Event.incremented : Event → List Message
  | .incConsumed m => [m]
  | _ => []

def Event.finished : Event → List Message
  | .callbackReturns m => [m]
  | _ => []

def Event.acknowledged : Event → List Message
  | .ack m => [m]
  | _ => []

end SolacePubSub.Consumer
