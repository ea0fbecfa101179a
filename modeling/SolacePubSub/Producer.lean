import SolacePubSub.Environment
import SolacePubSub.Lib.EventMachine

/-!
# The producer process

One process of `producer.go` together with the part of the SDK it drives. The
goroutine of `main` and the publishing goroutine of `runProducerLoop` advance
independently. A `Publish` that returns nil has put its message in the SDK's
outbound buffer; the broker later accepts or rejects it, and what is still
buffered when the session or the process ends is discarded. No publish-receipt
listener is registered, so no outcome reaches the program.

`failed`, `accepted`, `rejected` and `discarded` record history; the program
reads none of them.
-/

namespace SolacePubSub.Producer

structure Config where
  host : String
  vpn : String
  user : String
  password : String
  topic : String

def config (env : Env) : Config where
  host := getenv env "SOLACE_HOST" "tcp://127.0.0.1:55555"
  vpn := getenv env "SOLACE_VPN" "vpn1"
  user := getenv env "SOLACE_USERNAME" "tickpublisher"
  password := getenv env "SOLACE_PASSWORD" "tickpublisher"
  topic := getenv env "TOPIC" "stock/tick/publisher"

theorem config_topic_ne_empty (env : Env) : (config env).topic ≠ "" :=
  getenv_ne_empty env "TOPIC" (by decide)

/-- The JSON text around `strconv.Itoa(rng.Intn(1000))`. -/
def payload (price : Fin 1000) : String :=
  "\x7b\"price\":" ++ toString price.val ++ "\x7d"

def leastPrice : Fin 1000 := 0

def message (cfg : Config) (id : ℕ) (price : Fin 1000) : Message where
  id := id
  topic := cfg.topic
  payload := payload price

-- in milliseconds
def publishPause : ℕ := 1

/-- Where the goroutine of `main` stands. After `wait` a signal has arrived and
the deferred `service.Disconnect` runs; `fatal` is an exit that skips it. -/
inductive Main
  | connect
  | build
  | start
  | wait
  | disconnect
  | closed
  | returned
  | fatal
deriving DecidableEq, Repr

/-- Where the publishing goroutine stands: at the top of its loop, after a
`Publish` that failed, after one that handed over `m`, or in its sleep. -/
inductive Loop
  | absent
  | top
  | failed
  | handed (m : Message)
  | asleep
deriving DecidableEq, Repr

def Loop.pending : Loop → ℕ
  | .handed _ => 1
  | _ => 0

def Loop.erring : Loop → ℕ
  | .failed => 1
  | _ => 0

structure Process where
  main : Main
  loop : Loop
  publishedTotal : ℕ
  publishErrors : ℕ
  outbound : List Message
  failed : ℕ
  accepted : List Message
  rejected : List Message
  discarded : List Message

def Process.fresh : Process where
  main := .connect
  loop := .absent
  publishedTotal := 0
  publishErrors := 0
  outbound := []
  failed := 0
  accepted := []
  rejected := []
  discarded := []

def Process.Alive (p : Process) : Prop := p.main ≠ .returned ∧ p.main ≠ .fatal

def Process.Connected (p : Process) : Prop := p.main = .wait ∨ p.main = .disconnect

instance (p : Process) : Decidable p.Alive := inferInstanceAs (Decidable (_ ∧ _))

instance (p : Process) : Decidable p.Connected := inferInstanceAs (Decidable (_ ∨ _))

inductive Event
  | connect (ok : Bool)
  | build (ok : Bool)
  | start (ok : Bool)
  | publish (id : ℕ) (price : Fin 1000)
  | publishFails
  | incErrors
  | incPublished
  | wake
  | accept (m : Message)
  | reject (m : Message)
  | sigterm
  | disconnect
  | mainReturns
  | die
  | launch
deriving DecidableEq, Repr

def Process.startFails (p : Process) : Process :=
  -- `publishErrors.Inc()` and `log.Fatal(err)`
  { p with main := .fatal, publishErrors := p.publishErrors + 1 }

def Process.discard (p : Process) : Process :=
  { p with outbound := [], discarded := p.discarded ++ p.outbound }

def Event.apply (cfg : Config) (p : Process) : Event → Process
  | .connect ok => { p with main := if ok then .build else .fatal }
  | .build ok => if ok then { p with main := .start } else p.startFails
  -- `runProducerLoop` only spawns the goroutine, so `main` goes straight on to wait.
  | .start ok => if ok then { p with main := .wait, loop := .top } else p.startFails
  | .publish id price =>
    let m := message cfg id price
    { p with loop := .handed m, outbound := p.outbound ++ [m] }
  | .publishFails => { p with loop := .failed, failed := p.failed + 1 }
  | .incErrors => { p with loop := .top, publishErrors := p.publishErrors + 1 }
  | .incPublished => { p with loop := .asleep, publishedTotal := p.publishedTotal + 1 }
  | .wake => { p with loop := .top }
  | .accept m => { p with outbound := p.outbound.erase m, accepted := p.accepted ++ [m] }
  | .reject m => { p with outbound := p.outbound.erase m, rejected := p.rejected ++ [m] }
  | .sigterm => { p with main := .disconnect }
  | .disconnect => { p.discard with main := .closed }
  | .mainReturns => { p.discard with main := .returned }
  | .die => { p.discard with main := .fatal }
  | .launch => .fresh

def Event.Enabled (p : Process) : Event → Prop
  | .connect _ => p.main = .connect
  | .build _ => p.main = .build
  | .start _ => p.main = .start
  | .publish _ _ | .publishFails => p.Alive ∧ p.loop = .top
  | .incErrors => p.Alive ∧ p.loop = .failed
  | .incPublished => p.Alive ∧ p.loop.pending = 1
  | .wake => p.Alive ∧ p.loop = .asleep
  | .accept m | .reject m => p.Connected ∧ m ∈ p.outbound
  -- A signal before `waitForShutdown` has registered for it, or a second one
  -- after it, kills the process: that is `die`, as is the `log.Fatal` of the
  -- metrics server.
  | .sigterm => p.main = .wait
  | .disconnect => p.main = .disconnect
  | .mainReturns => p.main = .closed
  | .die => p.Alive
  | .launch => ¬ p.Alive

instance enabledDecidable (p : Process) : ∀ e : Event, Decidable (e.Enabled p)
  | .connect _ => inferInstanceAs (Decidable (p.main = .connect))
  | .build _ => inferInstanceAs (Decidable (p.main = .build))
  | .start _ => inferInstanceAs (Decidable (p.main = .start))
  | .publish _ _ | .publishFails => inferInstanceAs (Decidable (p.Alive ∧ p.loop = .top))
  | .incErrors => inferInstanceAs (Decidable (p.Alive ∧ p.loop = .failed))
  | .incPublished => inferInstanceAs (Decidable (p.Alive ∧ p.loop.pending = 1))
  | .wake => inferInstanceAs (Decidable (p.Alive ∧ p.loop = .asleep))
  | .accept m | .reject m => inferInstanceAs (Decidable (p.Connected ∧ m ∈ p.outbound))
  | .sigterm => inferInstanceAs (Decidable (p.main = .wait))
  | .disconnect => inferInstanceAs (Decidable (p.main = .disconnect))
  | .mainReturns => inferInstanceAs (Decidable (p.main = .closed))
  | .die => inferInstanceAs (Decidable p.Alive)
  | .launch => inferInstanceAs (Decidable ¬p.Alive)

def Event.Numbered (n : ℕ) : Event → Prop
  | .publish id _ => id = n
  | _ => True

instance numberedDecidable (n : ℕ) : ∀ e : Event, Decidable (e.Numbered n)
  | .publish id _ => inferInstanceAs (Decidable (id = n))
  | .connect _ | .build _ | .start _ | .publishFails | .incErrors | .incPublished | .wake
  | .accept _ | .reject _ | .sigterm | .disconnect | .mainReturns | .die | .launch =>
    .isTrue trivial

def Event.handedOver (cfg : Config) : Event → List Message
  | .publish id price => [message cfg id price]
  | _ => []

def Event.accepted : Event → List Message
  | .accept m => [m]
  | _ => []

def machine (cfg : Config) : Machine Process Event where
  Enabled e p := e.Enabled p
  apply e p := e.apply cfg p

instance (cfg : Config) (e : Event) (p : Process) : Decidable ((machine cfg).Enabled e p) :=
  inferInstanceAs (Decidable (e.Enabled p))

theorem mem_outbound_apply {cfg : Config} {p : Process} {e : Event} {m : Message}
    (h : m ∈ (e.apply cfg p).outbound) : m ∈ p.outbound ∨ m ∈ e.handedOver cfg := by
  cases e with
  | publish id price => exact List.mem_append.mp h
  | accept n => exact Or.inl (List.mem_of_mem_erase h)
  | reject n => exact Or.inl (List.mem_of_mem_erase h)
  | disconnect => exact absurd h List.not_mem_nil
  | mainReturns => exact absurd h List.not_mem_nil
  | die => exact absurd h List.not_mem_nil
  | launch => exact absurd h List.not_mem_nil
  | build ok => cases ok <;> exact Or.inl h
  | start ok => cases ok <;> exact Or.inl h
  | _ => exact Or.inl h

theorem topic_of_handedOver {cfg : Config} {e : Event} {m : Message}
    (h : m ∈ e.handedOver cfg) : m.topic = cfg.topic := by
  cases e with
  | publish id price =>
    rw [List.mem_singleton.mp h]
    rfl
  | _ => exact absurd h List.not_mem_nil

theorem outbound_of_accepted {p : Process} {e : Event} {m : Message} (he : e.Enabled p)
    (h : m ∈ e.accepted) : m ∈ p.outbound := by
  cases e with
  | accept n =>
    rw [List.mem_singleton.mp h]
    exact he.2
  | _ => exact absurd h List.not_mem_nil

end SolacePubSub.Producer
