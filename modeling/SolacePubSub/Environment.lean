import Mathlib.Data.Fintype.Basic

/-!
# Environment variables and messages

What both programs share: the `getenv` helper, through which every field of a
`Config` is read, and the message that travels from a producer to a consumer.
-/

namespace SolacePubSub

/-- `os.Getenv` reports an unset variable as the empty string. -/
abbrev Env := String → String

def getenv (env : Env) (key fallback : String) : String :=
  let v := env key
  if v ≠ "" then v else fallback

theorem getenv_ne_empty (env : Env) (key : String) {fallback : String} (h : fallback ≠ "") :
    getenv env key fallback ≠ "" := by
  unfold getenv
  dsimp only
  split_ifs with hv
  · exact hv
  · exact h

/-- `id` tells the messages of a history apart; the broker routes by `topic`. -/
structure Message where
  id : ℕ
  topic : String
  payload : String
deriving DecidableEq, Repr

end SolacePubSub
