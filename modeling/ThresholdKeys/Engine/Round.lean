import ThresholdKeys.Engine.Checklist
import ThresholdKeys.Message

/-!
# Rounds and protocols

A protocol is run by a state that all its rounds share. On entry a round may change the state,
send messages and yield a result; then it waits until the state holds what it needs from every
expected sender.
-/

namespace ThresholdKeys

structure Entry (σ C O : Type) where
  state : σ
  /-- The positions that the party itself fills. -/
  ticked : List Nat := []
  sent : List (Message C) := []
  result : Option O := none

structure Round (σ C O : Type) where
  number : Nat
  expected : List PartyId
  /-- A check before the protocol starts, made for its first round only. -/
  prepare : σ → Result Unit := fun _ => .ok ()
  enter : σ → Result (Entry σ C O)
  /-- A check each time the round looks for progress. -/
  inspect : σ → Result Unit := fun _ => .ok ()
  /-- Whether the round waits for messages of this kind and routing. -/
  accepts : Message C → Bool
  /-- Whether all that is needed from the sender at a position is there. -/
  hasArrived : σ → Nat → Bool

structure Protocol (σ C O : Type) where
  task : String
  /-- Takes up a message, in any round. -/
  store : σ → Message C → Result σ

end ThresholdKeys
