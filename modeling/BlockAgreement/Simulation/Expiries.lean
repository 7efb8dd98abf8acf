import BlockAgreement.Simulation.Timers

/-! Timers in front of a queue that is emptied from time to time. Each timer that runs out puts its
round into the queue, and waits for a place if there is none. -/

namespace BlockAgreement.Simulation

structure Expiries where
  timers : Timers
  /-- The rounds whose timers ran out, in and in front of the queue. -/
  pending : List RoundId
  isOpen : Bool

namespace Expiries

/-- The number of places in the queue. -/
def places : Nat := 256

def new : Expiries := ⟨.new, [], true⟩

def start (q : Expiries) (round : RoundId) (milliseconds : Nat) : Expiries :=
  { q with timers := q.timers.start round milliseconds }

/-- A round in the queue stays there. -/
def cancel (q : Expiries) (round : RoundId) : Expiries :=
  { q with timers := q.timers.cancel round }

/-- Refuses those that wait for a place, and all later ones. -/
def close (q : Expiries) : Expiries := { q with pending := [], isOpen := false }

/-- Moves the clock and empties the queue. Those that waited for a place are in it afterwards. -/
def take (q : Expiries) (milliseconds : Nat) : List RoundId × Expiries :=
  let (due, timers) := q.timers.advance milliseconds
  let pending := if q.isOpen then q.pending ++ due else []
  (pending.take places, ⟨timers, pending.drop places, q.isOpen⟩)

end Expiries

end BlockAgreement.Simulation
