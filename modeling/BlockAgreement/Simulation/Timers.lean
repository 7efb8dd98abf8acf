import BlockAgreement.RoundId

/-! Round timers over a clock that moves only when told to. Timers run out in the order of their
times, and those of one time in the order of their starts. -/

namespace BlockAgreement.Simulation

structure Timers where
  now : Nat
  /-- The rounds with the times at which their timers run out, in the order of their starts. -/
  running : List (RoundId × Nat)

namespace Timers

def new : Timers := ⟨0, []⟩

def cancel (t : Timers) (round : RoundId) : Timers :=
  { t with running := t.running.filter (·.1 ≠ round) }

/-- The longest wait there is: thirty years of 365 days, in milliseconds. -/
def longest : Nat := 30 * 365 * 24 * 60 * 60 * 1000

/-- The time at the end of a wait. One that asks for more than the longest lasts as long as that. -/
def after (t : Timers) (milliseconds : Nat) : Nat := t.now + min milliseconds longest

/-- A timer that runs already is started anew. -/
def start (t : Timers) (round : RoundId) (milliseconds : Nat) : Timers :=
  { t with running := (t.cancel round).running ++ [(round, t.after milliseconds)] }

def isRunning (t : Timers) (round : RoundId) : Bool := t.running.any (·.1 = round)

/-- The first timer to run out by the given time. -/
def next? (t : Timers) (time : Nat) : Option (RoundId × Nat) :=
  t.running.foldl (fun first e =>
    if time < e.2 then first
    else match first with
      | none => some e
      | some f => if e.2 < f.2 then some e else some f) none

/-- Moves the clock. All timers that run out on the way are taken off and given in their order. -/
def advance (t : Timers) (milliseconds : Nat) : List RoundId × Timers :=
  let time := t.after milliseconds
  let due := (t.running.filter (·.2 ≤ time)).mergeSort fun a b => a.2 ≤ b.2
  (due.map (·.1), ⟨time, t.running.filter (time < ·.2)⟩)

end Timers

end BlockAgreement.Simulation
