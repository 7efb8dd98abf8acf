import BlockAgreement.Simulation.Station
import BlockAgreement.Simulation.Timers

/-! A node that works through a queue of events until the queue is closed or an event fails. The
timers it starts put their expiries into the same queue; a node without such timers sees no expiry
but those it is sent. -/

namespace BlockAgreement.Simulation

structure Intake where
  setup : Setup
  station : Station Node
  timers : Timers
  /-- Whether expiries come from timers. -/
  timed : Bool
  /-- Whether events may still be sent from outside. -/
  isOpen : Bool
  ended : Option (Except Error Unit)

namespace Intake

/-- Applies what a handler did to the running timers. -/
def setTimers (t : Timers) : Effect → Timers
  | .startTimer round ms => t.start round ms.toNat
  | .cancelTimer round => t.cancel round
  | _ => t

/-- Runs a handler; if it fails the node stops for good. -/
def run (I : Intake) (h : Setup → Collaborators → Handler Node Unit) : Intake :=
  let o := h I.setup I.station.bench.collaborators I.station.state
  { I with
    station := { I.station with
      state := o.state
      record := o.effects.foldl Record.note I.station.record }
    timers := if I.timed then o.effects.foldl setTimers I.timers else I.timers
    ended := match o.result with
      | .ok () => I.ended
      | .error e => some (.error e) }

/-- An event that comes after the end is not handled. -/
def handle (I : Intake) (e : Event) : Intake :=
  if I.ended.isSome then I else I.run fun E ext => Node.handle E ext e

/-- Lets the clock move to a time, one expiry after another. -/
def settle (time : Nat) : Nat → Intake → Intake
  | 0, I => I
  | fuel + 1, I =>
    match I.timers.next? time with
    | none => { I with timers := { I.timers with now := time } }
    | some (round, due) =>
      let timers := { (I.timers.cancel round) with now := max I.timers.now due }
      settle time fuel (({ I with timers }).handle (.roundExpiry round))

/-- Lets time pass. A node has one timer at a time, of a millisecond at least, so there are not more
expiries than there are timers and milliseconds. -/
def sleep (I : Intake) (milliseconds : Nat) : Intake :=
  I.settle (I.timers.after milliseconds) (I.timers.running.length + milliseconds + 1)

/-- An event sent from outside, and whether it could not be sent. -/
def send (I : Intake) (e : Event) : Bool × Intake :=
  if I.ended.isSome then (false, I)
  else if I.isOpen then (false, (I.handle e).sleep 0)
  else (true, I)

/-- Closes the queue from outside. It ends when no timer can add to it either. -/
def close (I : Intake) : Intake :=
  { I with
    isOpen := false
    ended := if I.timed || I.ended.isSome then I.ended else some (.ok ()) }

end Intake

end BlockAgreement.Simulation
