import BlockAgreement.Engine.Handler
import BlockAgreement.Engine.Justification

/-! The round changes of one height, gathered by the round they move to. A round change too far
ahead is not gathered but still tells how far ahead its author is. -/

namespace BlockAgreement

/-- The round changes to one round in the order of arrival, with their authors. -/
structure Gathering where
  votes : List (Address × RoundChange)
  /-- Whether a justification came of it. -/
  justified : Bool
deriving DecidableEq, Inhabited

structure RoundChanges where
  gatherings : Table UInt32 Gathering
  /-- The highest round that each author announced. -/
  announced : Table Address UInt32
  current : UInt32
  horizon : Nat
deriving DecidableEq

namespace RoundChanges

def new (horizon : Nat) : RoundChanges := ⟨.empty, .empty, 0, horizon⟩

def announce (p : RoundChanges) (a : Address) (round : UInt32) : RoundChanges :=
  { p with announced := p.announced.insert a (max ((p.announced.find? a).getD round) round) }

def gathering (p : RoundChanges) (round : UInt32) : Gathering :=
  (p.gatherings.find? round).getD ⟨[], false⟩

def store (p : RoundChanges) (round : UInt32) (g : Gathering) : RoundChanges :=
  { p with gatherings := p.gatherings.insert round g }

variable (S : Scheme) (C : Committee)

/-- Checks and gathers a round change, and gives the justification when a quorum is complete for the
first time. -/
def append (rc : RoundChange) : Handler RoundChanges (Option Justification) := do
  let a ← .ofExcept (C.checkRoundChange S rc)
  let target := rc.round.number
  modify fun p => p.announce a target
  let p ← get
  if p.horizon < target.toNat - p.current.toNat then return none
  let g := p.gathering target
  if g.justified || (g.votes.map (·.1)).contains a then
    set (p.store target g)
    return none
  let g := { g with votes := g.votes ++ [(a, rc)] }
  set (p.store target g)
  if g.votes.length < C.quorum then return none
  let j ← .ofExcept (Justification.assemble? S rc.round (g.votes.map (·.2)) C.quorum)
  if j.isSome then set (p.store target { g with justified := true })
  return j

/-- The round that one honest validator at least has reached, if it is above `current`: the
`f + 1`-st highest of the rounds announced. -/
def earlyTarget? (p : RoundChanges) (current : UInt32) : Option UInt32 :=
  let ahead := p.announced.values.filter (current < ·)
  (ahead.mergeSort fun a b => b ≤ a)[C.faultTolerance]?

def discardBefore (p : RoundChanges) (round : UInt32) : RoundChanges :=
  { p with
    current := max p.current round
    gatherings := p.gatherings.filter fun r _ => round ≤ r }

end RoundChanges

end BlockAgreement
