import BlockAgreement.Engine.Instance

/-! A node runs the consensus of one height at a time, holds the messages of heights to come, and
moves on when a height is decided or the chain has passed it. -/

namespace BlockAgreement

inductive Event
  | message (m : Message)
  | roundExpiry (round : RoundId)
  /-- The chain has a block of this number. -/
  | chainHead (number : UInt64)
deriving DecidableEq

structure Node where
  current : Option Instance
  backlog : Backlog UInt64

namespace Node

def new : Node := ⟨none, .empty⟩

variable (E : Setup) (ext : Collaborators)

/-- Gives up the running height and its timer. -/
def leave : Handler Node Unit := do
  let n ← get
  match n.current with
  | none => return
  | some i =>
    set { n with current := none }
    .ask (.cancelTimer i.round.id)

/-- A height started, with the messages that were held for it handled. -/
def launch (height : UInt64) : Handler Node Instance := do
  let C ← .ofExcept (Committee.new? height (E.validatorsAt height) E.rotation)
  let i ← .on (Instance.new E C) (Instance.start E ext)
  let ready := (← get).backlog.queue height
  modify fun n => { n with backlog := n.backlog.discardThrough height }
  .on i (ready.forM (Instance.handleMessage E ext))

/-- There is no height after the last one. -/
def heightAfter (height : UInt64) : Except Error UInt64 :=
  if height.toNat + 1 < UInt64.size then .ok (height + 1) else .error .overflow

theorem toNat_heightAfter {height next : UInt64} (h : heightAfter height = .ok next) :
    next.toNat = height.toNat + 1 := by
  unfold heightAfter at h
  split at h
  · next hlt =>
    cases h
    rw [UInt64.toNat_add]
    exact Nat.mod_eq_of_lt hlt
  · cases h

/-- Runs a height, and the next one if the messages held for it already decide it. -/
def startHeight (height : UInt64) : Handler Node Unit := do
  leave
  let i ← launch E ext height
  if i.isCommitted then
    match _ : heightAfter height with
    | .ok next =>
      modify fun n => { n with current := some i }
      startHeight next
    | .error e => .ofExcept (.error e)
  else modify fun n => { n with current := some i }
termination_by UInt64.size - height.toNat
decreasing_by
  have := toNat_heightAfter ‹_›
  have := next.toNat_lt_size
  omega

/-- Holds a message for a height to come, if it is near and from a member of that height. -/
def hold (height : UInt64) (m : Message) : Handler Node Unit := do
  let later := m.round.height
  if (later - height) ≤ E.config.horizon then
    match m.author E.scheme with
    | .ok a =>
      if (E.validatorsAt later).contains a then
        modify fun n =>
          { n with backlog := n.backlog.push E.config.bufferLimit.toNat later m }
    | .error _ => return

/-- Runs a handler on the running height. -/
def onInstance (i : Instance) (h : Handler Instance Unit) : Handler Node Unit :=
  .focus (fun _ => i) (fun i n => { n with current := some i }) h

def handleMessage (m : Message) : Handler Node Unit := do
  match (← get).current with
  | none => return
  | some i =>
    if i.height < m.round.height then hold E i.height m
    else if m.round.height = i.height then
      onInstance i (Instance.handleMessage E ext m)
      if (← get).current.any Instance.isCommitted then
        let next ← .ofExcept (heightAfter i.height)
        startHeight E ext next

def handleRoundExpiry (round : RoundId) : Handler Node Unit := do
  match (← get).current with
  | none => return
  | some i =>
    if i.height = round.height then onInstance i (Instance.roundExpired E ext round)

def handleChainHead (number : UInt64) : Handler Node Unit := do
  let next := nextHeight number
  if !((← get).current.any fun i => next ≤ i.height) then startHeight E ext next

def handle : Event → Handler Node Unit
  | .message m => handleMessage E ext m
  | .roundExpiry round => handleRoundExpiry E ext round
  | .chainHead number => handleChainHead E ext number

end Node

end BlockAgreement
