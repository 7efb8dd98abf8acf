import BlockAgreement.Engine.Node

/-! A machine under observation: its state, the collaborators it works with, and a record of what
it asked of the outside. The collaborators make simple blocks and take every block, unless told to
refuse. -/

namespace BlockAgreement.Simulation

structure Record where
  /-- Messages sent and not collected yet. -/
  sent : List Message
  /-- Timers started since the last look, with their milliseconds. -/
  started : List (RoundId × UInt64)
  /-- Timers started and not cancelled. -/
  active : Table RoundId UInt64
  /-- Blocks handed over since the last look. -/
  imported : List (Block × List Signature)
  /-- The number of blocks made so far. -/
  created : Nat

namespace Record

def empty : Record := ⟨[], [], .empty, [], 0⟩

def note (r : Record) : Effect → Record
  | .multicast m => { r with sent := r.sent ++ [m] }
  | .startTimer round ms =>
    { r with started := r.started ++ [(round, ms)], active := r.active.insert round ms }
  | .cancelTimer round => { r with active := r.active.erase round }
  | .requestBlock _ answer => { r with created := r.created + if answer.isSome then 1 else 0 }
  | .deliverBlock block seals accepted =>
    if accepted then { r with imported := r.imported ++ [(block, seals)] } else r

/-- The record after a look, with the messages left to be collected. -/
def looked (r : Record) : Record := { r with started := [], imported := [] }

/-- The record after its messages were collected. -/
def collected (r : Record) : Record := { r with sent := [] }

end Record

structure Bench where
  beneficiary : Address
  createFails : Bool
  importFails : Bool

/-- A block with no transactions, which names its height and round. -/
def plainBlock (beneficiary : Address) (round : RoundId) : Block where
  parent := .ofNat ((round.height.toNat - 1) % 256)
  beneficiary := beneficiary
  number := round.height
  timestamp := 1700000000 + round.height
  extra := Bytes.ofNat 4 round.number.toNat
  transactions := []

/-- A block with one transaction, which differs from others of its number by `salt`. -/
def saltedBlock (number : UInt64) (salt : UInt8) : Block where
  parent := .ofNat (number.toNat % 256)
  beneficiary := .zero
  number := number
  timestamp := 1700000000 + number
  extra := [salt]
  transactions := [[0x74, 0x78]]

def Bench.collaborators (b : Bench) : Collaborators where
  createBlock round :=
    if b.createFails then .error (.blockCreation s!"refusing to build a block for {round}")
    else .ok (plainBlock b.beneficiary round)
  importBlock block _ :=
    if b.importFails then .error (.blockImport s!"refusing to import block {block.number}")
    else .ok ()

structure Station (σ : Type) where
  state : σ
  bench : Bench
  record : Record

namespace Station

variable {σ : Type}

def new (beneficiary : Address) (state : σ) : Station σ :=
  ⟨state, ⟨beneficiary, false, false⟩, .empty⟩

/-- Runs a handler, and notes what it asked for even if it failed. -/
def run (s : Station σ) (h : Collaborators → Handler σ Unit) : Except Error Unit × Station σ :=
  let o := h s.bench.collaborators s.state
  (o.result, { s with state := o.state, record := o.effects.foldl Record.note s.record })

def look (s : Station σ) : Station σ := { s with record := s.record.looked }

def collect (s : Station σ) : Station σ := { s with record := s.record.collected }

end Station

/-- The prepares in the order of their authors. -/
def sortPrepares (S : Scheme) (prepares : List Prepare) : List Prepare :=
  let keyed := prepares.map fun p => ((p.author S).toOption.elim 0 rank, p)
  (keyed.mergeSort fun a b => a.1 ≤ b.1).map (·.2)

/-- The message with its prepares in the order of their authors. -/
def sortMessage (S : Scheme) : Message → Message
  | .proposal p => .proposal { p with prepares := sortPrepares S p.prepares }
  | .roundChange rc =>
    match RoundChange.new? rc.signed rc.block (sortPrepares S rc.prepares) with
    | .ok rc => .roundChange rc
    | .error _ => .roundChange rc
  | m => m

end BlockAgreement.Simulation
