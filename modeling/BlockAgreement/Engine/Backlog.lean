import BlockAgreement.Message.Frame

/-! Messages held back for later rounds or heights, in the order of arrival. -/

namespace BlockAgreement

structure Backlog (κ : Type) [Ranked κ] where
  queues : Table κ (List Message)
  /-- The number of messages in all queues. -/
  held : Nat
deriving DecidableEq

namespace Backlog

variable {κ : Type} [Ranked κ]

def empty : Backlog κ := ⟨.empty, 0⟩

def queue (b : Backlog κ) (k : κ) : List Message := (b.queues.find? k).getD []

/-- A full backlog drops the message. -/
def push (b : Backlog κ) (limit : Nat) (k : κ) (m : Message) : Backlog κ :=
  if limit ≤ b.held then b
  else ⟨b.queues.insert k (b.queue k ++ [m]), b.held + 1⟩

/-- Leaves the messages for later keys only. -/
def discardThrough (b : Backlog κ) (k : κ) : Backlog κ :=
  let queues := b.queues.filter fun k' _ => rank k < rank k'
  ⟨queues, queues.values.flatten.length⟩

end Backlog

end BlockAgreement
