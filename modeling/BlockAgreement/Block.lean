import BlockAgreement.Rlp.Reader
import BlockAgreement.Scheme

/-! Blocks: a header and opaque transactions. A header names its transactions by the hash of their
list, so that hash is no field of a block but a part of its header that follows from the
transactions. -/

namespace BlockAgreement

structure Header where
  parent : Digest
  beneficiary : Address
  /-- The hash of the list of transactions. -/
  root : Digest
  number : UInt64
  timestamp : UInt64
  extra : Bytes
deriving DecidableEq

namespace Header

def encode (h : Header) : Bytes :=
  Rlp.encodeList (Rlp.encodeBytes h.parent.toList ++ Rlp.encodeBytes h.beneficiary.toList ++
    Rlp.encodeBytes h.root.toList ++ Rlp.encodeNat h.number.toNat ++
    Rlp.encodeNat h.timestamp.toNat ++ Rlp.encodeBytes h.extra)

def read : Reader Rlp.Fault Header := Rlp.record do
  let parent ← Rlp.fixed 32
  let beneficiary ← Rlp.fixed 20
  let root ← Rlp.fixed 32
  let number ← Rlp.uint64
  let timestamp ← Rlp.uint64
  let extra ← Rlp.string
  return ⟨parent, beneficiary, root, number, timestamp, extra⟩

end Header

def encodeTransactions (txs : List Bytes) : Bytes :=
  Rlp.encodeList (txs.flatMap Rlp.encodeBytes)

structure Block where
  parent : Digest
  beneficiary : Address
  number : UInt64
  timestamp : UInt64
  extra : Bytes
  transactions : List Bytes
deriving DecidableEq

variable (S : Scheme)

def Scheme.transactionsRoot (txs : List Bytes) : Digest := S.hash (encodeTransactions txs)

namespace Block

def header (b : Block) : Header where
  parent := b.parent
  beneficiary := b.beneficiary
  root := S.transactionsRoot b.transactions
  number := b.number
  timestamp := b.timestamp
  extra := b.extra

/-- A header with some transactions. What it named before does not matter. -/
def new (h : Header) (txs : List Bytes) : Block :=
  ⟨h.parent, h.beneficiary, h.number, h.timestamp, h.extra, txs⟩

theorem header_new (h : Header) (txs : List Bytes) :
    (new h txs).header S = { h with root := S.transactionsRoot txs } := rfl

/-- A header with the transactions it names. -/
def ofHeader? (h : Header) (txs : List Bytes) : Option Block :=
  if h.root = S.transactionsRoot txs then some (new h txs) else none

def encode (b : Block) : Bytes :=
  Rlp.encodeList ((b.header S).encode ++ encodeTransactions b.transactions)

def read : Reader Rlp.Fault Block := do
  let (h, txs) ← Rlp.record do
    let h ← Header.read
    let txs ← Rlp.listOf Rlp.string
    return (h, txs)
  match ofHeader? S h txs with
  | some b => return b
  | none => throw (.refused "transactions do not match the header's transactions root")

end Block

/-- What validators sign for a block. -/
def Scheme.digest (b : Block) : Digest :=
  match S.scope with
  | .header => S.hash (b.header S).encode
  | .block => S.hash (b.encode S)

end BlockAgreement
