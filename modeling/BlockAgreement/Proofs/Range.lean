import BlockAgreement.Crypto.Identity
import BlockAgreement.Engine.Node
import BlockAgreement.Proofs.Chain
import BlockAgreement.Proofs.Rlp
import Mathlib.Data.List.Induction

/-! Arithmetic that stays in range. Differences, remainders, shifts, entries of lists and parts of
byte strings are defined only in their range; here what a node computes with them is written out
with a check of each, in the order in which they are made, and is found to be what the node has
computed without. So none of the checks ever fails. -/

namespace BlockAgreement

/-! ### Operations that may be undefined -/

namespace Checked

/-- A difference that is not below zero. -/
def sub (a b : Nat) : Option Nat := if b ≤ a then some (a - b) else none

def mod (a b : Nat) : Option Nat := if b = 0 then none else some (a % b)

/-- A shift of a word of 64 bits. -/
def shift (a bits : Nat) : Option Nat := if bits < 64 then some (a <<< bits) else none

/-- The bytes from one position up to another. -/
def slice (b : Bytes) (start stop : Nat) : Option Bytes :=
  if start ≤ stop ∧ stop ≤ b.length then some ((b.take stop).drop start) else none

/-- The bytes from one position up to another are replaced by as many. -/
def splice (b : Bytes) (start stop : Nat) (part : Bytes) : Option Bytes :=
  if start ≤ stop ∧ stop ≤ b.length ∧ part.length = stop - start then
    some (b.take start ++ part ++ b.drop stop)
  else none

theorem sub_eq {a b : Nat} (h : b ≤ a) : sub a b = some (a - b) := if_pos h

theorem mod_eq {a b : Nat} (h : b ≠ 0) : mod a b = some (a % b) := if_neg h

theorem shift_eq {a bits : Nat} (h : bits < 64) : shift a bits = some (a <<< bits) := if_pos h

theorem slice_eq {x a b c : Bytes} {start stop : Nat} (hx : x = a ++ b ++ c)
    (hstart : a.length = start) (hstop : a.length + b.length = stop) :
    slice x start stop = some b := by
  subst hx hstart hstop
  rw [slice, if_pos (by simp), ← List.length_append, List.take_left, List.drop_left]

theorem splice_eq {x a b c part : Bytes} {start stop : Nat} (hx : x = a ++ b ++ c)
    (hstart : a.length = start) (hstop : a.length + b.length = stop)
    (hpart : part.length = b.length) : splice x start stop part = some (a ++ part ++ c) := by
  subst hx hstart hstop
  rw [splice, if_pos (by simp [hpart]), List.append_assoc a b c, List.take_left,
    ← List.append_assoc, ← List.length_append, List.drop_left]

end Checked

open Checked

/-! ### Thresholds -/

def quorum? (n : Nat) : Option Nat := sub n (faultTolerance n)

theorem quorum?_eq (n : Nat) : quorum? n = some (quorum n) := by
  refine sub_eq ?_
  unfold faultTolerance
  omega

/-! ### Whose turn it is -/

/-- The start at the height modulo the number of validators. -/
def Rotation.heightStart? (height : UInt64) (validators : List Address) : Option Nat :=
  if validators.isEmpty then some 0 else mod height.toNat validators.length

theorem Rotation.heightStart?_eq (height : UInt64) (validators : List Address) :
    heightStart? height validators = some (byHeight.start height validators) := by
  unfold heightStart? byHeight
  cases validators with
  | nil => rfl
  | cons a as => exact mod_eq (Nat.succ_ne_zero _)

namespace Committee

variable (C : Committee)

/-- Where in the list of validators the turn is, and who is there. -/
def proposer? (round : RoundId) : Option Address := do
  let n := C.validators.length
  let base ← mod (C.rotation.start round.height C.validators) n
  let steps ← mod round.number.toNat n
  let position ← mod (base + steps) n
  C.validators[position]?

theorem proposer?_eq (round : RoundId) :
    (C.proposer? round).map .ok = some (C.proposer round) := by
  have hn : C.validators.length ≠ 0 := fun h =>
    C.validators_ne_nil (List.eq_nil_of_length_eq_zero h)
  have hlt : (C.rotation.start round.height C.validators + round.number.toNat) %
      C.validators.length < C.validators.length := Nat.mod_lt _ (Nat.pos_of_ne_zero hn)
  simp only [proposer?, mod_eq hn, Option.bind_eq_bind, Option.bind_some, ← Nat.add_mod, proposer,
    Rotation.proposer, List.getElem?_eq_getElem hlt, Option.map_some]

end Committee

/-! ### Timers and round changes -/

def Config.timeout? (c : Config) (round : UInt32) : Option UInt64 := do
  let factor ← shift 1 (min (min round.toNat c.maxExponent.toNat) 63)
  return UInt64.ofNat (min (c.baseTimeout.toNat * factor) (UInt64.size - 1))

theorem Config.timeout?_eq (c : Config) (round : UInt32) :
    c.timeout? round = some (c.timeout round) := by
  have hbits : min (min round.toNat c.maxExponent.toNat) 63 < 64 := by omega
  simp only [timeout?, shift_eq hbits, Option.bind_eq_bind, Option.bind_some, timeout,
    Nat.shiftLeft_eq, Nat.one_mul]
  rfl

namespace RoundChanges

/-- Nothing if there are too few, or else the entry at a position that is counted from one. -/
def checkedTarget (p : RoundChanges) (C : Committee) (current : UInt32) :
    Option (Option UInt32) := do
  let needed := C.faultTolerance + 1
  let ahead := p.announced.values.filter (current < ·)
  if ahead.length < needed then return none
  let position ← sub needed 1
  return (ahead.mergeSort fun a b => b ≤ a)[position]?

theorem checkedTarget_eq (p : RoundChanges) (C : Committee) (current : UInt32) :
    p.checkedTarget C current = some (p.earlyTarget? C current) := by
  unfold checkedTarget earlyTarget?
  dsimp only
  split
  · next hfew =>
    rw [List.getElem?_eq_none (by rw [List.length_mergeSort]; omega)]
    rfl
  · rw [sub_eq (by omega)]
    rfl

end RoundChanges

/-! ### Signatures and addresses -/

/-- The scalars and the parity are written over 65 zeros. -/
def Signature.toBytes? (g : Signature) : Option Bytes := do
  let b := List.replicate 65 0
  let b ← splice b 0 32 g.r.toList
  let b ← splice b 32 64 g.s.toList
  splice b 64 65 [if g.odd then 1 else 0]

theorem Signature.toBytes?_eq (g : Signature) : g.toBytes? = some g.toBytes := by
  have hr := g.r.length_toList
  have hs := g.s.length_toList
  have hfirst : splice (List.replicate 65 0) 0 32 g.r.toList =
      some (g.r.toList ++ List.replicate 33 0) :=
    splice_eq (a := []) (b := List.replicate 32 0) rfl rfl rfl hr
  have hsecond : splice (g.r.toList ++ List.replicate 33 0) 32 64 g.s.toList =
      some (g.r.toList ++ g.s.toList ++ [0]) :=
    splice_eq (b := List.replicate 32 0) (c := [0]) (by simp [List.replicate]) hr
      (by rw [hr, List.length_replicate]) hs
  have hthird : splice (g.r.toList ++ g.s.toList ++ [0]) 64 65 [if g.odd then 1 else 0] =
      some (g.toBytes ++ []) :=
    splice_eq (b := [0]) (List.append_nil _).symm (by simp [hr, hs]) (by simp [hr, hs]) rfl
  rw [List.append_nil] at hthird
  simp only [toBytes?, hfirst, hsecond, hthird, Option.bind_eq_bind, Option.bind_some]

/-- The scalars of a signature that was just made are read from the 64 bytes of both. -/
def Signature.ofSign? (g : Ecdsa.Sign) : Option (Bytes × Bytes) := do
  let b := Bytes.ofNat 32 g.r ++ Bytes.ofNat 32 g.s
  let r ← slice b 0 32
  let s ← slice b 32 64
  return (r, s)

theorem Signature.ofSign?_eq (g : Ecdsa.Sign) :
    ofSign? g = some ((ofSign g).r.toList, (ofSign g).s.toList) := by
  unfold ofSign? ofSign
  simp only [ByteVec.ofNat]
  have hr := Bytes.length_ofNat 32 g.r
  have hs := Bytes.length_ofNat 32 g.s
  generalize Bytes.ofNat 32 g.r = r at *
  generalize Bytes.ofNat 32 g.s = s at *
  have hfirst : slice (r ++ s) 0 32 = some r := slice_eq (a := []) (c := s) rfl rfl (by simp [hr])
  have hsecond : slice (r ++ s) 32 64 = some s :=
    slice_eq (c := []) (by simp) hr (by rw [hr, hs])
  rw [Option.bind_eq_bind, hfirst, Option.bind_some, hsecond]
  rfl

/-- The last digits of a number. -/
theorem Bytes.ofNat_toNat_append (a b : Bytes) : Bytes.ofNat b.length (a ++ b).toNat = b := by
  induction b using List.reverseRecOn with
  | nil => rfl
  | append_singleton b x ih =>
    have hx := x.toNat_lt
    have hdiv : (256 * (a ++ b).toNat + x.toNat) / 256 = (a ++ b).toNat := by omega
    have hmod : (256 * (a ++ b).toNat + x.toNat) % 256 = x.toNat := by omega
    rw [← List.append_assoc, Bytes.toNat_concat, List.length_append, List.length_singleton,
      Bytes.ofNat, hdiv, hmod, ih, UInt8.ofNat_toNat]

/-- The key is hashed without the byte in front of it, and the hash cut down to 20 bytes. -/
def Address.ofPoint? (a : Secp256k1.Affine) : Option Bytes := do
  let key ← slice (4 :: (Bytes.ofNat 32 a.x ++ Bytes.ofNat 32 a.y)) 1 65
  slice (Keccak.hash key).toList 12 32

theorem Address.ofPoint?_eq (a : Secp256k1.Affine) :
    ofPoint? a = some (ofPoint a).toList := by
  unfold ofPoint? ofPoint
  have hkey : (Bytes.ofNat 32 a.x ++ Bytes.ofNat 32 a.y).length = 64 := by simp
  generalize Bytes.ofNat 32 a.x ++ Bytes.ofNat 32 a.y = key at *
  have hslice : slice (4 :: key) 1 65 = some key :=
    slice_eq (a := [4]) (c := []) (by simp) rfl (by simp [hkey])
  rw [Option.bind_eq_bind, hslice, Option.bind_some]
  generalize Keccak.hash key = h
  obtain ⟨hash, hlength⟩ := h
  have hfront : (hash.take 12).length = 12 := by simp [hlength]
  have hrear : (hash.drop 12).length = 20 := by simp [hlength]
  have hsplit : hash = hash.take 12 ++ hash.drop 12 := (List.take_append_drop 12 hash).symm
  have hcut : slice hash 12 32 = some (hash.drop 12) :=
    slice_eq (c := []) (by simp) hfront (by rw [hfront, hrear])
  have hdigits := Bytes.ofNat_toNat_append (hash.take 12) (hash.drop 12)
  rw [← hsplit, hrear] at hdigits
  exact hcut.trans (congrArg some hdigits.symm)

/-! ### Heights to come -/

namespace Node

variable (E : Setup) (ext : Collaborators)

/-- The distance to the height of the message is found first. -/
def hold? (height : UInt64) (m : Message) (n : Node) : Option Node := do
  let later := m.round.height
  let distance ← sub later.toNat height.toNat
  if E.config.horizon.toNat < distance then return n
  match m.author E.scheme with
  | .ok a =>
    if (E.validatorsAt later).contains a then
      return { n with backlog := n.backlog.push E.config.bufferLimit.toNat later m }
    else return n
  | .error _ => return n

theorem hold?_eq {height : UInt64} {m : Message} (h : height < m.round.height) (n : Node) :
    (hold? E height m n).map (fun n => ⟨.ok (), n, []⟩) = some (hold E height m n) := by
  have hle : height ≤ m.round.height := UInt64.le_of_lt h
  have hfar : E.config.horizon.toNat < m.round.height.toNat - height.toNat ↔
      ¬ m.round.height - height ≤ E.config.horizon := by
    rw [UInt64.le_iff_toNat_le, UInt64.toNat_sub_of_le _ _ hle, Nat.not_le]
  unfold hold? hold
  dsimp only
  rw [sub_eq (UInt64.le_iff_toNat_le.1 hle), Option.bind_eq_bind, Option.bind_some]
  simp only [hfar]
  by_cases hnear : m.round.height - height ≤ E.config.horizon
  · rw [if_neg (not_not.2 hnear), if_pos hnear]
    cases m.author E.scheme with
    | error => rfl
    | ok a =>
      dsimp only
      split <;> rfl
  · rw [if_pos hnear, if_neg hnear]
    rfl

/-- Only messages for heights to come are held. -/
def handleMessage? (m : Message) (n : Node) : Option (Outcome Node Unit) :=
  match n.current with
  | some i =>
    if i.height < m.round.height then (hold? E i.height m n).map fun n => ⟨.ok (), n, []⟩
    else some (handleMessage E ext m n)
  | none => some (handleMessage E ext m n)

theorem handleMessage?_eq (m : Message) (n : Node) :
    handleMessage? E ext m n = some (handleMessage E ext m n) := by
  unfold handleMessage?
  split
  · next i hi =>
    split
    · next h =>
      rw [hold?_eq E h, handleMessage, Handler.get_bind, hi]
      dsimp only
      rw [if_pos h]
    · rfl
  · rfl

end Node

/-- All that a node takes differences, remainders, shifts, entries and parts of is in range, in
whatever state it is and whatever comes. -/
structure Setup.InRange (E : Setup) : Prop where
  quorum : ∀ n, quorum? n = some (quorum n)
  start : ∀ height validators,
    Rotation.heightStart? height validators = some (Rotation.byHeight.start height validators)
  turn : ∀ (C : Committee) round, (C.proposer? round).map .ok = some (C.proposer round)
  timer : ∀ round, E.config.timeout? round = some (E.config.timeout round)
  target : ∀ (p : RoundChanges) C current,
    p.checkedTarget C current = some (p.earlyTarget? C current)
  signature : ∀ g : Signature, g.toBytes? = some g.toBytes
  signing : ∀ g, Signature.ofSign? g =
    some ((Signature.ofSign g).r.toList, (Signature.ofSign g).s.toList)
  address : ∀ a, Address.ofPoint? a = some (Address.ofPoint a).toList
  message : ∀ ext m n, Node.handleMessage? E ext m n = some (Node.handleMessage E ext m n)

theorem Setup.inRange (E : Setup) : E.InRange where
  quorum := quorum?_eq
  start := Rotation.heightStart?_eq
  turn := Committee.proposer?_eq
  timer := E.config.timeout?_eq
  target := RoundChanges.checkedTarget_eq
  signature := Signature.toBytes?_eq
  signing := Signature.ofSign?_eq
  address := Address.ofPoint?_eq
  message := Node.handleMessage?_eq E

end BlockAgreement
