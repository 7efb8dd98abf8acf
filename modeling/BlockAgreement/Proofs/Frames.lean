import BlockAgreement.Message.Frame
import BlockAgreement.Proofs.Rlp
import BlockAgreement.Proofs.Run

/-! Every message is read back from its frame, and everything a message is put together from is read
back from its place in the frame, whatever comes after it. -/

namespace BlockAgreement

open Reader

variable {α : Type} {a : α} {p : Bytes}

namespace Wire

theorem field_takes {r : Reader Rlp.Fault α} (name : String) (h : r.Takes p a) :
    (field name r).Takes p a :=
  h.mapError _

theorem list_takes (name : String) (h : p.length < 2 ^ 64) :
    (list name).Takes (Rlp.encodeList p) p :=
  (field_takes name (Rlp.item_encodeList h)).bind_nil (.pure p)

theorem whole_eq {r : Reader Error α} (name : String) (h : r.Takes p a) :
    whole name r p = .ok a := by
  rw [whole, h.all]
  rfl

theorem within_takes {fields : Reader Error α} (name : String) (h : fields.Takes p a)
    (hlen : p.length < 2 ^ 64) : (within name fields).Takes (Rlp.encodeList p) a :=
  (list_takes name hlen).bind_nil (.liftM (whole_eq name h))

theorem items_takes {each : Reader Error α} {write : α → Bytes} {as : List α} (name : String)
    (h : ∀ a, each.Takes (write a) a) (hne : ∀ a, write a ≠ [])
    (hlen : (as.flatMap write).length < 2 ^ 64) :
    (items name each).Takes (Rlp.encodeList (as.flatMap write)) as :=
  (list_takes name hlen).bind_nil (.liftM (Takes.many (fun a _ => h a) fun a _ => hne a))

theorem optional_none_takes (r : Reader Error α) : (optional r).Takes Rlp.emptyList none :=
  fun _ => rfl

theorem optional_some_takes {r : Reader Error α} (h : r.Takes p a) (hne : p ≠ [])
    (hhead : p.head? ≠ some 0xc0) : (optional r).Takes p (some a) := by
  obtain ⟨x, b, rfl⟩ := List.exists_cons_of_ne_nil hne
  intro rest
  rw [optional, run_get_bind]
  split
  · next heq =>
    have hx : x = 0xc0 := (List.cons.inj heq).1
    simp [hx] at hhead
  · exact h.map some rest

theorem roundId_takes (r : RoundId) : roundId.Takes r.encode r :=
  (field_takes _ (Rlp.uint64_takes r.height)).bind
    ((field_takes _ (Rlp.uint32_takes r.number)).bind_nil (.pure r))

end Wire

namespace Signature

@[simp] theorem length_toBytes (g : Signature) : g.toBytes.length = 65 := by
  simp [toBytes, ByteVec.length_toList]

theorem ofBytes?_toBytes (g : Signature) : ofBytes? g.toBytes = .ok g := by
  obtain ⟨r, s, odd⟩ := g
  have hr : (r.toList ++ (s.toList ++ [if odd then (1 : UInt8) else 0])).take 32 = r.toList :=
    List.take_left' r.length_toList
  have hs : ((r.toList ++ (s.toList ++ [if odd then (1 : UInt8) else 0])).drop 32).take 32 =
      s.toList := by
    rw [List.drop_left' r.length_toList, List.take_left' s.length_toList]
  have hv : (r.toList ++ (s.toList ++ [if odd then (1 : UInt8) else 0])).drop 64 =
      [if odd then (1 : UInt8) else 0] := by
    rw [← List.append_assoc, List.drop_left' (by simp [ByteVec.length_toList])]
  rw [ofBytes?, toBytes, List.append_assoc, hr, hs, hv, ByteVec.ofList?_toList,
    ByteVec.ofList?_toList]
  cases odd <;> rfl

theorem takes (name : String) (g : Signature) : (Wire.signature name).Takes g.encode g := by
  refine (Wire.field_takes name (Rlp.item_encodeBytes (by simp))).bind_nil ?_
  simp only [ofBytes?_toBytes]
  exact .pure g

theorem length_encode_le (g : Signature) : g.encode.length ≤ 74 := by
  have := Rlp.length_encodeBytes_le (p := g.toBytes) (by simp)
  rwa [length_toBytes] at this

end Signature

theorem RoundId.length_encode_le (r : RoundId) : r.encode.length ≤ 34 := by
  have hh := Rlp.length_encodeNat_le (k := r.height.toNat) r.height.toNat_lt
  have hn := Rlp.length_encodeNat_le (k := r.number.toNat) (by have := r.number.toNat_lt; omega)
  rw [encode, List.length_append]
  omega

theorem Digest.length_encodeBytes_le (d : Digest) : (Rlp.encodeBytes d.toList).length ≤ 41 := by
  have := Rlp.length_encodeBytes_le (p := d.toList) (by rw [d.length_toList]; decide)
  rwa [d.length_toList] at this

namespace Claim

theorem length_fields_le (c : Claim) :
    (Rlp.encodeBytes c.digest.toList ++ Rlp.encodeNat c.round.toNat).length ≤ 58 := by
  have hd := Digest.length_encodeBytes_le c.digest
  have hr := Rlp.length_encodeNat_le (k := c.round.toNat) (by have := c.round.toNat_lt; omega)
  rw [List.length_append]
  omega

theorem length_encode_le (c : Claim) : c.encode.length ≤ 67 := by
  have hf := c.length_fields_le
  have := Rlp.length_encodeList_le
    (p := Rlp.encodeBytes c.digest.toList ++ Rlp.encodeNat c.round.toNat) (by omega)
  rw [encode]
  omega

theorem read_takes (c : Claim) : read.Takes c.encode c :=
  Rlp.record_takes ((Rlp.fixed_takes c.digest (by decide)).bind
    ((Rlp.uint32_takes c.round).bind_nil (.pure c))) (by have := c.length_fields_le; omega)

theorem optional_takes (name : String) (c? : Option Claim) :
    (Wire.optional (Wire.field name read)).Takes
      (match c? with
        | some c => c.encode
        | none => Rlp.emptyList) c? := by
  cases c? with
  | none => exact Wire.optional_none_takes _
  | some c =>
    have hne : Rlp.encodeBytes c.digest.toList ++ Rlp.encodeNat c.round.toNat ≠ [] := by
      simp [Rlp.encodeBytes_ne_nil]
    exact Wire.optional_some_takes (Wire.field_takes name c.read_takes)
      (Rlp.encodeList_ne_nil _)
      (Rlp.head?_encodeList hne (by have := c.length_fields_le; omega))

end Claim

/-! ### Statements -/

/-- Statements of this kind are short and read back from what was written. -/
class Statement.ReadsBack (P : Type) [Statement P] : Prop where
  length_encode_le : ∀ p : P, (Statement.encode p).length ≤ 158
  takes : ∀ p : P, (Statement.read (P := P)).Takes (Statement.encode p) p

/-- A statement whose text is a list of fields. -/
theorem Statement.ReadsBack.of_fields {P : Type} [Statement P] {name : String}
    {fields : Reader Error P} {write : P → Bytes}
    (hread : Statement.read (P := P) = Wire.within name fields)
    (hwrite : ∀ p : P, Statement.encode p = Rlp.encodeList (write p))
    (hlen : ∀ p, (write p).length ≤ 149) (h : ∀ p, fields.Takes (write p) p) :
    Statement.ReadsBack P where
  length_encode_le p := by
    have hp := hlen p
    have := Rlp.length_encodeList_le (p := write p) (by omega)
    rw [hwrite]
    omega
  takes p := by
    have hp := hlen p
    rw [hread, hwrite]
    exact Wire.within_takes name (h p) (by omega)

/-- The two fields that a proposal, a prepare and a commit share. -/
theorem Statement.length_vote_le (r : RoundId) (d : Digest) :
    (r.encode ++ Rlp.encodeBytes d.toList).length ≤ 75 := by
  have hr := r.length_encode_le
  have hd := Digest.length_encodeBytes_le d
  rw [List.length_append]
  omega

theorem Wire.digest_takes (name : String) (d : Digest) :
    (Wire.field name (Rlp.fixed 32)).Takes (Rlp.encodeBytes d.toList) d :=
  Wire.field_takes name (Rlp.fixed_takes d (by decide))

instance : Statement.ReadsBack ProposalStatement :=
  .of_fields rfl (fun _ => rfl)
    (fun p => (Statement.length_vote_le p.round p.digest).trans (by decide))
    fun p => (Wire.roundId_takes p.round).bind ((Wire.digest_takes _ p.digest).bind_nil (.pure p))

instance : Statement.ReadsBack PrepareStatement :=
  .of_fields rfl (fun _ => rfl)
    (fun p => (Statement.length_vote_le p.round p.digest).trans (by decide))
    fun p => (Wire.roundId_takes p.round).bind ((Wire.digest_takes _ p.digest).bind_nil (.pure p))

instance : Statement.ReadsBack CommitStatement :=
  .of_fields rfl (fun _ => rfl)
    (fun p => by
      have hv := Statement.length_vote_le p.round p.digest
      have hs := p.blockSeal.length_encode_le
      rw [List.length_append]
      omega)
    fun p => by
      rw [List.append_assoc]
      exact (Wire.roundId_takes p.round).bind ((Wire.digest_takes _ p.digest).bind
        ((p.blockSeal.takes _).bind_nil (.pure p)))

instance : Statement.ReadsBack RoundChangeStatement :=
  .of_fields rfl (fun _ => rfl)
    (fun p => by
      have hr := p.round.length_encode_le
      rw [List.length_append]
      split
      · next c _ =>
        have hc := c.length_encode_le
        omega
      · show p.round.encode.length + 1 ≤ 149
        omega)
    fun p => (Wire.roundId_takes p.round).bind
      ((Claim.optional_takes _ p.claim).bind_nil (.pure p))

namespace Signed

variable {P : Type} [Statement P] [Statement.ReadsBack P]

theorem takes (m : Signed P) : (read (P := P)).Takes m.encode m := by
  have hp := Statement.ReadsBack.length_encode_le m.statement
  have hg := m.signature.length_encode_le
  refine Wire.within_takes _ ((Statement.ReadsBack.takes m.statement).bind
    ((m.signature.takes _).bind_nil (.pure m))) ?_
  rw [List.length_append]
  omega

theorem items_takes (name : String) (ms : List (Signed P))
    (h : (ms.flatMap encode).length < 2 ^ 64) :
    (Wire.items name (read (P := P))).Takes (Rlp.encodeList (ms.flatMap encode)) ms :=
  Wire.items_takes name takes (fun _ => Rlp.encodeList_ne_nil _) h

end Signed

/-! ### Blocks -/

/-- A payload fits where it fits with its header. -/
theorem Rlp.length_lt_of_encodeList {n : Nat} (h : (Rlp.encodeList p).length < n) : p.length < n :=
  (Rlp.length_le_encodeList p).trans_lt h

theorem Header.read_takes {h : Header} (hlen : h.encode.length < 2 ^ 64) :
    Header.read.Takes h.encode h := by
  have hfields := Rlp.length_lt_of_encodeList hlen
  have hextra : h.extra.length < 2 ^ 64 := by
    have := Rlp.length_le_encodeBytes h.extra
    rw [List.length_append] at hfields
    omega
  unfold Header.encode
  simp only [List.append_assoc] at hfields ⊢
  exact Rlp.record_takes ((Rlp.fixed_takes h.parent (by decide)).bind
    ((Rlp.fixed_takes h.beneficiary (by decide)).bind
    ((Rlp.fixed_takes h.root (by decide)).bind
    ((Rlp.uint64_takes h.number).bind
    ((Rlp.uint64_takes h.timestamp).bind
    ((Rlp.string_takes hextra).bind_nil (.pure h))))))) hfields

theorem transactions_take {txs : List Bytes} (hlen : (encodeTransactions txs).length < 2 ^ 64) :
    (Rlp.listOf Rlp.string).Takes (encodeTransactions txs) txs := by
  have hall := Rlp.length_lt_of_encodeList hlen
  refine Rlp.listOf_takes (fun tx htx => Rlp.string_takes ?_)
    (fun tx _ => Rlp.encodeBytes_ne_nil tx) hall
  calc tx.length
    _ ≤ (Rlp.encodeBytes tx).length := Rlp.length_le_encodeBytes tx
    _ ≤ (txs.flatMap Rlp.encodeBytes).length :=
      (List.sublist_flatten_of_mem (List.mem_map_of_mem htx)).length_le
    _ < 2 ^ 64 := hall

namespace Block

variable {S : Scheme}

theorem ofHeader?_header (b : Block) : ofHeader? S (b.header S) b.transactions = some b :=
  if_pos rfl

theorem read_takes {b : Block} (hlen : (b.encode S).length < 2 ^ 64) :
    (read S).Takes (b.encode S) b := by
  have hfields := Rlp.length_lt_of_encodeList hlen
  rw [List.length_append] at hfields
  refine (Rlp.record_takes ((Header.read_takes (by omega)).bind
    ((transactions_take (by omega)).bind_nil (.pure (b.header S, b.transactions))))
    (by rwa [List.length_append])).bind_nil ?_
  simp only [ofHeader?_header]
  exact .pure b

theorem optional_takes (name : String) (b? : Option Block) :
    (∀ b ∈ b?, (b.encode S).length < 2 ^ 64) →
      (Wire.optional (Wire.field name (read S))).Takes
        (match b? with
          | some b => b.encode S
          | none => Rlp.emptyList) b? := by
  intro hlen
  cases b? with
  | none => exact Wire.optional_none_takes _
  | some b =>
    have hb := hlen b rfl
    have hne : (b.header S).encode ++ encodeTransactions b.transactions ≠ [] := by
      simp [Header.encode, Rlp.encodeList_ne_nil]
    exact Wire.optional_some_takes (Wire.field_takes name (read_takes hb))
      (Rlp.encodeList_ne_nil _) (Rlp.head?_encodeList hne (Rlp.length_lt_of_encodeList hb))

end Block

/-! ### Messages -/

section

variable {S : Scheme}

theorem Proposal.new?_self (m : Proposal) :
    Proposal.new? m.signed m.block m.roundChanges m.prepares = .ok m :=
  dif_pos m.roundChanges_eq_nil_iff

theorem Proposal.decode_encode {m : Proposal} (hlen : (m.encode S).length < 2 ^ 64) :
    Proposal.decode S (m.encode S) = .ok m := by
  have hfields := Rlp.length_lt_of_encodeList hlen
  have hsum := hfields
  simp only [List.length_append] at hsum
  have hblock : (m.block.encode S).length < 2 ^ 64 := by omega
  have hlists : (Rlp.encodeList (m.roundChanges.flatMap Signed.encode) ++
      Rlp.encodeList (m.prepares.flatMap Signed.encode)).length < 2 ^ 64 :=
    Rlp.length_lt_of_encodeList (by omega)
  have hsum := hlists
  rw [List.length_append] at hsum
  have hrcs := Signed.items_takes "proposal.round_changes" m.roundChanges
    (Rlp.length_lt_of_encodeList (by omega))
  have hps := Signed.items_takes "proposal.prepares" m.prepares
    (Rlp.length_lt_of_encodeList (by omega))
  refine bind_eq_ok_iff.2 ⟨_, Wire.whole_eq _ (Wire.list_takes _ hfields), ?_⟩
  rw [List.append_assoc]
  refine bind_eq_ok_iff.2 ⟨_, Wire.whole_eq _ (m.signed.takes.bind ((Wire.field_takes _
    (Block.read_takes hblock)).bind ((Wire.list_takes _ hlists).bind_nil (.pure _)))), ?_⟩
  exact bind_eq_ok_iff.2 ⟨(m.roundChanges, m.prepares),
    Wire.whole_eq _ (hrcs.bind (hps.bind_nil (.pure _))), m.new?_self⟩

theorem RoundChange.new?_self (m : RoundChange) :
    RoundChange.new? m.signed m.block m.prepares = .ok m := by
  rw [new?]
  split
  · rfl
  · next h =>
    have hm := m.matched
    rw [h] at hm
    cases hm

theorem RoundChange.decode_encode {m : RoundChange} (hlen : (m.encode S).length < 2 ^ 64) :
    RoundChange.decode S (m.encode S) = .ok m := by
  have hfields := Rlp.length_lt_of_encodeList hlen
  have hsum := hfields
  simp only [List.length_append] at hsum
  have hblock : ∀ b ∈ m.block, (b.encode S).length < 2 ^ 64 := by
    intro b hb
    rw [Option.mem_def.1 hb] at hsum
    dsimp only at hsum
    omega
  have hps := Signed.items_takes "round_change.prepares" m.prepares
    (Rlp.length_lt_of_encodeList (by omega))
  refine Wire.whole_eq _ (Takes.bind_nil (Wire.within_takes _ (a := (m.signed, m.block, m.prepares))
    ?_ hfields) (.liftM m.new?_self))
  rw [List.append_assoc]
  exact m.signed.takes.bind ((Block.optional_takes _ m.block hblock).bind (hps.bind_nil (.pure _)))

theorem Kind.ofCode?_code (k : Kind) : ofCode? k.code = some k := by
  cases k <;> rfl

theorem Message.decodeBody_body {m : Message} (hlen : (m.body S).length < 2 ^ 64) :
    Message.decodeBody S (m.body S) m.kind = .ok m := by
  cases m with
  | proposal m =>
    show Message.proposal <$> Proposal.decode S (m.encode S) = _
    rw [Proposal.decode_encode hlen]
    rfl
  | prepare m =>
    show Message.prepare <$> Wire.whole _ Signed.read m.encode = _
    rw [Wire.whole_eq _ m.takes]
    rfl
  | commit m =>
    show Message.commit <$> Wire.whole _ Signed.read m.encode = _
    rw [Wire.whole_eq _ m.takes]
    rfl
  | roundChange m =>
    show Message.roundChange <$> RoundChange.decode S (m.encode S) = _
    rw [RoundChange.decode_encode hlen]
    rfl

theorem Message.decode_encode {m : Message} (hlen : (m.encode S).length < 2 ^ 64) :
    Message.decode S (m.encode S) = .ok m := by
  have hbody : (m.body S).length < 2 ^ 64 := (Nat.lt_succ_self _).trans hlen
  rw [encode, decode, Kind.ofCode?_code]
  exact decodeBody_body hbody

end

namespace Message

/-- Every message is read back from its frame, and each part of a message from its place in it: the
reader of the part takes what was written for it and leaves whatever comes after it. -/
theorem read_back (S : Scheme) :
    (∀ m : Message, (m.encode S).length < 2 ^ 64 → decode S (m.encode S) = .ok m) ∧
    (∀ m : Signed ProposalStatement, Signed.read.Takes m.encode m) ∧
    (∀ m : Prepare, Signed.read.Takes m.encode m) ∧
    (∀ m : Commit, Signed.read.Takes m.encode m) ∧
    (∀ m : Signed RoundChangeStatement, Signed.read.Takes m.encode m) ∧
    (∀ p : ProposalStatement, Statement.read.Takes (Statement.encode p) p) ∧
    (∀ p : PrepareStatement, Statement.read.Takes (Statement.encode p) p) ∧
    (∀ p : CommitStatement, Statement.read.Takes (Statement.encode p) p) ∧
    (∀ p : RoundChangeStatement, Statement.read.Takes (Statement.encode p) p) ∧
    (∀ b : Block, (b.encode S).length < 2 ^ 64 → (Block.read S).Takes (b.encode S) b) ∧
    ∀ (name : String) (g : Signature), (Wire.signature name).Takes g.encode g :=
  ⟨fun _ => decode_encode, Signed.takes, Signed.takes, Signed.takes, Signed.takes,
    Statement.ReadsBack.takes, Statement.ReadsBack.takes, Statement.ReadsBack.takes,
    Statement.ReadsBack.takes, fun _ => Block.read_takes, Signature.takes⟩

/-- Moves on to round 2 with a block that was prepared in round 1. -/
def claiming : Message :=
  let digest := Scheme.plain.digest (.plain 1 [])
  .roundChange {
    signed := ⟨⟨⟨1, 2⟩, some ⟨digest, 1⟩⟩, ⟨.zero, .zero, true⟩⟩
    block := some (.plain 1 [])
    prepares := [⟨⟨⟨1, 1⟩, digest⟩, ⟨.zero, .zero, false⟩⟩]
    matched := by simp [RoundChange.mismatch?, RoundChange.strayPrepare?] }

theorem read_back_claiming :
    (claiming.encode .plain).length < 2 ^ 64 ∧
      decode .plain (claiming.encode .plain) = .ok claiming ∧
      ((Block.plain 1 []).encode .plain).length < 2 ^ 64 ∧
      (Block.read .plain).Takes ((Block.plain 1 []).encode .plain) (.plain 1 []) := by
  have hm : (claiming.encode .plain).length < 2 ^ 64 := by decide +kernel
  have hb : ((Block.plain 1 []).encode .plain).length < 2 ^ 64 := by decide +kernel
  have h := read_back .plain
  exact ⟨hm, h.1 _ hm, hb, h.2.2.2.2.2.2.2.2.2.1 _ hb⟩

end Message

end BlockAgreement
