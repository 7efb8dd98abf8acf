import BlockAgreement.Proofs.Canonical
import BlockAgreement.Proofs.Frames

/-! A frame that is read is the frame of the message that was read, byte for byte, and so is each
part of it. No other frame gives the same message, no list is left with bytes that nobody read, and
a block comes with the transactions that its header names. -/

namespace BlockAgreement

open Reader

variable {α : Type} {b : Bytes}

namespace Wire

variable {r : Reader Error α} {write : α → Bytes}

theorem field_spells {r : Reader Rlp.Fault α} (name : String) (h : r.Spells write) :
    (field name r).Spells write :=
  h.mapError _

theorem list_spells (name : String) : (list name).Spells Rlp.encodeList := by
  refine Spells.bind (field_spells name Rlp.item_spells) ?_
  rintro ⟨_ | _, p⟩
  · exact .throw
  · exact .pure rfl

theorem whole_spells {name : String} {a : α} (h : r.Spells write) (hr : whole name r b = .ok a) :
    b = write a := by
  obtain ⟨⟨d, rest⟩, hd, hr⟩ := bind_eq_ok_iff.1 hr
  obtain ⟨⟨⟩, hdone, hr⟩ := bind_eq_ok_iff.1 hr
  cases hr
  rw [done] at hdone
  split at hdone
  · next hnil => rw [h.eq hd, List.isEmpty_iff.1 hnil, List.append_nil]
  · cases hdone

theorem within_spells (name : String) (h : r.Spells write) :
    (within name r).Spells fun a => Rlp.encodeList (write a) := by
  refine (list_spells name).bind fun payload => .liftM fun a ha => ?_
  rw [← whole_spells h ha]
  rfl

theorem items_spells (name : String) (h : r.Spells write) (hne : ∀ a, write a ≠ []) :
    (items name r).Spells fun as => Rlp.encodeList (as.flatMap write) := by
  refine (list_spells name).bind fun payload => .liftM fun as has => ?_
  rw [h.many hne has]
  rfl

/-- How a value is written that may be missing. -/
def writeOptional (write : α → Bytes) : Option α → Bytes
  | some a => write a
  | none => Rlp.emptyList

theorem optional_spells (h : r.Spells write) : (optional r).Spells (writeOptional write) := by
  have hsome : (some <$> r).Spells (writeOptional write) := h.map fun _ _ _ _ => rfl
  intro b a? rest hr
  rw [optional, run_get_bind] at hr
  split at hr
  · cases hr
    rfl
  · exact hsome.eq hr

theorem roundId_spells : roundId.Spells RoundId.encode :=
  (field_spells _ Rlp.uint64_spells).bind fun _ =>
    (field_spells _ Rlp.uint32_spells).bind fun _ => .pure rfl

end Wire

theorem Signature.toBytes_of_ofBytes? {g : Signature} (h : ofBytes? b = .ok g) :
    g.toBytes = b := by
  have hbytes : ∀ {r s : ByteVec 32} {v : UInt8}, ByteVec.ofList? (b.take 32) = some r →
      ByteVec.ofList? ((b.drop 32).take 32) = some s → b.drop 64 = [v] →
      r.toList ++ s.toList ++ [v] = b := by
    intro r s v hr hs hv
    have hsplit : (b.drop 32).take 32 ++ b.drop 64 = b.drop 32 := by
      rw [show b.drop 64 = (b.drop 32).drop 32 by rw [List.drop_drop], List.take_append_drop]
    rw [ByteVec.ofList?_eq_some hr, ByteVec.ofList?_eq_some hs, ← hv, List.append_assoc, hsplit,
      List.take_append_drop]
  rw [ofBytes?] at h
  split at h
  · next r s v hr hs hv =>
    split at h
    · next hv0 =>
      cases h
      rw [← hbytes hr hs hv, hv0]
      rfl
    · split at h
      · next hv1 =>
        cases h
        rw [← hbytes hr hs hv, hv1]
        rfl
      · cases h
  · cases h

theorem Wire.signature_spells (name : String) : (signature name).Spells Signature.encode := by
  refine Spells.bind (field_spells name Rlp.item_spells) ?_
  rintro ⟨_ | _, p⟩
  · dsimp only
    cases hg : Signature.ofBytes? p with
    | error reason => exact .throw
    | ok g =>
      refine .pure ?_
      rw [Signature.encode, Signature.toBytes_of_ofBytes? hg]
      rfl
  · exact .throw

theorem Claim.read_spells : read.Spells encode :=
  Rlp.record_spells ((Rlp.fixed_spells 32).bind fun _ => Rlp.uint32_spells.bind fun _ => .pure rfl)

/-! ### Statements -/

/-- Statements of this kind have one written form. -/
class Statement.Canonical (P : Type) [Statement P] : Prop where
  spells : (Statement.read (P := P)).Spells Statement.encode

theorem Wire.digest_spells (name : String) :
    (Wire.field name (Rlp.fixed 32)).Spells fun d => Rlp.encodeBytes d.toList :=
  Wire.field_spells name (Rlp.fixed_spells 32)

instance : Statement.Canonical ProposalStatement where
  spells := Wire.within_spells "proposal" <| Wire.roundId_spells.bind fun _ =>
    (Wire.digest_spells _).bind fun _ => .pure rfl

instance : Statement.Canonical PrepareStatement where
  spells := Wire.within_spells "prepare" <| Wire.roundId_spells.bind fun _ =>
    (Wire.digest_spells _).bind fun _ => .pure rfl

instance : Statement.Canonical CommitStatement where
  spells := Wire.within_spells "commit" <| Wire.roundId_spells.bind fun _ =>
    (Wire.digest_spells _).bind fun _ => (Wire.signature_spells _).bind fun _ => .pure rfl

instance : Statement.Canonical RoundChangeStatement where
  spells := by
    refine Wire.within_spells "round_change" <| Wire.roundId_spells.bind fun _ =>
      (Wire.optional_spells (Wire.field_spells _ Claim.read_spells)).bind fun c? => .pure ?_
    cases c? <;> rfl

theorem Signed.read_spells {P : Type} [Statement P] [Statement.Canonical P] :
    (read (P := P)).Spells encode :=
  Wire.within_spells "signed_payload" <| Spells.bind Statement.Canonical.spells fun _ =>
    (Wire.signature_spells _).bind fun _ => .pure rfl

theorem Signed.encode_ne_nil {P : Type} [Statement P] (m : Signed P) : m.encode ≠ [] :=
  Rlp.encodeList_ne_nil _

/-! ### Blocks -/

theorem Header.read_spells : read.Spells encode :=
  Rlp.record_spells <| (Rlp.fixed_spells 32).bind fun _ => (Rlp.fixed_spells 20).bind fun _ =>
    (Rlp.fixed_spells 32).bind fun _ => Rlp.uint64_spells.bind fun _ => Rlp.uint64_spells.bind
      fun _ => Rlp.string_spells.bind fun _ => .pure rfl

theorem transactions_spell : (Rlp.listOf Rlp.string).Spells encodeTransactions :=
  Rlp.listOf_spells Rlp.string_spells Rlp.encodeBytes_ne_nil

namespace Block

variable {S : Scheme}

theorem ofHeader?_eq_some {h : Header} {txs : List Bytes} {block : Block}
    (hb : ofHeader? S h txs = some block) : block.header S = h ∧ block.transactions = txs := by
  rw [ofHeader?] at hb
  split at hb
  · next hroot =>
    cases hb
    exact ⟨by rw [header_new, ← hroot], rfl⟩
  · cases hb

/-- The header and the transactions, before they are compared. -/
def readParts : Reader Rlp.Fault (Header × List Bytes) := Rlp.record do
  let h ← Header.read
  let txs ← Rlp.listOf Rlp.string
  return (h, txs)

theorem readParts_spells :
    readParts.Spells fun x => Rlp.encodeList (x.1.encode ++ encodeTransactions x.2) :=
  Rlp.record_spells <| Header.read_spells.bind fun _ => transactions_spell.bind fun _ => .pure rfl

theorem read_spells : (read S).Spells (encode S) := by
  refine readParts_spells.bind ?_
  rintro ⟨h, txs⟩
  dsimp only
  cases hb : ofHeader? S h txs with
  | none => exact .throw
  | some block =>
    obtain ⟨rfl, rfl⟩ := ofHeader?_eq_some hb
    exact .pure rfl

/-- A header with other transactions than those it names is no block. -/
theorem read_of_root_ne {h : Header} {txs : List Bytes} {rest : Bytes}
    (hparts : readParts.run b = .ok ((h, txs), rest)) (hroot : h.root ≠ S.transactionsRoot txs) :
    (read S).run b =
      .error (.refused "transactions do not match the header's transactions root") := by
  have hnone : ofHeader? S h txs = none := if_neg hroot
  rw [read, ← readParts, run_bind_of_ok hparts]
  dsimp only
  rw [hnone]
  rfl

end Block

/-! ### Messages -/

section

variable {S : Scheme}

theorem Proposal.new?_eq_ok {signed : Signed ProposalStatement} {block : Block}
    {rcs : List (Signed RoundChangeStatement)} {prepares : List Prepare} {m : Proposal}
    (h : new? signed block rcs prepares = .ok m) : m.signed = signed ∧ m.block = block ∧
      m.roundChanges = rcs ∧ m.prepares = prepares := by
  rw [new?] at h
  split at h
  · cases h
    exact ⟨rfl, rfl, rfl, rfl⟩
  · cases h

theorem Proposal.fields_spell : (do
    let signed ← Signed.read
    let block ← Wire.field "proposal.block" (Block.read S)
    let certificates ← Wire.list "proposal.certificates"
    return (signed, block, certificates) :
      Reader Error (Signed ProposalStatement × Block × Bytes)).Spells fun x =>
      x.1.encode ++ x.2.1.encode S ++ Rlp.encodeList x.2.2 :=
  Signed.read_spells.bind fun _ => (Wire.field_spells _ Block.read_spells).bind fun _ =>
    (Wire.list_spells _).bind fun _ => .pure rfl

theorem Proposal.certificates_spell : (do
    let roundChanges ← Wire.items "proposal.round_changes" Signed.read
    let prepares ← Wire.items "proposal.prepares" Signed.read
    return (roundChanges, prepares) :
      Reader Error (List (Signed RoundChangeStatement) × List Prepare)).Spells fun x =>
      Rlp.encodeList (x.1.flatMap Signed.encode) ++ Rlp.encodeList (x.2.flatMap Signed.encode) :=
  (Wire.items_spells _ Signed.read_spells Signed.encode_ne_nil).bind fun _ =>
    (Wire.items_spells _ Signed.read_spells Signed.encode_ne_nil).bind fun _ => .pure rfl

theorem Proposal.encode_of_decode {m : Proposal} (h : decode S b = .ok m) : m.encode S = b := by
  obtain ⟨body, hbody, h⟩ := bind_eq_ok_iff.1 h
  obtain ⟨⟨signed, block, certificates⟩, hfields, h⟩ := bind_eq_ok_iff.1 h
  obtain ⟨⟨rcs, prepares⟩, hcertificates, h⟩ := bind_eq_ok_iff.1 h
  obtain ⟨rfl, rfl, rfl, rfl⟩ := new?_eq_ok h
  rw [encode, ← Wire.whole_spells certificates_spell hcertificates,
    Wire.whole_spells (Wire.list_spells _) hbody, Wire.whole_spells fields_spell hfields]

theorem RoundChange.new?_eq_ok {signed : Signed RoundChangeStatement} {block : Option Block}
    {prepares : List Prepare} {m : RoundChange} (h : new? signed block prepares = .ok m) :
    m.signed = signed ∧ m.block = block ∧ m.prepares = prepares := by
  rw [new?] at h
  split at h
  · cases h
    exact ⟨rfl, rfl, rfl⟩
  · cases h

theorem RoundChange.fields_spell : (do
    let signed ← Signed.read
    let block ← Wire.optional (Wire.field "round_change.proposed_block" (Block.read S))
    let prepares ← Wire.items "round_change.prepares" Signed.read
    return (signed, block, prepares) :
      Reader Error (Signed RoundChangeStatement × Option Block × List Prepare)).Spells fun x =>
      x.1.encode ++ Wire.writeOptional (Block.encode S) x.2.1 ++
        Rlp.encodeList (x.2.2.flatMap Signed.encode) :=
  Signed.read_spells.bind fun _ =>
    (Wire.optional_spells (Wire.field_spells _ Block.read_spells)).bind fun _ =>
      (Wire.items_spells _ Signed.read_spells Signed.encode_ne_nil).bind fun _ => .pure rfl

theorem RoundChange.encode_of_decode {m : RoundChange} (h : decode S b = .ok m) :
    m.encode S = b := by
  refine (Wire.whole_spells (Spells.bind (Wire.within_spells _ fields_spell) ?_) h).symm
  rintro ⟨signed, block, prepares⟩
  refine .liftM fun m hm => ?_
  obtain ⟨rfl, rfl, rfl⟩ := new?_eq_ok hm
  cases hb : m.block <;> simp only [encode, hb, Wire.writeOptional, List.nil_append]

theorem Kind.code_of_ofCode? {code : UInt8} {k : Kind} (h : ofCode? code = some k) :
    k.code = code := by
  simp only [ofCode?] at h
  split_ifs at h <;> cases h <;> symm <;> assumption

theorem Message.encode_of_decodeBody {k : Kind} {m : Message} (h : decodeBody S b k = .ok m) :
    m.kind = k ∧ m.body S = b := by
  cases k with
  | proposal =>
    obtain ⟨p, hp, rfl⟩ := map_eq_ok_iff.1 h
    exact ⟨rfl, Proposal.encode_of_decode hp⟩
  | prepare =>
    obtain ⟨p, hp, rfl⟩ := map_eq_ok_iff.1 h
    exact ⟨rfl, (Wire.whole_spells Signed.read_spells hp).symm⟩
  | commit =>
    obtain ⟨c, hc, rfl⟩ := map_eq_ok_iff.1 h
    exact ⟨rfl, (Wire.whole_spells Signed.read_spells hc).symm⟩
  | roundChange =>
    obtain ⟨rc, hrc, rfl⟩ := map_eq_ok_iff.1 h
    exact ⟨rfl, RoundChange.encode_of_decode hrc⟩

theorem Message.encode_of_decode {m : Message} (h : decode S b = .ok m) : m.encode S = b := by
  cases b with
  | nil => cases h
  | cons code b =>
    rw [decode] at h
    split at h
    · next kind hkind =>
      obtain ⟨rfl, rfl⟩ := encode_of_decodeBody h
      rw [encode, Kind.code_of_ofCode? hkind]
    · cases h

end

namespace Message

/-- A message is read from one frame alone, and each part of a message from one text: the reader of
the part takes just what is written for the value that it gives. A block is refused when its header
names other transactions than those it comes with. -/
theorem one_frame (S : Scheme) :
    (∀ (b : Bytes) (m : Message), decode S b = .ok m → m.encode S = b) ∧
    (∀ (b c : Bytes) (m : Message), decode S b = .ok m → decode S c = .ok m → b = c) ∧
    (Signed.read (P := ProposalStatement)).Spells Signed.encode ∧
    (Signed.read (P := PrepareStatement)).Spells Signed.encode ∧
    (Signed.read (P := CommitStatement)).Spells Signed.encode ∧
    (Signed.read (P := RoundChangeStatement)).Spells Signed.encode ∧
    Claim.read.Spells Claim.encode ∧
    (∀ name : String, (Wire.signature name).Spells Signature.encode) ∧
    Header.read.Spells Header.encode ∧
    (Block.read S).Spells (Block.encode S) ∧
    ∀ (b rest : Bytes) (h : Header) (txs : List Bytes),
      Block.readParts.run b = .ok ((h, txs), rest) → h.root ≠ S.transactionsRoot txs →
        (Block.read S).run b =
          .error (.refused "transactions do not match the header's transactions root") := by
  refine ⟨fun b m => encode_of_decode, ?_, Signed.read_spells, Signed.read_spells,
    Signed.read_spells, Signed.read_spells, Claim.read_spells, Wire.signature_spells,
    Header.read_spells, Block.read_spells, fun b rest h txs => Block.read_of_root_ne⟩
  intro b c m hb hc
  rw [← encode_of_decode hb, ← encode_of_decode hc]

theorem one_frame_claiming :
    let b := claiming.encode .plain
    let h : Header := { (Block.plain 1 []).header .plain with root := .zero }
    let c := Rlp.encodeList (h.encode ++ encodeTransactions [])
    decode .plain b = .ok claiming ∧ claiming.encode .plain = b ∧
      Block.readParts.run c = .ok ((h, []), []) ∧ h.root ≠ Scheme.plain.transactionsRoot [] ∧
      (Block.read .plain).run c =
        .error (.refused "transactions do not match the header's transactions root") := by
  intro b h c
  have hb : decode .plain b = .ok claiming := decode_encode (by decide +kernel)
  have hparts : Block.readParts.run c = .ok ((h, []), []) := by decide +kernel
  have hroot : h.root ≠ Scheme.plain.transactionsRoot [] := by decide +kernel
  obtain ⟨hframe, -, -, -, -, -, -, -, -, -, hrefuse⟩ := one_frame .plain
  exact ⟨hb, hframe b claiming hb, hparts, hroot, hrefuse c [] h [] hparts hroot⟩

end Message

end BlockAgreement
