import BlockAgreement.Proofs.CanonicalFrames
import BlockAgreement.Proofs.Evidenced
import BlockAgreement.Proofs.Roles

/-! A digest binds the whole block. It is the hash of a header, or of a block with its header, and
the header names the transactions by their hash; so where hashes do not collide, blocks with one
digest have all fields and all transactions in common. The block of a message is not signed, but its
digest is: whoever passes a message on with another block is found out by those who check it. -/

namespace BlockAgreement

/-- Texts of which no two have one hash. The length of what can be hashed is a word of 64 bits. -/
structure Scheme.Separates (S : Scheme) (hashed : Set Bytes) : Prop where
  short : ∀ t ∈ hashed, t.length < 2 ^ 64
  injOn : Set.InjOn S.hash hashed

/-- What is hashed for a block: the list of its transactions, and what its digest covers. -/
structure Block.HashedIn (S : Scheme) (hashed : Set Bytes) (b : Block) : Prop where
  transactions : encodeTransactions b.transactions ∈ hashed
  covered : S.digestText b ∈ hashed

/-! ### Blocks with one digest -/

theorem Header.encode_inj {h k : Header} (hlen : h.encode.length < 2 ^ 64)
    (heq : h.encode = k.encode) : h = k :=
  (Header.read_takes hlen).inj (Header.read_takes (heq ▸ hlen)) heq

theorem encodeTransactions_inj {txs txs' : List Bytes}
    (hlen : (encodeTransactions txs).length < 2 ^ 64)
    (heq : encodeTransactions txs = encodeTransactions txs') : txs = txs' :=
  (transactions_take hlen).inj (transactions_take (heq ▸ hlen)) heq

namespace Block

variable {S : Scheme} {hashed : Set Bytes} {b c : Block}

theorem encode_inj (hlen : (b.encode S).length < 2 ^ 64) (heq : b.encode S = c.encode S) :
    b = c :=
  (read_takes hlen).inj (read_takes (by rwa [heq] at hlen)) heq

theorem eq_of_header (hheader : b.header S = c.header S) (htxs : b.transactions = c.transactions) :
    b = c := by
  have h := ofHeader?_header (S := S) b
  rw [hheader, htxs, ofHeader?_header] at h
  exact (Option.some.inj h).symm

/-- A text with a header and transactions is read as the block that has both, if there is one. -/
theorem read_eq_ok_iff {text rest rest' : Bytes} {h : Header} {txs : List Bytes}
    (hparts : readParts.run text = .ok ((h, txs), rest)) :
    (read S).run text = .ok (b, rest') ↔
      rest' = rest ∧ b.header S = h ∧ b.transactions = txs := by
  rw [read, ← readParts, Reader.run_bind_of_ok hparts]
  dsimp only
  constructor
  · intro hread
    cases hb : ofHeader? S h txs with
    | none =>
      rw [hb] at hread
      cases hread
    | some d =>
      rw [hb] at hread
      cases hread
      exact ⟨rfl, ofHeader?_eq_some hb⟩
  · rintro ⟨rfl, rfl, rfl⟩
    rw [ofHeader?_header]
    rfl

/-- Whatever the scope is, the header can be read from what the digest covers; the transactions are
in the same text, or their hash is in the header. -/
theorem eq_of_digest (hS : S.Separates hashed) (hb : b.HashedIn S hashed)
    (hc : c.HashedIn S hashed) (h : S.digest b = S.digest c) : b = c := by
  rw [Scheme.digest_eq, Scheme.digest_eq] at h
  have htext := hS.injOn hb.covered hc.covered h
  have hlen := hS.short _ hb.covered
  unfold Scheme.digestText at htext hlen
  cases hscope : S.scope with
  | block =>
    rw [hscope] at htext hlen
    exact encode_inj hlen htext
  | header =>
    rw [hscope] at htext hlen
    have hheader : b.header S = c.header S := Header.encode_inj hlen htext
    have hroot : S.transactionsRoot b.transactions = S.transactionsRoot c.transactions :=
      congrArg Header.root hheader
    have htxs := hS.injOn hb.transactions hc.transactions hroot
    exact eq_of_header hheader (encodeTransactions_inj (hS.short _ hb.transactions) htxs)

end Block

/-! ### Messages passed on with another block -/

namespace Committee

variable {S : Scheme} {C : Committee} {a : Address}

theorem checkProposal_of_digest_ne {p : Proposal} (h : S.digest p.block ≠ p.digest) :
    ∃ e, C.checkProposal S p = .error e := by
  cases hp : C.checkProposal S p with
  | error e => exact ⟨e, rfl⟩
  | ok a => exact absurd (checkProposal_eq_ok hp).2.1 h

/-- Where only the block is another one than that of a justified proposal, the digest tells. -/
theorem checkProposal_exchanged {p q : Proposal} (hq : q.signed = p.signed)
    (hp : C.checkProposal S p = .ok a) (h : S.digest q.block ≠ q.digest) :
    C.checkProposal S q = .error (.invalid (.proposalDigest (S.digest q.block) q.digest)) := by
  obtain ⟨hauthor, hheight, hturn, -⟩ := checkProposal_eq_ok_iff.1 hp
  have hround : q.round = p.round := congrArg (·.statement.round) hq
  rw [← hq] at hauthor
  rw [← hround] at hheight hturn
  simp only [checkProposal, hauthor, hheight, hturn, bind, Except.bind, ne_eq, not_true_eq_false,
    if_false, h, not_false_eq_true, if_true]
  rfl

theorem checkRoundChange_of_digest_ne {rc : RoundChange} {c : Claim} {b : Block}
    (hc : rc.claim = some c) (hb : rc.block = some b) (h : S.digest b ≠ c.digest) :
    ∃ e, C.checkRoundChange S rc = .error e := by
  cases hrc : C.checkRoundChange S rc with
  | error e => exact ⟨e, rfl⟩
  | ok a =>
    obtain ⟨-, -, hclaim⟩ := checkRoundChange_eq_ok_iff.1 hrc
    exact absurd (checkClaim_eq_ok_iff.1 (hclaim c b hc hb)).2.1 h

/-- Where only the block is another one than that of a round change that counts, the digest
tells. -/
theorem checkRoundChange_exchanged {rc other : RoundChange} {c : Claim} {b : Block}
    (hother : other.signed = rc.signed) (hrc : C.checkRoundChange S rc = .ok a)
    (hc : rc.claim = some c) (hb : other.block = some b) (h : S.digest b ≠ c.digest) :
    C.checkRoundChange S other = .error (.invalid (.claimedBlock (S.digest b) c.digest)) := by
  obtain ⟨hauthor, hheight, -⟩ := checkRoundChange_eq_ok_iff.1 hrc
  obtain ⟨-, -, hlt, -⟩ := exists_evidence hrc hc
  have hround : other.round = rc.round := congrArg (·.statement.round) hother
  have hclaim : other.claim = some c := (congrArg (·.statement.claim) hother).trans hc
  rw [← hother] at hauthor
  rw [← hround] at hheight hlt
  simp only [checkRoundChange, checkClaim, hauthor, hheight, hclaim, hb, bind, Except.bind, ne_eq,
    not_true_eq_false, if_false, h, not_false_eq_true, if_true, UInt32.not_le.2 hlt]
  rfl

end Committee

/-! ### All that a digest binds -/

/-- Where hashes do not collide, blocks with the same digest are the same, whether the digest covers
the header or the whole block. A block that is made of a header and some transactions has that
header, but for the hash of these transactions, and what is read from a text has just the header and
the transactions that are written there. A proposal or a round change whose signed digest is that of
one block is refused with any other, and if it would have been taken with the block itself, it is
refused for this digest. -/
theorem Scheme.digest_binds (S : Scheme) {hashed : Set Bytes} (hS : S.Separates hashed) :
    (∀ b c : Block, b.HashedIn S hashed → c.HashedIn S hashed → S.digest b = S.digest c → b = c) ∧
    (∀ (h : Header) (txs : List Bytes),
      (Block.new h txs).header S = { h with root := S.transactionsRoot txs } ∧
        (Block.new h txs).transactions = txs) ∧
    (∀ (text rest : Bytes) (h : Header) (txs : List Bytes),
      Block.readParts.run text = .ok ((h, txs), rest) → ∀ (b : Block) (rest' : Bytes),
        ((Block.read S).run text = .ok (b, rest') ↔
          rest' = rest ∧ b.header S = h ∧ b.transactions = txs)) ∧
    (∀ (C : Committee) (p q : Proposal), q.signed = p.signed → S.digest p.block = p.digest →
      p.block.HashedIn S hashed → q.block.HashedIn S hashed → q.block ≠ p.block →
        ∃ e, C.checkProposal S q = .error e ∧ ∀ a, C.checkProposal S p = .ok a →
          e = .invalid (.proposalDigest (S.digest q.block) p.digest)) ∧
    ∀ (C : Committee) (p q : RoundChange), q.signed = p.signed →
      (∀ c b, p.claim = some c → p.block = some b → S.digest b = c.digest) →
      (∀ b, p.block = some b ∨ q.block = some b → b.HashedIn S hashed) → q.block ≠ p.block →
        ∃ c b e, p.claim = some c ∧ q.block = some b ∧ C.checkRoundChange S q = .error e ∧
          ∀ a, C.checkRoundChange S p = .ok a → e = .invalid (.claimedBlock (S.digest b) c.digest)
    := by
  refine ⟨fun b c hb hc => Block.eq_of_digest hS hb hc,
    fun h txs => ⟨Block.header_new S h txs, rfl⟩,
    fun text rest h txs hparts b rest' => Block.read_eq_ok_iff hparts, ?_, ?_⟩
  · intro C p q hq hdigest hp hq' hne
    have hsigned : q.digest = p.digest := congrArg (·.statement.digest) hq
    have hother : S.digest q.block ≠ q.digest := fun h =>
      hne (Block.eq_of_digest hS hq' hp (by rw [h, hsigned, hdigest]))
    obtain ⟨e, he⟩ := Committee.checkProposal_of_digest_ne (C := C) hother
    refine ⟨e, he, fun a ha => ?_⟩
    rw [Committee.checkProposal_exchanged hq ha hother, hsigned] at he
    exact (Except.error.inj he).symm
  · intro C p q hq hdigest hhashed hne
    have hclaims : q.claim = p.claim := congrArg (·.statement.claim) hq
    cases hc : p.claim with
    | none =>
      rw [(RoundChange.bare_of_no_claim hc).1,
        (RoundChange.bare_of_no_claim (hclaims.trans hc)).1] at hne
      exact absurd rfl hne
    | some c =>
      obtain ⟨b, hb⟩ := RoundChange.exists_block_of_claim hc
      obtain ⟨d, hd⟩ := RoundChange.exists_block_of_claim (hclaims.trans hc)
      have hother : S.digest d ≠ c.digest := fun h => hne (by
        rw [hb, hd, Block.eq_of_digest hS (hhashed d (.inr hd)) (hhashed b (.inl hb))
          (h.trans (hdigest c b hc hb).symm)])
      obtain ⟨e, he⟩ :=
        Committee.checkRoundChange_of_digest_ne (C := C) (hclaims.trans hc) hd hother
      refine ⟨c, d, e, rfl, hd, he, fun a ha => ?_⟩
      rw [Committee.checkRoundChange_exchanged hq ha hc hd hother] at he
      exact (Except.error.inj he).symm

/-- A block like the plain one, with a transaction slipped in. -/
def Block.loaded : Block := { Block.plain 1 [] with transactions := [[7]] }

/-- The proposal of round 1 that is justified by claims, with another block. -/
def Proposal.swapped : Proposal := { Proposal.again with block := Block.loaded }

/-- The second of four validators moves to round 1 with what a quorum prepared in round 0. -/
def RoundChange.locked : RoundChange where
  signed := .plain 2 ⟨⟨1, 1⟩, some ⟨Scheme.plain.digest (.plain 1 []), 0⟩⟩
  block := some (.plain 1 [])
  prepares := Proposal.again.prepares
  matched := by
    simp [RoundChange.mismatch?, RoundChange.strayPrepare?, Proposal.again, Signed.plain]

def RoundChange.swapped : RoundChange where
  __ := RoundChange.locked
  block := some Block.loaded
  matched := RoundChange.locked.matched

theorem Scheme.digest_binds_swapped :
    let S := Scheme.plain
    let C := Committee.plain 3
    let hashed : Set Bytes := {t | t ∈ [encodeTransactions [], S.digestText (.plain 1 []),
      encodeTransactions [[7]], S.digestText .loaded]}
    S.Separates hashed ∧ (Block.plain 1 []).HashedIn S hashed ∧ Block.loaded.HashedIn S hashed ∧
      S.digest (.plain 1 []) ≠ S.digest .loaded ∧
      C.checkProposal S .again = .ok (.ofNat 3) ∧
      C.checkProposal S .swapped =
        .error (.invalid (.proposalDigest (S.digest .loaded) Proposal.again.digest)) ∧
      C.checkRoundChange S .locked = .ok (.ofNat 2) ∧
      ∃ e, C.checkRoundChange S .swapped = .error e := by
  intro S C hashed
  have hS : S.Separates hashed := by
    refine ⟨?_, List.inj_on_of_nodup_map (by decide +kernel)⟩
    show ∀ t ∈ [encodeTransactions [], S.digestText (.plain 1 []), encodeTransactions [[7]],
      S.digestText .loaded], t.length < 2 ^ 64
    decide +kernel
  have hplain : (Block.plain 1 []).HashedIn S hashed :=
    ⟨by simp [hashed, Block.plain], by simp [hashed]⟩
  have hloaded : Block.loaded.HashedIn S hashed :=
    ⟨by simp [hashed, Block.loaded], by simp [hashed]⟩
  have hne : Block.loaded ≠ Block.plain 1 [] := by decide
  have hagain : C.checkProposal S .again = .ok (.ofNat 3) := by decide +kernel
  have hlocked : C.checkRoundChange S .locked = .ok (.ofNat 2) := by decide +kernel
  obtain ⟨hblocks, -, -, hproposals, hrcs⟩ := Scheme.digest_binds S hS
  obtain ⟨e, he, hcause⟩ := hproposals C .again .swapped rfl rfl hplain hloaded hne
  obtain ⟨c, b, e', -, -, he', -⟩ := hrcs C .locked .swapped rfl
    (by rintro _ _ ⟨⟩ ⟨⟩; rfl) (by rintro _ (⟨⟨⟩⟩ | ⟨⟨⟩⟩); exacts [hplain, hloaded])
    (fun h => hne (Option.some.inj h))
  exact ⟨hS, hplain, hloaded, fun h => hne (hblocks _ _ hplain hloaded h).symm, hagain,
    by rw [he, hcause _ hagain]; rfl, hlocked, e', he'⟩

end BlockAgreement
