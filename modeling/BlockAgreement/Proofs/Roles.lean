import BlockAgreement.Proofs.Frames
import Mathlib.Data.Set.Function

/-! A signature serves in one role only. What is hashed before it is signed tells the kind of the
statement and each of its fields, and no block is hashed from such bytes: they start with a number
of one byte, where a header starts with the hash of its parent and a block with a list. So where
hashes do not collide, a signature over a statement is one over no other statement and a seal of no
block. -/

namespace BlockAgreement

theorem Rlp.encodeList_inj {p q : Bytes} (h : encodeList p = encodeList q)
    (hlen : (encodeList p).length < 2 ^ 64) : p = q := by
  have hp := length_lt_of_encodeList hlen
  have hq := length_lt_of_encodeList (h ▸ hlen)
  exact (list_takes hp).inj (list_takes hq) h

namespace Statement

variable {P Q : Type} [Statement P] [Statement Q]

/-- The bytes of the kind's code, which come first in what is hashed. -/
theorem length_code_le (k : Kind) : (Bytes.minimal k.code.toNat).length ≤ 1 :=
  Bytes.length_minimal_le k.code.toNat_lt

variable [ReadsBack P]

theorem length_preimage_lt (p : P) : (preimage p).length < 2 ^ 64 := by
  have hcode : (Rlp.encodeNat (kind P).code.toNat).length ≤ 17 :=
    Rlp.length_encodeNat_le ((kind P).code.toNat_lt.trans (by decide))
  have hp := ReadsBack.length_encode_le p
  have hfields : (Rlp.encodeNat (kind P).code.toNat ++ encode p).length ≤ 175 := by
    rw [List.length_append]
    omega
  have := Rlp.length_encodeList_le (hfields.trans_lt (by decide))
  rw [preimage]
  omega

/-- What is hashed tells the kind and the text. -/
theorem preimage_eq {p : P} {q : Q} (h : preimage p = preimage q) :
    kind P = kind Q ∧ encode p = encode q := by
  have hfields := Rlp.encodeList_inj h (length_preimage_lt p)
  obtain ⟨hcode, htext⟩ := (Rlp.nat_takes 1 (kind P).code.toNat_lt (by decide)).unique
    (Rlp.nat_takes 1 (kind Q).code.toNat_lt (by decide)) hfields
  refine ⟨?_, htext⟩
  have hk := congrArg Kind.ofCode? (UInt8.toNat_inj.1 hcode)
  simpa [Kind.ofCode?_code] using hk

theorem preimage_inj {p q : P} (h : preimage p = preimage q) : p = q :=
  (ReadsBack.takes p).inj (ReadsBack.takes q) (preimage_eq h).2

/-- A list that starts with more than a number of one byte is not hashed for a statement. -/
theorem encodeList_ne_preimage {kind : Rlp.Kind} {b q rest : Bytes}
    (hitem : (b ++ rest).length < 2 ^ 64 → Rlp.item.Takes b (kind, q))
    (hlong : kind = .string → 1 < q.length) (p : P) :
    Rlp.encodeList (b ++ rest) ≠ preimage p := by
  intro h
  have hlen : (Rlp.encodeList (b ++ rest)).length < 2 ^ 64 := h ▸ length_preimage_lt p
  have hcode := length_code_le (Statement.kind P)
  obtain ⟨hfirst, -⟩ := (hitem (Rlp.length_lt_of_encodeList hlen)).unique
    (Rlp.item_encodeBytes (hcode.trans_lt (by decide))) (Rlp.encodeList_inj h hlen)
  cases hfirst
  exact absurd (hlong rfl) (Nat.not_lt.2 hcode)

end Statement

theorem Header.encode_ne_preimage {P : Type} [Statement P] [Statement.ReadsBack P] (h : Header)
    (p : P) : h.encode ≠ Statement.preimage p := by
  have hparent : h.parent.toList.length = 32 := h.parent.length_toList
  simp only [encode, List.append_assoc]
  apply Statement.encodeList_ne_preimage
  · intro _
    exact Rlp.item_encodeBytes (by omega)
  · intro _
    omega

theorem Block.encode_ne_preimage {P : Type} [Statement P] [Statement.ReadsBack P] (S : Scheme)
    (b : Block) (p : P) : b.encode S ≠ Statement.preimage p := by
  apply Statement.encodeList_ne_preimage
  · intro hlen
    apply Rlp.item_encodeList
    apply Rlp.length_lt_of_encodeList
    rw [List.length_append] at hlen
    exact (Nat.le_add_right ..).trans_lt hlen
  · nofun

/-! ### All that is signed -/

/-- A statement of one of the four kinds. -/
inductive AnyStatement
  | proposal (p : ProposalStatement)
  | prepare (p : PrepareStatement)
  | commit (p : CommitStatement)
  | roundChange (p : RoundChangeStatement)
deriving DecidableEq

namespace AnyStatement

def preimage : AnyStatement → Bytes
  | .proposal p => Statement.preimage p
  | .prepare p => Statement.preimage p
  | .commit p => Statement.preimage p
  | .roundChange p => Statement.preimage p

/-- The hash that is signed. -/
def hash (S : Scheme) : AnyStatement → Digest
  | .proposal p => Statement.hash S p
  | .prepare p => Statement.hash S p
  | .commit p => Statement.hash S p
  | .roundChange p => Statement.hash S p

theorem hash_eq (S : Scheme) (p : AnyStatement) : p.hash S = S.hash p.preimage := by
  cases p <;> rfl

theorem preimage_injective : Function.Injective preimage := by
  intro p q h
  cases p <;> cases q <;> first
    | exact congrArg _ (Statement.preimage_inj h)
    | exact absurd (Statement.preimage_eq h).1 (by decide)

theorem header_ne_preimage (p : AnyStatement) (h : Header) : h.encode ≠ p.preimage := by
  cases p <;> exact h.encode_ne_preimage _

theorem block_ne_preimage (p : AnyStatement) (S : Scheme) (b : Block) :
    b.encode S ≠ p.preimage := by
  cases p <;> exact b.encode_ne_preimage S _

end AnyStatement

/-- What the digest of a block is the hash of. -/
def Scheme.digestText (S : Scheme) (b : Block) : Bytes :=
  match S.scope with
  | .header => (b.header S).encode
  | .block => b.encode S

theorem Scheme.digest_eq (S : Scheme) (b : Block) : S.digest b = S.hash (S.digestText b) := by
  rw [digest, digestText]
  cases S.scope <;> rfl

theorem Scheme.digestText_ne_preimage (S : Scheme) (b : Block) (p : AnyStatement) :
    S.digestText b ≠ p.preimage := by
  rw [digestText]
  cases S.scope with
  | header => exact p.header_ne_preimage (b.header S)
  | block => exact p.block_ne_preimage S b

namespace AnyStatement

/-- What is hashed for statements differs wherever the statements differ, in kind or in any field,
and is the text of no header and no block. Hence, where the hash does not collide on what is ever
hashed, a signature over one statement is over no other statement, and a seal of a block is over no
statement. -/
theorem roles_apart (S : Scheme) :
    Function.Injective preimage ∧
    (∀ (h : Header) (p : AnyStatement), h.encode ≠ p.preimage) ∧
    (∀ (b : Block) (p : AnyStatement), b.encode S ≠ p.preimage) ∧
    ∀ hashed : Set Bytes, Set.InjOn S.hash hashed →
      (∀ p q : AnyStatement, p.preimage ∈ hashed → q.preimage ∈ hashed →
        p.hash S = q.hash S → p = q) ∧
      ∀ (b : Block) (p : AnyStatement), S.digestText b ∈ hashed → p.preimage ∈ hashed →
        S.digest b ≠ p.hash S := by
  refine ⟨preimage_injective, fun h p => p.header_ne_preimage h,
    fun b p => p.block_ne_preimage S b, fun hashed hinj => ⟨?_, ?_⟩⟩
  · intro p q hp hq h
    rw [hash_eq, hash_eq] at h
    exact preimage_injective (hinj hp hq h)
  · intro b p hb hp h
    rw [Scheme.digest_eq, hash_eq] at h
    exact S.digestText_ne_preimage b p (hinj hb hp h)

/-- A proposal and a prepare of the same round and block, and the block itself. -/
theorem roles_apart_plain :
    let S := Scheme.plain
    let block := Block.plain 1 []
    let p : AnyStatement := .proposal ⟨⟨1, 0⟩, S.digest block⟩
    let q : AnyStatement := .prepare ⟨⟨1, 0⟩, S.digest block⟩
    let hashed : Set Bytes := {t | t ∈ [p.preimage, q.preimage, S.digestText block]}
    Set.InjOn S.hash hashed ∧ p.preimage ∈ hashed ∧ q.preimage ∈ hashed ∧
      S.digestText block ∈ hashed ∧ p.hash S ≠ q.hash S ∧ S.digest block ≠ q.hash S := by
  intro S block p q hashed
  have hnodup : ([p.preimage, q.preimage, S.digestText block].map S.hash).Nodup := by
    decide +kernel
  have hinj : Set.InjOn S.hash hashed := List.inj_on_of_nodup_map hnodup
  have hp : p.preimage ∈ hashed := by simp [hashed]
  have hq : q.preimage ∈ hashed := by simp [hashed]
  have hb : S.digestText block ∈ hashed := by simp [hashed]
  obtain ⟨-, -, -, hroles⟩ := roles_apart S
  obtain ⟨hstatements, hseals⟩ := hroles hashed hinj
  exact ⟨hinj, hp, hq, hb, fun h => AnyStatement.noConfusion (hstatements p q hp hq h),
    hseals block q hb hq⟩

end AnyStatement

end BlockAgreement
