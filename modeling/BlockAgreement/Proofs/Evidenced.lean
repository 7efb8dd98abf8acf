import BlockAgreement.Proofs.CanonicalFrames
import BlockAgreement.Proofs.Justified
import BlockAgreement.Proofs.LastRound

/-! The rule behind the check of a round change, said without the check: a claim is taken with its
evidence only, the block and the prepares of a quorum for it. The check looks at the evidence where
claim and block are both there; that neither comes without the other is seen to where the round
change is put together, from its parts or from a frame. -/

namespace BlockAgreement

/-- Nothing comes with a round change that claims nothing. -/
theorem RoundChange.bare_of_no_claim {rc : RoundChange} (h : rc.claim = none) :
    rc.block = none ∧ rc.prepares = [] := by
  have hm := rc.matched
  rw [claim] at h
  rw [h] at hm
  cases hb : rc.block with
  | none => simpa [hb, mismatch?] using hm
  | some b => simp [hb, mismatch?] at hm

namespace Committee

variable (S : Scheme) (C : Committee)

/-- What may come with a round change to this number: nothing, or a claim of an earlier round with
the claimed block and the prepares of a quorum for it. -/
inductive Evidence (number : UInt32) : Option Claim → Option Block → List Prepare → Prop
  | nothing : Evidence number none none []
  | claimed {c : Claim} {b : Block} {prepares : List Prepare} (hround : c.round < number)
      (hdigest : S.digest b = c.digest) (hnumber : b.number = C.height)
      (hprepares : ∀ v ∈ prepares, v.statement = ⟨⟨C.height, c.round⟩, c.digest⟩)
      (hprepared : C.Backs S prepares) : Evidence number (some c) (some b) prepares

/-- All that makes a round change of `a` with these parts one that counts. -/
structure Evidenced (signed : Signed RoundChangeStatement) (block : Option Block)
    (prepares : List Prepare) (a : Address) : Prop where
  author : signed.author S = .ok a
  member : a ∈ C.validators
  height : signed.statement.round.height = C.height
  evidence : C.Evidence S signed.statement.round.number signed.statement.claim block prepares

variable {S C} {signed : Signed RoundChangeStatement} {block : Option Block}
  {prepares : List Prepare} {rc : RoundChange} {a : Address}

theorem evidence_iff (hheight : rc.round.height = C.height) :
    (∀ c b, rc.claim = some c → rc.block = some b → C.checkClaim S rc c b = .ok ()) ↔
      C.Evidence S rc.round.number rc.claim rc.block rc.prepares := by
  simp only [checkClaim_eq_ok_iff, checkPrepares_eq_ok_iff, quorate_iff_backs, hheight]
  cases hclaim : rc.claim with
  | none =>
    obtain ⟨hblock, hprepares⟩ := RoundChange.bare_of_no_claim hclaim
    rw [hblock, hprepares]
    exact ⟨fun _ => .nothing, fun _ _ _ => nofun⟩
  | some c =>
    obtain ⟨b, hb⟩ := RoundChange.exists_block_of_claim hclaim
    rw [hb]
    constructor
    · intro h
      obtain ⟨hround, hdigest, hnumber, hprepares, hprepared⟩ := h c b rfl rfl
      exact .claimed hround hdigest hnumber hprepares hprepared
    · rintro (_ | ⟨hround, hdigest, hnumber, hprepares, hprepared⟩) _ _ ⟨⟩ ⟨⟩
      exact ⟨hround, hdigest, hnumber, hprepares, hprepared⟩

theorem checkRoundChange_iff_evidenced :
    C.checkRoundChange S rc = .ok a ↔ C.Evidenced S rc.signed rc.block rc.prepares a := by
  rw [checkRoundChange_eq_ok_iff, author_eq_ok_iff, contains_iff_mem]
  constructor
  · rintro ⟨⟨hauthor, hmember⟩, hheight, hclaim⟩
    exact ⟨hauthor, hmember, hheight, (evidence_iff hheight).1 hclaim⟩
  · rintro ⟨hauthor, hmember, hheight, hevidence⟩
    exact ⟨⟨hauthor, hmember⟩, hheight, (evidence_iff hheight).2 hevidence⟩

/-- Evidence fits the claim that it comes with. -/
theorem Evidence.matched {number : UInt32} {claim : Option Claim}
    (h : C.Evidence S number claim block prepares) :
    RoundChange.mismatch? claim block prepares = none := by
  cases h with
  | nothing => rfl
  | claimed _ _ _ hprepares hprepared =>
    exact matched_of_checkPrepares
      (checkPrepares_eq_ok_iff.2 ⟨hprepares, quorate_iff_backs.2 hprepared⟩)

theorem Evidenced.exists_roundChange (h : C.Evidenced S signed block prepares a) :
    ∃ rc, RoundChange.new? signed block prepares = .ok rc :=
  ⟨_, RoundChange.new?_self ⟨signed, block, prepares, h.evidence.matched⟩⟩

variable (S C a)

/-- A prepared claim is never taken without its evidence. The check takes exactly the round changes
whose claims, if there are any, come with all that proves them; the parts of such a round change can
be put together, and those of another one cannot, or are refused. What is read from a frame is no
exception. -/
theorem takes_evidenced :
    (∀ rc : RoundChange,
      C.checkRoundChange S rc = .ok a ↔ C.Evidenced S rc.signed rc.block rc.prepares a) ∧
    (∀ signed block prepares, (∃ rc, RoundChange.new? signed block prepares = .ok rc ∧
      C.checkRoundChange S rc = .ok a) ↔ C.Evidenced S signed block prepares a) ∧
    ∀ frame : Bytes, (∃ rc, Message.decode S frame = .ok (.roundChange rc) ∧
      C.checkRoundChange S rc = .ok a) ↔ ∃ rc, Message.decode S frame = .ok (.roundChange rc) ∧
        C.Evidenced S rc.signed rc.block rc.prepares a := by
  refine ⟨fun _ => checkRoundChange_iff_evidenced, fun signed block prepares => ⟨?_, fun h => ?_⟩,
    fun _ => exists_congr fun _ => and_congr_right fun _ => checkRoundChange_iff_evidenced⟩
  · rintro ⟨rc, hrc, hcheck⟩
    obtain ⟨rfl, rfl, rfl⟩ := RoundChange.new?_eq_ok hrc
    exact checkRoundChange_iff_evidenced.1 hcheck
  · obtain ⟨rc, hrc⟩ := h.exists_roundChange
    refine ⟨rc, hrc, checkRoundChange_iff_evidenced.2 ?_⟩
    obtain ⟨rfl, rfl, rfl⟩ := RoundChange.new?_eq_ok hrc
    exact h

end Committee

end BlockAgreement
