import BlockAgreement.Proofs.Certificates
import BlockAgreement.Proofs.Run
import Mathlib.Data.Set.List

/-! The rule behind the check of a proposal, said without the check: whose turn it is, which block
may be proposed, and what a round above the first takes. The check goes through two lists, stops at
the first fault and looks for the highest of the claims; the rule knows of no order, and so what is
accepted does not depend on the order of the round changes or of the prepares. -/

namespace BlockAgreement

namespace Committee

variable (S : Scheme) (C : Committee)

/-- The statements are from validators, no two from one, and there are enough for a quorum. -/
structure Backs {P : Type} [Statement P] (ms : List (Signed P)) : Prop where
  members : ∀ m ∈ ms, ∃ a ∈ C.validators, m.author S = .ok a
  distinct : ms.Pairwise fun m n => m.author S ≠ n.author S
  enough : C.quorum ≤ ms.length

/-- What is proposed goes with what the round changes claim: nothing, or in the highest round that
any of them claims only this block, which a quorum prepared in that round. -/
inductive Heeds (p : Proposal) : Prop
  | free (hclaims : ∀ m ∈ p.roundChanges, m.statement.claim = none) (hprepares : p.prepares = [])
  | bound {number : UInt32}
      (hclaimed : ∃ m ∈ p.roundChanges, ∃ c, m.statement.claim = some c ∧ c.round = number)
      (hhighest : ∀ m ∈ p.roundChanges, ∀ c, m.statement.claim = some c →
        c.round ≤ number ∧ (c.round = number → c.digest = p.digest))
      (hprepares : ∀ v ∈ p.prepares, v.statement = ⟨⟨C.height, number⟩, p.digest⟩)
      (hprepared : C.Backs S p.prepares)

/-- All that makes a proposal of `a` one that members answer. -/
structure Justified (p : Proposal) (a : Address) : Prop where
  author : p.author S = .ok a
  member : a ∈ C.validators
  turn : C.proposer p.round = .ok a
  height : p.round.height = C.height
  number : p.block.number = C.height
  digest : S.digest p.block = p.digest
  first : p.round.number = 0 → p.prepares = []
  later : p.round.number ≠ 0 →
    (∀ m ∈ p.roundChanges, m.statement.round = ⟨C.height, p.round.number⟩ ∧
      ∀ c, m.statement.claim = some c → c.round < p.round.number) ∧
    C.Backs S p.roundChanges ∧ C.Heeds S p

variable {S C} {p q : Proposal} {a : Address}

/-! ### The check follows the rule -/

section

variable {P : Type} [Statement P] {m n : Signed P} {ms ns : List (Signed P)}

theorem author_congr (h : m.author S = n.author S) : C.author S m = C.author S n := by
  rw [Committee.author, Committee.author, h]

theorem quorate_iff_backs : C.Quorate S ms ↔ C.Backs S ms := by
  constructor
  · rintro ⟨authors, hauthors, hnodup, henough⟩
    have hok : ∀ m ∈ ms, ∃ a, C.author S m = .ok a := by
      intro m hm
      obtain ⟨a, -, ha⟩ := List.mem_map.1 (hauthors ▸ List.mem_map_of_mem hm)
      exact ⟨a, ha.symm⟩
    refine ⟨fun m hm => ?_, ?_, ?_⟩
    · obtain ⟨a, ha⟩ := hok m hm
      obtain ⟨hauthor, hmember⟩ := author_eq_ok_iff.1 ha
      exact ⟨a, contains_iff_mem.1 hmember, hauthor⟩
    · have hdistinct : (ms.map (C.author S)).Nodup := by
        rw [hauthors]
        exact hnodup.map fun _ _ h => Except.ok.inj h
      exact (List.pairwise_map.1 hdistinct).imp fun hne h => hne (author_congr h)
    · rwa [← List.length_map (f := C.author S), hauthors, List.length_map]
  · rintro ⟨hmembers, hdistinct, henough⟩
    have hok : ∀ m ∈ ms, ∃ a, m.author S = .ok a ∧ C.author S m = .ok a := by
      intro m hm
      obtain ⟨a, ha, hauthor⟩ := hmembers m hm
      exact ⟨a, hauthor, author_eq_ok_iff.2 ⟨hauthor, contains_iff_mem.2 ha⟩⟩
    obtain ⟨authors, hauthors⟩ : ms.map (C.author S) ∈ Set.range (List.map Except.ok) := by
      rw [Set.range_list_map]
      intro x hx
      obtain ⟨m, hm, rfl⟩ := List.mem_map.1 hx
      obtain ⟨a, -, ha⟩ := hok m hm
      exact ⟨a, ha.symm⟩
    refine ⟨authors, hauthors.symm, ?_, ?_⟩
    · have hnodup : (ms.map (C.author S)).Nodup := by
        refine List.pairwise_map.2 (hdistinct.imp_of_mem fun {m n} hm hn hne h => hne ?_)
        obtain ⟨a, ha, ha'⟩ := hok m hm
        obtain ⟨b, hb, hb'⟩ := hok n hn
        rw [ha', hb'] at h
        rw [ha, hb, h]
      exact .of_map _ (hauthors ▸ hnodup)
    · rwa [← List.length_map (f := Except.ok (ε := Error)), hauthors, List.length_map]

theorem Backs.perm (h : C.Backs S ms) (hns : ns.Perm ms) : C.Backs S ns where
  members m hm := h.members m (hns.mem_iff.1 hm)
  distinct := (hns.pairwise_iff fun hne => hne.symm).2 h.distinct
  enough := hns.length_eq ▸ h.enough

end

/-- The claims of round changes, one by one. -/
theorem mem_claims {rcs : List (Signed RoundChangeStatement)} {c : Claim} :
    c ∈ rcs.filterMap (·.statement.claim) ↔ ∃ m ∈ rcs, m.statement.claim = some c :=
  List.mem_filterMap

theorem checkClaims_iff_heeds (hheight : p.round.height = C.height) :
    C.checkClaims S p = .ok () ↔ C.Heeds S p := by
  rw [checkClaims_eq_ok_iff, hheight]
  constructor
  · rintro (⟨hclaims, hprepares⟩ | ⟨c, ⟨hc, hhighest⟩, hdigest, hproof⟩)
    · exact .free (List.filterMap_eq_nil_iff.1 hclaims) hprepares
    · obtain ⟨m, hm, hmc⟩ := mem_claims.1 hc
      rw [checkPrepares_eq_ok_iff, ← hdigest] at hproof
      refine .bound ⟨m, hm, c, hmc, rfl⟩ (fun n hn d hd => ?_) hproof.1
        (quorate_iff_backs.1 hproof.2)
      obtain ⟨hle, hsame⟩ := hhighest d (mem_claims.2 ⟨n, hn, hd⟩)
      exact ⟨hle, fun hround => by rw [hsame hround, hdigest]⟩
  · rintro (⟨hclaims, hprepares⟩ | ⟨⟨m, hm, c, hmc, rfl⟩, hhighest, hprepares, hprepared⟩)
    · exact .inl ⟨List.filterMap_eq_nil_iff.2 hclaims, hprepares⟩
    · have hdigest := (hhighest m hm c hmc).2 rfl
      refine .inr ⟨c, ⟨mem_claims.2 ⟨m, hm, hmc⟩, fun d hd => ?_⟩, hdigest.symm, ?_⟩
      · obtain ⟨n, hn, hnd⟩ := mem_claims.1 hd
        obtain ⟨hle, hsame⟩ := hhighest n hn d hnd
        -- A claim is its round and its block.
        refine ⟨hle, fun hround => ?_⟩
        rw [← hdigest] at hsame
        obtain ⟨_, _⟩ := c
        obtain ⟨_, _⟩ := d
        exact Claim.mk.injEq .. ▸ ⟨hsame hround, hround⟩
      · rw [checkPrepares_eq_ok_iff, hdigest]
        exact ⟨hprepares, quorate_iff_backs.2 hprepared⟩

theorem checkJustification_of_first (h0 : p.round.number = 0) :
    C.checkJustification S p = .ok () ↔ p.prepares = [] := by
  rw [checkJustification, if_pos h0]
  cases p.prepares with
  | nil => exact ⟨fun _ => rfl, fun _ => rfl⟩
  | cons =>
    refine ⟨fun h => ?_, fun h => ?_⟩
    · cases h
    · cases h

theorem checkProposal_iff_justified : C.checkProposal S p = .ok a ↔ C.Justified S p a := by
  rw [checkProposal_eq_ok_iff, author_eq_ok_iff, contains_iff_mem]
  have hround : p.round.height = C.height → p.round = ⟨C.height, p.round.number⟩ :=
    fun hheight => by rw [← hheight]
  constructor
  · rintro ⟨⟨hauthor, hmember⟩, hheight, hturn, hdigest, hnumber, hjustified⟩
    refine ⟨hauthor, hmember, hturn, hheight, hnumber.trans hheight, hdigest,
      fun h0 => (checkJustification_of_first h0).1 hjustified, fun h0 => ?_⟩
    rw [checkJustification_eq_ok_iff h0, quorate_iff_backs, checkClaims_iff_heeds hheight]
      at hjustified
    obtain ⟨⟨htargets, hbacked⟩, hheeds⟩ := hjustified
    exact ⟨fun m hm => (htargets m hm).imp_left (·.trans (hround hheight)), hbacked, hheeds⟩
  · rintro ⟨hauthor, hmember, hturn, hheight, hnumber, hdigest, hfirst, hlater⟩
    refine ⟨⟨hauthor, hmember⟩, hheight, hturn, hdigest, hnumber.trans hheight.symm, ?_⟩
    by_cases h0 : p.round.number = 0
    · exact (checkJustification_of_first h0).2 (hfirst h0)
    · rw [checkJustification_eq_ok_iff h0, quorate_iff_backs, checkClaims_iff_heeds hheight]
      obtain ⟨htargets, hbacked, hheeds⟩ := hlater h0
      exact ⟨⟨fun m hm => (htargets m hm).imp_left (·.trans (hround hheight).symm), hbacked⟩,
        hheeds⟩

end Committee

/-! ### The rule knows of no order -/

/-- The same proposal, with its round changes and its prepares in some other order. -/
structure Proposal.Reorders (q p : Proposal) : Prop where
  signed : q.signed = p.signed
  block : q.block = p.block
  roundChanges : q.roundChanges.Perm p.roundChanges
  prepares : q.prepares.Perm p.prepares

theorem Proposal.Reorders.symm {p q : Proposal} (h : q.Reorders p) : p.Reorders q :=
  ⟨h.signed.symm, h.block.symm, h.roundChanges.symm, h.prepares.symm⟩

namespace Committee

variable {S : Scheme} {C : Committee} {p q : Proposal} {a : Address}

theorem Heeds.reorder (h : C.Heeds S p) (hq : q.Reorders p) : C.Heeds S q := by
  have hdigest : q.digest = p.digest := congrArg (·.statement.digest) hq.signed
  cases h with
  | free hclaims hprepares =>
    refine .free (fun m hm => hclaims m (hq.roundChanges.mem_iff.1 hm)) ?_
    exact (hprepares ▸ hq.prepares).eq_nil
  | bound hclaimed hhighest hprepares hprepared =>
    obtain ⟨m, hm, hmc⟩ := hclaimed
    refine .bound ⟨m, hq.roundChanges.mem_iff.2 hm, hmc⟩ ?_ ?_ (hprepared.perm hq.prepares)
    · rw [hdigest]
      exact fun n hn => hhighest n (hq.roundChanges.mem_iff.1 hn)
    · rw [hdigest]
      exact fun v hv => hprepares v (hq.prepares.mem_iff.1 hv)

theorem Justified.reorder (h : C.Justified S p a) (hq : q.Reorders p) : C.Justified S q a := by
  have hround : q.round = p.round := congrArg (·.statement.round) hq.signed
  have hdigest : q.digest = p.digest := congrArg (·.statement.digest) hq.signed
  refine ⟨?_, h.member, ?_, ?_, ?_, ?_, fun h0 => ?_, fun h0 => ?_⟩
  · rw [Proposal.author, hq.signed]
    exact h.author
  · rw [hround]
    exact h.turn
  · rw [hround]
    exact h.height
  · rw [hq.block]
    exact h.number
  · rw [hq.block, hdigest]
    exact h.digest
  · rw [hround] at h0
    exact (h.first h0 ▸ hq.prepares).eq_nil
  · rw [hround] at h0 ⊢
    obtain ⟨htargets, hbacked, hheeds⟩ := h.later h0
    exact ⟨fun m hm => htargets m (hq.roundChanges.mem_iff.1 hm), hbacked.perm hq.roundChanges,
      hheeds.reorder hq⟩

variable (S C p a)

/-- The check takes exactly the justified proposals, and in whatever order their round changes and
prepares are listed. -/
theorem takes_justified : (C.checkProposal S p = .ok a ↔ C.Justified S p a) ∧
    ∀ q : Proposal, q.Reorders p →
      (C.checkProposal S q = .ok a ↔ C.checkProposal S p = .ok a) := by
  refine ⟨checkProposal_iff_justified, fun q hq => ?_⟩
  rw [checkProposal_iff_justified, checkProposal_iff_justified]
  exact ⟨fun h => h.reorder hq.symm, fun h => h.reorder hq⟩

end Committee

/-- The third of four validators proposes again, in round 1, the block that all others claim to be
prepared in round 0. -/
def Proposal.again : Proposal where
  signed := .plain 3 ⟨⟨1, 1⟩, Scheme.plain.digest (.plain 1 [])⟩
  block := .plain 1 []
  roundChanges := [1, 2, 4].map fun k =>
    .plain k ⟨⟨1, 1⟩, some ⟨Scheme.plain.digest (.plain 1 []), 0⟩⟩
  prepares := [1, 2, 3].map fun k => .plain k ⟨⟨1, 0⟩, Scheme.plain.digest (.plain 1 [])⟩
  roundChanges_eq_nil_iff := by decide +kernel

/-- The same with both lists turned around. -/
def Proposal.turned : Proposal where
  __ := Proposal.again
  roundChanges := Proposal.again.roundChanges.reverse
  prepares := Proposal.again.prepares.reverse
  roundChanges_eq_nil_iff := by decide +kernel

theorem Proposal.turned_reorders : turned.Reorders again :=
  ⟨rfl, rfl, List.reverse_perm _, List.reverse_perm _⟩

theorem Committee.takes_justified_turned : Proposal.turned.Reorders Proposal.again ∧
    (Committee.plain 3).Justified .plain Proposal.again (.ofNat 3) ∧
      (Committee.plain 3).checkProposal .plain Proposal.turned = .ok (.ofNat 3) := by
  have hcheck : (Committee.plain 3).checkProposal .plain Proposal.again = .ok (.ofNat 3) := by
    decide +kernel
  obtain ⟨hexact, horder⟩ :=
    Committee.takes_justified .plain (Committee.plain 3) Proposal.again (.ofNat 3)
  exact ⟨Proposal.turned_reorders, hexact.1 hcheck,
    (horder _ Proposal.turned_reorders).2 hcheck⟩

end BlockAgreement
