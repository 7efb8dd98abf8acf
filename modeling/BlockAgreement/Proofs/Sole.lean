import BlockAgreement.Proofs.Climbing
import BlockAgreement.Proofs.Working

/-! The only validator. Its own votes are a quorum, so a height is decided as soon as it is started
and there is a block for it; and as every height decides itself, a node that is started once goes
through all heights there are and never comes back before. -/

namespace BlockAgreement

variable {E : Setup} {C : Committee} (ext : Collaborators)

namespace Tally

variable {S : Scheme} {t u : Tally}

theorem prepares_pos_of_addPrepare {m : Prepare} (h : t.addPrepare S C m = .ok u) :
    0 < u.prepares.size := by
  rw [addPrepare_eq] at h
  obtain ⟨a, -, rfl⟩ := map_eq_ok_iff.1 h
  exact Table.size_pos_of_contains (contains_keepPrepare ..)

theorem commits_pos_of_addCommit {m : Commit} (h : t.addCommit S C m = .ok u) :
    0 < u.commits.size := by
  rw [addCommit_eq] at h
  obtain ⟨a, -, rfl⟩ := map_eq_ok_iff.1 h
  exact Table.size_pos_of_contains (contains_keepCommit ..)

end Tally

/-- The only validator, with a key that signs all it is to sign and is known for what it signs. -/
structure Setup.Sole (E : Setup) (C : Committee) : Prop where
  validators : C.validators = [E.signer.address]
  signs : ∀ h, ∃ g, E.signer.sign h = .ok g
  sound : E.Sound

namespace Setup.Sole

variable (hE : E.Sole C)
include hE

theorem contains : C.contains E.signer.address = true := by
  simp [Committee.contains, hE.validators]

theorem quorum : C.quorum = 1 := by
  simp [Committee.quorum, hE.validators, BlockAgreement.quorum, BlockAgreement.faultTolerance]

theorem proposer (round : RoundId) : C.proposer round = .ok E.signer.address := by
  simp [Committee.proposer, Rotation.proposer, hE.validators, Nat.mod_one]

theorem able : E.Able := ⟨hE.signs, hE.sound⟩

/-- The node's prepare counts in its own tally. -/
theorem exists_addPrepare {t : Tally} {p : Proposal} (hp : t.proposal = some p) :
    ∃ m u, E.signer.prepare E.scheme t.round p.digest = .ok m ∧
      t.addPrepare E.scheme C m = .ok u := by
  obtain ⟨m, hm, ha⟩ := hE.able.exists_prepare hE.contains t.round p.digest
  refine ⟨m, t.keepPrepare E.signer.address m, hm, ?_⟩
  rw [Tally.addPrepare_eq, Tally.preparer_of_some hp, ha]
  rfl

theorem exists_propose (height : UInt64) (b : Block) :
    ∃ p, E.signer.propose E.scheme ⟨height, 0⟩ b [] [] = .ok p := by
  obtain ⟨m, hm, hs, -⟩ :=
    hE.able.exists_attest (⟨⟨height, 0⟩, E.scheme.digest b⟩ : ProposalStatement)
  have hround : [] = ([] : List (Signed RoundChangeStatement)) ↔ m.statement.round.number = 0 := by
    simp [hs]
  refine ⟨⟨m, b, [], [], hround⟩, bind_eq_ok_iff.2 ⟨m, hm, ?_⟩⟩
  rw [Proposal.new?, dif_pos hround]

end Setup.Sole

namespace Round

variable {r : Round} {p : Proposal} {t : Tally}

/-- The node's own prepare is a quorum of prepares. -/
theorem answer_prepares (hE : E.Sole C) (hr : r.participates = true)
    (hq : r.tally.quorum ≤ 1) (ht : r.tally.setProposal? E.scheme C p = some t) :
    ∃ u es, answer E C r p { r with tally := t } = ⟨.ok (), { r with tally := u }, es⟩ ∧
      u.proposal = some p ∧ u.isPrepared = true ∧ u.quorum ≤ 1 := by
  obtain ⟨hround, hquorum, hproposal⟩ := Tally.setProposal?_keeps ht
  obtain ⟨m, u, hm, hu⟩ := hE.exists_addPrepare hproposal
  have hup := (Tally.addPrepare_extends hu).2.trans hproposal
  have huq : u.quorum ≤ 1 := by rwa [Tally.quorum_of_addPrepare hu, hquorum]
  have hprepare : E.signer.prepare E.scheme r.id p.digest = .ok m := by rwa [Round.id, ← hround]
  refine ⟨u, [.multicast (.prepare m)], ?_, hup, Tally.isPrepared_iff.2 ⟨⟨p, hup⟩, ?_⟩, huq⟩
  · rw [answer, if_pos hr, hprepare, Handler.ofExcept_ok_bind, Handler.multicast, Handler.ask_bind,
      addPrepare_apply, hu]
    rfl
  · exact Nat.le_trans huq (Tally.prepares_pos_of_addPrepare hu)

/-- The node's own commit is a quorum of commits. -/
theorem commitIfPrepared_decides (hE : E.Sole C) (hr : r.participates = true)
    (hs : r.commitSent = false) (hp : r.tally.proposal = some p) (hprepared : r.isPrepared = true)
    (hq : r.tally.quorum ≤ 1) :
    ∃ s es, commitIfPrepared E C r = ⟨.ok (), s, es⟩ ∧ s.isCommitted = true := by
  obtain ⟨m, hm, -⟩ := hE.able.exists_commit hE.contains r.id p.digest
  obtain ⟨u, hu⟩ := hE.sound.exists_addCommit hE.contains hp hm
  have huq : u.quorum ≤ 1 := by rwa [Tally.quorum_of_addCommit hu]
  refine ⟨{ r with tally := u, commitSent := true }, [.multicast (.commit m)], ?_,
    Tally.isCommitted_iff.2 ⟨⟨p, (Tally.addCommit_extends hu).2.trans hp⟩, ?_⟩⟩
  · rw [commitIfPrepared, Handler.get_bind, hp]
    dsimp only
    rw [if_pos (by simp [hr, hs, hprepared]), hm, Handler.ofExcept_ok_bind, Handler.set_bind,
      Handler.multicast, Handler.ask_bind, addCommit_apply, hu]
    rfl
  · exact Nat.le_trans huq (Tally.commits_pos_of_addCommit hu)

theorem deliverIfCommitted_tally (r : Round) :
    (deliverIfCommitted ext r).state.tally = r.tally := by
  rw [deliverIfCommitted, Handler.get_bind]
  cases r.tally.decision? with
  | none => rfl
  | some d =>
    dsimp only
    split <;> rfl

/-- The proposal of the only validator is decided with its own votes. -/
theorem propose_decides (hE : E.Sole C) (b : Block) :
    (propose E C ext b [] [] (Instance.freshRound E C 0)).state.isCommitted = true := by
  obtain ⟨p, hp⟩ := hE.exists_propose C.height b
  let r := Instance.freshRound E C 0
  obtain ⟨u, es, hanswer, hproposal, hprepared, hquorum⟩ :=
    answer_prepares (r := r) (p := p) hE hE.contains (Nat.le_of_eq hE.quorum) rfl
  obtain ⟨s, fs, hcommit, hdecided⟩ := commitIfPrepared_decides (r := { r with tally := u })
    hE hE.contains rfl hproposal hprepared hquorum
  have hid : (Instance.freshRound E C 0).id = ⟨C.height, 0⟩ := rfl
  rw [propose, Handler.get_bind, hid, hp, Handler.ofExcept_ok_bind, Handler.multicast,
    Handler.ask_bind]
  show Tally.isCommitted _ = true
  rw [acceptProposal_of_some ext rfl, Handler.bind_of_ok _ hanswer, progress,
    Handler.bind_of_ok _ hcommit]
  show Tally.isCommitted (deliverIfCommitted ext s).state.tally = true
  rw [deliverIfCommitted_tally]
  exact hdecided

end Round

namespace Instance

theorem noteProgress_round (i : Instance) : (noteProgress i).state.round = i.round := by
  rw [noteProgress_apply]
  exact i.keepLock_keeps.2.1

theorem propose_decides (hE : E.Sole C) (b : Block) :
    (propose E ext b [] [] (Instance.new E C)).state.isCommitted = true := by
  have hdecided := Round.propose_decides ext hE b
  rcases ho : Round.propose E C ext b [] [] (freshRound E C 0) with ⟨x, r, es⟩
  rw [ho] at hdecided
  have hon := onRound_apply (i := Instance.new E C) ho
  have hcommittee : (Instance.new E C).committee = C := rfl
  rw [propose, Handler.get_bind, hcommittee]
  cases x with
  | error e =>
    rw [Handler.bind_of_error _ hon]
    exact hdecided
  | ok =>
    rw [Handler.bind_of_ok _ hon, Handler.modify_bind]
    show Round.isCommitted (noteProgress _).state.round = true
    rw [noteProgress_round]
    exact hdecided

/-- A height with one validator, who has a block for it, is decided by its start. -/
theorem start_decides (hE : E.Sole C) {ext : Collaborators} (hext : ext.Mild) {b : Block}
    (hb : ext.createBlock ⟨C.height, 0⟩ = .ok b) :
    ∃ i es, start E ext (Instance.new E C) = ⟨.ok (), i, es⟩ ∧ i.isCommitted = true := by
  have hproposed : (proposeIfProposer E ext none (Instance.new E C)).state.isCommitted = true := by
    have hid : (Instance.new E C).round.id = ⟨C.height, 0⟩ := rfl
    have hturn : ((Instance.new E C).round.participates && !(Instance.new E C).round.hasProposal) =
        true := by
      simp [Instance.new, freshRound, Round.new, participates, hE.contains, Round.hasProposal,
        Tally.new]
    have hcommittee : (Instance.new E C).committee = C := rfl
    rw [proposeIfProposer, Handler.get_bind, if_pos hturn, hid, hcommittee, hE.proposer,
      Handler.ofExcept_ok_bind, if_pos rfl, if_pos rfl, makeBlock, hb]
    exact propose_decides ext hE b
  have hfails := start_fails E ext (Instance.new E C)
  have hdecided : (start E ext (Instance.new E C)).state.isCommitted = true := by
    rw [start, Handler.get_bind, Handler.ask_bind, Handler.absorb_state]
    exact hproposed
  rcases ho : start E ext (Instance.new E C) with ⟨x, i, es⟩
  rw [ho] at hfails hdecided
  cases x with
  | error e =>
    obtain ⟨h, text, hrefused, -⟩ := (hfails e rfl).refuses hext
    obtain ⟨g, hg⟩ := hE.signs h
    cases hg.symm.trans hrefused
  | ok => exact ⟨i, es, rfl, hdecided⟩

end Instance

namespace Node

variable {ext} {n : Node}

section

variable (hvs : ∀ height, E.validatorsAt height = [E.signer.address])
  (hsigns : ∀ h, ∃ g, E.signer.sign h = .ok g) (hsound : E.Sound)
  (hext : ext.Mild) (hblocks : ∀ round, ∃ b, ext.createBlock round = .ok b)
include hvs hsigns hsound hext hblocks

theorem launch_sole {height : UInt64} (hempty : n.backlog.queue height = []) :
    ∃ i, (launch E ext height n).result = .ok i := by
  have hne : E.validatorsAt height ≠ [] := hvs height ▸ List.cons_ne_nil _ _
  obtain ⟨b, hb⟩ := hblocks ⟨height, 0⟩
  obtain ⟨i, es, hstart, -⟩ := Instance.start_decides (E := E)
    (C := ⟨height, E.validatorsAt height, E.rotation, hne⟩) ⟨hvs height, hsigns, hsound⟩ hext hb
  refine ⟨i, ?_⟩
  rw [launch, Committee.new?, dif_pos hne, Handler.ofExcept_ok_bind,
    Handler.bind_of_ok _ (on_apply hstart), Handler.get_bind, Handler.modify_bind, hempty]
  rfl

theorem Proceeds.sole {height : UInt64} {o : Outcome Node Unit} (h : Proceeds E ext height n o)
    (hempty : ∀ k, n.backlog.queue k = []) : ∀ k, height ≤ k → k ∈ starts o := by
  induction h with
  | @fails height n _ _ _ _ hfailed =>
    obtain ⟨i, hlaunched⟩ :=
      launch_sole hvs hsigns hsound hext hblocks (n := { n with current := none }) (hempty height)
    cases hlaunched.symm.trans hfailed
  | @runs height _ _ _ hi hopen =>
    obtain ⟨C, hC, rfl⟩ := hi.alone (hempty height)
    obtain ⟨b, hb⟩ := hblocks ⟨C.height, 0⟩
    obtain ⟨j, fs, hstart, hj⟩ :=
      Instance.start_decides (E := E) (C := C) ⟨hC.trans (hvs height), hsigns, hsound⟩ hext hb
    rw [hstart, hj] at hopen
    cases hopen
  | @goesOn height next _ _ _ _ hi _ hnext _ ih =>
    intro k hk
    rw [starts, List.filterMap_append, hi.started]
    by_cases hkh : k = height
    · exact hkh ▸ List.mem_cons_self ..
    · have hne : k.toNat ≠ height.toNat := fun h => hkh (UInt64.toNat_inj.1 h)
      refine List.mem_cons_of_mem _ (ih (fun k => ?_) k ?_)
      · by_contra hheld
        exact Backlog.queue_ne_nil_of_discardThrough hheld (hempty k)
      · rw [UInt64.le_iff_toNat_le] at hk ⊢
        rw [toNat_heightAfter hnext]
        omega
  | ends hi _ hlast =>
    intro k hk
    have hmax : lastHeight.toNat = UInt64.size - 1 := rfl
    have hlt := k.toNat_lt_size
    rw [hlast, UInt64.le_iff_toNat_le] at hk
    rw [starts, hi.started, List.mem_singleton, hlast]
    exact UInt64.toNat_inj.1 (by omega)

/-- For the only validator one call starts every height there is, and nothing but the last height
ends it. -/
theorem startHeight_sole (height : UInt64) (hempty : ∀ k, n.backlog.queue k = []) :
    ∀ k, height ≤ k → k ∈ starts (startHeight E ext height n) :=
  (startHeight_proceeds E ext height n).sole hvs hsigns hsound hext hblocks hempty

end

/-- The validator 1, alone at every height. -/
def sole : Setup where
  __ := Setup.plain (.ofNat 1)
  validatorsAt _ := [.ofNat 1]

theorem sole_unbounded : (∀ height, sole.validatorsAt height = [sole.signer.address]) ∧
    (∀ k, 1 ≤ k → k ∈ starts (startHeight sole .plain 1 new)) ∧
      ¬ Bounded new (startHeight sole .plain 1 new) := by
  have hsound : sole.Sound := Setup.plain_sound (.ofNat 1)
  have hall : ∀ k, 1 ≤ k → k ∈ starts (startHeight sole .plain 1 new) :=
    startHeight_sole (E := sole) (n := new) (fun _ => rfl) (fun _ => ⟨_, rfl⟩) hsound
      Collaborators.plain_mild (fun _ => ⟨_, rfl⟩) 1 fun _ => rfl
  refine ⟨fun _ => rfl, hall, fun hbounded => ?_⟩
  obtain ⟨first, rest, hstarts⟩ :=
    List.exists_cons_of_ne_nil (List.ne_nil_of_mem (hall 1 (by decide)))
  have hnone : rest = [] := List.eq_nil_of_length_eq_zero (Nat.le_zero.1 (hbounded _ _ hstarts))
  have h1 := hall 1 (by decide)
  have h2 := hall 2 (by decide)
  rw [hstarts, hnone, List.mem_singleton] at h1 h2
  cases h1.trans h2.symm

end Node

end BlockAgreement
