import BlockAgreement.Engine.Round
import BlockAgreement.Proofs.Chain
import BlockAgreement.Proofs.Tally

/-! What can become of a round. A node's own vote goes out and is counted in one move, so that
nothing is counted that was not sent; that it may fail to count is left open, and excluded only
where signatures made with the node's key are recovered to its address. -/

namespace BlockAgreement

/-- Signatures made with the node's key are recovered to its address. -/
def Setup.Sound (E : Setup) : Prop :=
  ∀ h g, E.signer.sign h = .ok g → E.scheme.recover h g = .ok E.signer.address

namespace Signer

variable {S : Scheme} {K : Signer} {round : RoundId} {digest : Digest}

theorem attest_eq_ok_iff {P : Type} [Statement P] {p : P} {m : Signed P} :
    K.attest S p = .ok m ↔ m.statement = p ∧ K.sign (Statement.hash S p) = .ok m.signature := by
  obtain ⟨q, g⟩ := m
  simp only [attest, signHash, bind_eq_ok_iff, mapError_eq_ok_iff]
  constructor
  · rintro ⟨g', hg, h⟩
    cases h
    exact ⟨rfl, hg⟩
  · rintro ⟨rfl, hg⟩
    exact ⟨g, hg, rfl⟩

theorem prepare_eq_ok {m : Prepare} (h : K.prepare S round digest = .ok m) :
    m.statement = ⟨round, digest⟩ :=
  (attest_eq_ok_iff.1 h).1

theorem propose_eq_ok {b : Block} {rcs : List (Signed RoundChangeStatement)}
    {prepares : List Prepare} {p : Proposal}
    (h : K.propose S round b rcs prepares = .ok p) : p.round = round ∧ p.digest = S.digest b ∧
      p.block = b ∧ p.roundChanges = rcs ∧ p.prepares = prepares := by
  simp only [propose, bind_eq_ok_iff, attest_eq_ok_iff, Proposal.new?] at h
  obtain ⟨m, ⟨hm, -⟩, h⟩ := h
  split at h
  · cases h
    simp [Proposal.round, Proposal.digest, hm]
  · cases h

theorem sign_of_propose {b : Block} {rcs : List (Signed RoundChangeStatement)}
    {prepares : List Prepare} {p : Proposal} (h : K.propose S round b rcs prepares = .ok p) :
    K.sign (Statement.hash S p.signed.statement) = .ok p.signed.signature := by
  simp only [propose, bind_eq_ok_iff, attest_eq_ok_iff, Proposal.new?] at h
  obtain ⟨m, ⟨hm, hg⟩, h⟩ := h
  rw [← hm] at hg
  split at h
  · cases h
    exact hg
  · cases h

theorem commit_eq_ok {m : Commit} (h : K.commit S round digest = .ok m) :
    m.round = round ∧ m.statement.digest = digest ∧
      K.sign (Statement.hash S m.statement) = .ok m.signature ∧
      K.sign digest = .ok m.statement.blockSeal := by
  simp only [commit, signHash, bind_eq_ok_iff, mapError_eq_ok_iff, attest_eq_ok_iff] at h
  obtain ⟨_, hseal, hm, hg⟩ := h
  rw [hm, Signed.round, hm]
  exact ⟨rfl, rfl, hg, hseal⟩

end Signer

theorem Setup.Sound.author_eq {E : Setup} (hE : E.Sound) {P : Type} [Statement P] {m : Signed P}
    (h : E.signer.sign (Statement.hash E.scheme m.statement) = .ok m.signature) :
    m.author E.scheme = .ok E.signer.address :=
  Scheme.signer_eq_ok_iff.2 (hE _ _ h)

/-- The node's commit counts in its own tally. -/
theorem Setup.Sound.exists_addCommit {E : Setup} (hE : E.Sound) {C : Committee} {t : Tally}
    {p : Proposal} {m : Commit} (hmember : C.contains E.signer.address = true)
    (hp : t.proposal = some p) (hm : E.signer.commit E.scheme t.round p.digest = .ok m) :
    ∃ u, t.addCommit E.scheme C m = .ok u := by
  obtain ⟨hr, hd, hg, hs⟩ := Signer.commit_eq_ok hm
  have hv : C.checkCommit E.scheme t.round p.digest m = .ok E.signer.address := by
    rw [Committee.checkCommit_eq_ok_iff, Committee.voter_eq_ok_iff, Committee.author_eq_ok_iff]
    exact ⟨⟨⟨hE.author_eq hg, hmember⟩, hr⟩, hd, hE _ _ hs⟩
  simp only [Tally.addCommit, hp, bind_eq_ok_iff]
  exact ⟨_, _, hv, rfl⟩

namespace Round

variable (E : Setup) (C : Committee) (A : Outside)

/-- A proposal is taken, and answered or not. -/
inductive Answers (r : Round) (p : Proposal) : List Effect → Tally → Prop
  | silent {t : Tally} (ht : r.tally.setProposal? E.scheme C p = some t) : Answers r p [] t
  | prepare {t u : Tally} {m : Prepare} (ht : r.tally.setProposal? E.scheme C p = some t)
      (hm : E.signer.prepare E.scheme r.id p.digest = .ok m)
      (hu : u = t ∨ t.addPrepare E.scheme C m = .ok u) :
      Answers r p [.multicast (.prepare m)] u

/-- What one move does to a round, and what it asks for. -/
inductive Move (own : Proposal → Prop) : Round → List Effect → Round → Prop
  | prepare {r : Round} {t : Tally} {m : Prepare} (hm : A.prepare m)
      (ht : r.tally.addPrepare E.scheme C m = .ok t) : Move own r [] { r with tally := t }
  | commit {r : Round} {t : Tally} {m : Commit} (hm : A.commit m)
      (ht : r.tally.addCommit E.scheme C m = .ok t) : Move own r [] { r with tally := t }
  | take {r : Round} {t : Tally} {p : Proposal} {es : List Effect} (hp : p.Backed E.scheme C A)
      (hr : p.round = r.id) (h : Answers E C r p es t) : Move own r es { r with tally := t }
  | propose {r : Round} {t : Tally} {p : Proposal} {es : List Effect} (hp : own p)
      (hr : p.round = r.id) (h : Answers E C r p es t) :
      Move own r (.multicast (.proposal p) :: es) { r with tally := t }
  | confirm {r : Round} {t : Tally} {p : Proposal} {m : Commit} (hp : r.tally.proposal = some p)
      (hs : r.commitSent = false) (hr : r.isPrepared = true)
      (hm : E.signer.commit E.scheme r.id p.digest = .ok m)
      (ht : t = r.tally ∨ r.tally.addCommit E.scheme C m = .ok t) :
      Move own r [.multicast (.commit m)] { r with tally := t, commitSent := true }
  | deliver {r : Round} {b : Block} {seals : List Signature} {accepted : Bool}
      (h : r.tally.decision? = some (b, seals)) (hd : r.delivered = false) :
      Move own r [.deliverBlock b seals accepted] { r with delivered := true }

/-- A round that may have come of another. -/
structure Follows (s r : Round) : Prop where
  tally : s.tally.Extends r.tally
  participates : s.participates = r.participates
  commitSent : r.commitSent = true → s.commitSent = true
  prepared : (r.commitSent = true → r.isPrepared = true) → s.commitSent = true →
    s.isPrepared = true

variable {E C A} {own : Proposal → Prop} {r s : Round} {p : Proposal} {es : List Effect}
  {t : Tally}

theorem Answers.spec (h : Answers E C r p es t) : r.tally.proposal = none ∧
    t.Extends r.tally ∧ t.proposal = some p := by
  cases h with
  | silent ht => exact Tally.setProposal?_extends ht
  | prepare ht hm hu =>
    obtain ⟨hn, hx, hp⟩ := Tally.setProposal?_extends ht
    rcases hu with rfl | hu
    · exact ⟨hn, hx, hp⟩
    · obtain ⟨hx', hp'⟩ := Tally.addPrepare_extends hu
      exact ⟨hn, hx'.trans hx, hp'.trans hp⟩

theorem Move.mono {own' : Proposal → Prop} (h : Move E C A own r es s)
    (hown : ∀ p, own p → own' p) : Move E C A own' r es s := by
  cases h with
  | prepare hm ht => exact .prepare hm ht
  | commit hm ht => exact .commit hm ht
  | take hp hr h => exact .take hp hr h
  | propose hp hr h => exact .propose (hown _ hp) hr h
  | confirm hp hs hr hm ht => exact .confirm hp hs hr hm ht
  | deliver h hd => exact .deliver h hd

theorem Follows.refl (r : Round) : r.Follows r := ⟨.refl _, rfl, fun h => h, fun h => h⟩

theorem Follows.trans {u : Round} (h : u.Follows s) (h' : s.Follows r) : u.Follows r where
  tally := h.tally.trans h'.tally
  participates := h.participates.trans h'.participates
  commitSent := h.commitSent ∘ h'.commitSent
  prepared := h.prepared ∘ h'.prepared

theorem Follows.of_extends (h : t.Extends r.tally) : Follows { r with tally := t } r :=
  ⟨h, rfl, fun h => h, fun hp hs => h.isPrepared (hp hs)⟩

theorem Move.follows (h : Move E C A own r es s) : s.Follows r := by
  cases h with
  | prepare hm ht => exact .of_extends (Tally.addPrepare_extends ht).1
  | commit hm ht => exact .of_extends (Tally.addCommit_extends ht).1
  | take hp hr h => exact .of_extends h.spec.2.1
  | propose hp hr h => exact .of_extends h.spec.2.1
  | @confirm t p m hp hs hr hm ht =>
    have hx : t.Extends r.tally := by
      rcases ht with rfl | ht
      · exact .refl _
      · exact (Tally.addCommit_extends ht).1
    exact ⟨hx, rfl, fun _ => rfl, fun _ _ => hx.isPrepared hr⟩
  | deliver h hd => exact ⟨.refl _, rfl, fun h => h, fun h => h⟩

theorem follows_of_chain (h : Chain (Move E C A own) r es s) : s.Follows r :=
  h.preserves_state (P := fun s => s.Follows r) (fun _ _ _ h hm => hm.follows.trans h) (.refl r)

/-! ### The handlers of a round make such moves -/

variable (ext : Collaborators)

/-- What becomes of a round when a vote is counted or refused. -/
def counted (r : Round) : Except Error Tally → Outcome Round Unit
  | .ok t => ⟨.ok (), { r with tally := t }, []⟩
  | .error e => ⟨.error e, r, []⟩

theorem addPrepare_apply (m : Prepare) (r : Round) :
    addPrepare E C m r = counted r (r.tally.addPrepare E.scheme C m) := by
  rw [addPrepare, Handler.get_bind]
  cases r.tally.addPrepare E.scheme C m <;> rfl

theorem addCommit_apply (m : Commit) (r : Round) :
    addCommit E C m r = counted r (r.tally.addCommit E.scheme C m) := by
  rw [addCommit, Handler.get_bind]
  cases r.tally.addCommit E.scheme C m <;> rfl

variable (E) in
/-- A handler that fails has sent no commit, unless the round is decided. What excludes the failure
to count the node's own commit is that its signatures are sound. -/
def Accounts (r : Round) (x : Except Error Unit) (s : Round) : Prop :=
  ∀ e, x = .error e → E.Sound → s.commitSent = true → r.commitSent = true ∨ s.isCommitted = true

theorem commitIfPrepared_does (hr : r.participates = true → C.contains E.signer.address = true) :
    Handler.Does (Move E C A own) (commitIfPrepared E C) r fun x s =>
      ∀ e, x = .error e → E.Sound → s.commitSent = r.commitSent := by
  unfold commitIfPrepared
  refine .get ?_
  split
  · next p hp =>
    split
    · next hc =>
      simp only [Bool.and_eq_true, Bool.not_eq_true'] at hc
      obtain ⟨⟨hmember, hs⟩, hprepared⟩ := hc
      refine .ofExcept_bind (fun m hm => ?_) fun _ _ _ _ _ => rfl
      -- The commit is sent and counted in one move.
      rw [Handler.Does, Handler.set_bind, Handler.multicast, Handler.ask_bind, addCommit_apply]
      cases ht : r.tally.addCommit E.scheme C m with
      | ok t => exact ⟨.single (.confirm hp hs hprepared hm (.inr ht)), by rintro _ ⟨⟩⟩
      | error e =>
        refine ⟨.single (.confirm hp hs hprepared hm (.inl rfl)), fun _ _ hE => ?_⟩
        obtain ⟨t, ht'⟩ := hE.exists_addCommit (hr hmember) hp hm
        cases ht.symm.trans ht'
    · exact .pure (by rintro _ ⟨⟩)
  · exact .pure (by rintro _ ⟨⟩)

theorem deliverIfCommitted_does : Handler.Does (Move E C A own) (deliverIfCommitted ext) r
    fun x s => (∀ e, x = .error e → s.isCommitted = true) ∧ s.commitSent = r.commitSent := by
  unfold deliverIfCommitted
  refine .get ?_
  split
  · next b seals hd =>
    split
    · next hn =>
      rw [Handler.Does, Handler.set_bind, Handler.ask_bind]
      exact ⟨.single (.deliver hd (by simpa using hn)), fun _ _ => (Tally.decision?_eq_some hd).1, rfl⟩
    · exact .pure ⟨by rintro _ ⟨⟩, rfl⟩
  · exact .pure ⟨by rintro _ ⟨⟩, rfl⟩

theorem progress_does (hr : r.participates = true → C.contains E.signer.address = true) :
    Handler.Does (Move E C A own) (progress E C ext) r (Accounts E r) := by
  refine .bind (commitIfPrepared_does hr) ?_ ?_
  · intro _ s _
    refine (deliverIfCommitted_does ext).weaken ?_
    intro x t ht e he _ _
    exact .inr (ht.1 e he)
  · intro e s hs _ _ hE hsent
    exact .inl (hs e rfl hE ▸ hsent)

/-- A vote is counted if it may be, and then the round goes on. -/
theorem vote_does {h : Handler Round Unit} {x : Except Error Tally} (hh : h r = counted r x)
    (hx : ∀ t, x = .ok t → Move E C A own r [] { r with tally := t })
    (hr : r.participates = true → C.contains E.signer.address = true) :
    Handler.Does (Move E C A own) (h >>= fun _ => progress E C ext) r (Accounts E r) := by
  cases x with
  | error e =>
    rw [Handler.Does, Handler.bind_of_error _ hh]
    exact ⟨.refl r, fun _ _ _ h => .inl h⟩
  | ok t => exact .step hh (.single (hx t rfl)) (progress_does ext hr)

theorem handlePrepare_does {m : Prepare} (hm : A.prepare m)
    (hr : r.participates = true → C.contains E.signer.address = true) :
    Handler.Does (Move E C A own) (handlePrepare E C ext m) r (Accounts E r) :=
  vote_does ext (addPrepare_apply m r) (fun _ ht => .prepare hm ht) hr

theorem handleCommit_does {m : Commit} (hm : A.commit m)
    (hr : r.participates = true → C.contains E.signer.address = true) :
    Handler.Does (Move E C A own) (handleCommit E C ext m) r (Accounts E r) :=
  vote_does ext (addCommit_apply m r) (fun _ ht => .commit hm ht) hr

/-! ### Votes that come before the proposal -/

variable (E C A) in
/-- Only votes have come, and they asked for nothing. -/
structure Waits (r s : Round) : Prop where
  chain : Chain (Move E C A fun _ => False) r [] s
  proposal : s.tally.proposal = none
  commitSent : s.commitSent = r.commitSent

theorem Waits.refl (hn : r.tally.proposal = none) : Waits E C A r r := ⟨.refl r, hn, rfl⟩

theorem Waits.trans {u : Round} (h : Waits E C A r s) (h' : Waits E C A s u) :
    Waits E C A r u where
  chain := h.chain.trans h'.chain
  proposal := h'.proposal
  commitSent := h'.commitSent.trans h.commitSent

theorem progress_of_none (hn : r.tally.proposal = none) :
    progress E C ext r = ⟨.ok (), r, []⟩ := by
  have hd : r.tally.decision? = none := by simp [Tally.decision?, Tally.isCommitted, hn]
  have hcommit : commitIfPrepared E C r = ⟨.ok (), r, []⟩ := by
    rw [commitIfPrepared, Handler.get_bind, hn]
    rfl
  rw [progress, Handler.bind_of_ok _ hcommit, deliverIfCommitted, Handler.get_bind, hd]
  rfl

theorem vote_waits {h : Handler Round Unit} {x : Except Error Tally} (hh : h r = counted r x)
    (hx : ∀ t, x = .ok t →
      Move E C A (fun _ => False) r [] { r with tally := t } ∧ t.proposal = none)
    (herr : Fails Error.Blames x) (hn : r.tally.proposal = none) :
    ∃ y s, (h >>= fun _ => progress E C ext) r = ⟨y, s, []⟩ ∧
      Fails Error.Blames y ∧ Waits E C A r s := by
  cases x with
  | error e =>
    refine ⟨_, r, Handler.bind_of_error _ hh, ?_, .refl hn⟩
    rintro _ ⟨⟩
    exact herr e rfl
  | ok t =>
    obtain ⟨hmove, hp⟩ := hx t rfl
    rw [Handler.bind_of_ok _ hh, progress_of_none ext hp]
    exact ⟨_, _, rfl, by rintro _ ⟨⟩, .single hmove, hp, rfl⟩

theorem handlePrepare_waits {m : Prepare} (hm : A.prepare m) (hn : r.tally.proposal = none) :
    ∃ x s, handlePrepare E C ext m r = ⟨x, s, []⟩ ∧
      Fails Error.Blames x ∧ Waits E C A r s :=
  vote_waits ext (addPrepare_apply m r)
    (fun _ ht => ⟨.prepare hm ht, (Tally.addPrepare_extends ht).2.trans hn⟩)
    (r.tally.addPrepare_fails m) hn

theorem handleCommit_waits {m : Commit} (hm : A.commit m) (hn : r.tally.proposal = none) :
    ∃ x s, handleCommit E C ext m r = ⟨x, s, []⟩ ∧
      Fails Error.Blames x ∧ Waits E C A r s :=
  vote_waits ext (addCommit_apply m r)
    (fun _ ht => ⟨.commit hm ht, (Tally.addCommit_extends ht).2.trans hn⟩)
    (r.tally.addCommit_fails m) hn

variable (E C) in
/-- A vote that is given to the round. -/
def vote : Message → Handler Round Unit
  | .prepare m => handlePrepare E C ext m
  | .commit m => handleCommit E C ext m
  | .proposal _ | .roundChange _ => pure ()

variable (E C) in
/-- What becomes of the round when it is given these votes, one after the other. -/
def afterVotes (r : Round) (ms : List Message) : Round :=
  ms.foldl (fun r m => (vote E C ext m r).state) r

/-! ### Proposals -/

variable (E C) in
/-- The answer to a proposal that is taken. -/
def answer (r : Round) (p : Proposal) : Handler Round Unit :=
  if r.participates then do
    let m ← .ofExcept (E.signer.prepare E.scheme r.id p.digest)
    .multicast (.prepare m)
    addPrepare E C m
  else pure ()

theorem answer_spec (ht : r.tally.setProposal? E.scheme C p = some t) :
    ∃ x es u, answer E C r p { r with tally := t } = ⟨x, { r with tally := u }, es⟩ ∧
      Answers E C r p es u := by
  rw [answer]
  split
  · cases hm : E.signer.prepare E.scheme r.id p.digest with
    | error e => exact ⟨_, _, _, rfl, .silent ht⟩
    | ok m =>
      rw [Handler.ofExcept_ok_bind, Handler.multicast, Handler.ask_bind, addPrepare_apply]
      cases hu : t.addPrepare E.scheme C m with
      | error e => exact ⟨_, _, t, rfl, .prepare ht hm (.inl rfl)⟩
      | ok u => exact ⟨_, _, u, rfl, .prepare ht hm (.inr hu)⟩
  · exact ⟨_, _, _, rfl, .silent ht⟩

theorem acceptProposal_of_some (ht : r.tally.setProposal? E.scheme C p = some t) :
    acceptProposal E C ext p r =
      (answer E C r p >>= fun _ => progress E C ext) { r with tally := t } := by
  rw [acceptProposal, Handler.get_bind, ht, answer]
  split
  · simp only [bind_assoc]
    rfl
  · rfl

/-- A proposal that is taken is answered, and unless the answer fails the round goes on. -/
theorem acceptProposal_spec (p : Proposal)
    (hr : r.participates = true → C.contains E.signer.address = true) :
    (acceptProposal E C ext p r = ⟨.ok (), r, []⟩ ∧ r.hasProposal = true) ∨
      ∃ es t, Answers E C r p es t ∧ ∃ x s fs, acceptProposal E C ext p r = ⟨x, s, es ++ fs⟩ ∧
        Chain (Move E C A own) { r with tally := t } fs s ∧ Accounts E r x s := by
  cases ht : r.tally.setProposal? E.scheme C p with
  | none =>
    left
    constructor
    · rw [acceptProposal, Handler.get_bind, ht]
      rfl
    · unfold Tally.setProposal? at ht
      split at ht
      · next hp => simp [hasProposal, hp]
      · cases ht
  | some t =>
    right
    obtain ⟨x, es, u, ho, ha⟩ := answer_spec ht
    refine ⟨es, u, ha, ?_⟩
    rw [acceptProposal_of_some ext ht]
    cases x with
    | error e =>
      rw [Handler.bind_of_error _ ho]
      exact ⟨_, _, [], by rw [List.append_nil], .refl _, fun _ _ _ h => .inl h⟩
    | ok =>
      rw [Handler.bind_of_ok _ ho]
      obtain ⟨hc, hq⟩ := progress_does ext (r := { r with tally := u }) hr
      exact ⟨_, _, _, rfl, hc, hq⟩

theorem acceptProposal_does (hp : p.Backed E.scheme C A) (hround : p.round = r.id)
    (hr : r.participates = true → C.contains E.signer.address = true) :
    Handler.Does (Move E C A own) (acceptProposal E C ext p) r (Accounts E r) := by
  rw [Handler.Does]
  obtain ⟨ho, -⟩ | ⟨es, t, ha, x, s, fs, ho, hc, hq⟩ := acceptProposal_spec ext p hr
  · rw [ho]
    exact ⟨.refl r, by rintro _ ⟨⟩⟩
  · rw [ho]
    exact ⟨.cons (.take hp hround ha) hc, hq⟩

/-- The proposal goes out and is taken in one move. -/
theorem propose_does {b : Block} {rcs : List (Signed RoundChangeStatement)}
    {prepares : List Prepare} (hn : r.hasProposal = false)
    (hown : ∀ p, E.signer.propose E.scheme r.id b rcs prepares = .ok p → own p)
    (hr : r.participates = true → C.contains E.signer.address = true) :
    Handler.Does (Move E C A own) (propose E C ext b rcs prepares) r (Accounts E r) := by
  refine .get (.ofExcept_bind (fun p hp => ?_) fun e _ _ _ _ h => .inl h)
  rw [Handler.Does, Handler.multicast, Handler.ask_bind]
  obtain ⟨-, h⟩ | ⟨es, t, ha, x, s, fs, ho, hc, hq⟩ := acceptProposal_spec ext p hr
  · simp [hn] at h
  · rw [ho]
    exact ⟨.cons (.propose (hown p hp) (Signer.propose_eq_ok hp).1 ha) hc, hq⟩

end Round

end BlockAgreement
