import BlockAgreement.Proofs.Run

/-! What a node says and keeps is backed by what it heard. A prepare answers a justified proposal, a
commit follows a quorum of prepares, a delivered block has a quorum of commits and seals, and the
claim of a round change comes with its proof. -/

namespace BlockAgreement

variable (E : Setup) (S : Scheme) (C : Committee) (A : Outside)

/-- A quorum prepared the block of this digest in round `n`. -/
def Prepared (n : UInt32) (digest : Digest) : Prop :=
  ∃ ms, C.checkPrepares S ms ⟨C.height, n⟩ digest = .ok () ∧ ∀ m ∈ ms, A.prepare m

/-- A quorum committed the block of this digest in round `n`. -/
def Committed (n : UInt32) (digest : Digest) : Prop :=
  ∃ ms : List Commit, C.Quorate S ms ∧
    ∀ m ∈ ms, A.commit m ∧ m.round = ⟨C.height, n⟩ ∧ m.statement.digest = digest

/-- The claim of a round change comes with the block and its prepares. -/
def RoundChange.Proved (rc : RoundChange) : Prop :=
  ∀ c, rc.claim = some c → ∃ b, rc.block = some b ∧ S.digest b = c.digest ∧
    C.checkPrepares S rc.prepares ⟨C.height, c.round⟩ c.digest = .ok ()

def Effect.Backed : Effect → Prop
  | .multicast (.proposal p) => p.Backed S C A
  | .multicast (.prepare m) =>
    ∃ p : Proposal, p.Backed S C A ∧ p.round = m.round ∧ p.digest = m.statement.digest
  | .multicast (.commit m) => Prepared S C A m.round.number m.statement.digest
  | .multicast (.roundChange rc) => rc.Proved S C ∧ A.Admits (.roundChange rc)
  | .deliverBlock b seals _ => A.Fits C b ∧ C.Sealed S b seals ∧ ∃ n, Committed S C A n (S.digest b)
  | _ => True

variable {E S C A}

theorem Effect.Silent.backed {e : Effect} (h : e.Silent) : e.Backed S C A := by
  cases e with
  | multicast | deliverBlock => exact h.elim
  | startTimer | cancelTimer | requestBlock => trivial

theorem Tally.Backed.prepared {t : Tally} {p : Proposal} (ht : t.Backed S C A)
    (h : t.isPrepared = true) (hp : t.proposal = some p) :
    Prepared S C A t.round.number p.digest := by
  obtain ⟨l, q, hl, hr, hq, hd⟩ := Tally.exists_lock h
  obtain ⟨hb, -⟩ := ht.lock? hl
  cases hp.symm.trans hq
  exact ⟨l.prepares, hr ▸ hd ▸ hb.proved, hb.admits⟩

theorem Tally.Backed.committed {t : Tally} {p : Proposal} (ht : t.Backed S C A)
    (h : t.isCommitted = true) (hp : t.proposal = some p) :
    Committed S C A t.round.number p.digest := by
  refine ⟨t.commits.values, ht.quorate_commits h, fun m hm => ?_⟩
  obtain ⟨e, he, rfl⟩ := List.mem_map.1 hm
  obtain ⟨hv, ha⟩ := ht.commits e he
  refine ⟨ha, ?_, (ht.commitsFor p hp e he).1⟩
  rw [(Committee.voter_eq_ok_iff.1 hv).2, ← ht.height]

/-! ### Rounds -/

namespace Round

variable {r s : Round} {p : Proposal} {es : List Effect} {t : Tally} {own : Proposal → Prop}

theorem Answers.backed (h : Answers E C r p es t) (hp : p.Backed E.scheme C A)
    (hround : p.round = r.id) (hes : ∀ e ∈ es, A.AdmitsOwn e)
    (hr : r.tally.Backed E.scheme C A) :
    t.Backed E.scheme C A ∧ ∀ e ∈ es, e.Backed E.scheme C A := by
  cases h with
  | silent ht => exact ⟨hr.setProposal? hround hp ht, nofun⟩
  | @prepare u _ m ht hm hu =>
    have hm' := Signer.prepare_eq_ok hm
    refine ⟨?_, ?_⟩
    · rcases hu with rfl | hu
      · exact hr.setProposal? hround hp ht
      · exact (hr.setProposal? hround hp ht).addPrepare (hes _ (List.mem_singleton.2 rfl)) hu
    · intro e he
      rw [List.mem_singleton.1 he]
      refine ⟨p, hp, ?_, by rw [hm']⟩
      rw [hround, Signed.round, hm']
      rfl

theorem Move.backed (h : Move E C A own r es s)
    (hown : ∀ p, own p → p.round = r.id → p.Backed E.scheme C A)
    (hes : ∀ e ∈ es, A.AdmitsOwn e) (hr : r.tally.Backed E.scheme C A) :
    s.tally.Backed E.scheme C A ∧ ∀ e ∈ es, e.Backed E.scheme C A := by
  cases h with
  | prepare hm ht => exact ⟨hr.addPrepare hm ht, nofun⟩
  | commit hm ht => exact ⟨hr.addCommit hm ht, nofun⟩
  | take hp hround h => exact h.backed hp hround hes hr
  | propose hp hround h =>
    obtain ⟨hs, hb⟩ :=
      h.backed (hown _ hp hround) hround (fun e he => hes e (List.mem_cons_of_mem _ he)) hr
    exact ⟨hs, List.forall_mem_cons.2 ⟨hown _ hp hround, hb⟩⟩
  | confirm hp hsent hprepared hm ht =>
    obtain ⟨hround, hd, -⟩ := Signer.commit_eq_ok hm
    refine ⟨?_, ?_⟩
    · rcases ht with rfl | ht
      · exact hr
      · exact hr.addCommit (hes _ (List.mem_singleton.2 rfl)) ht
    · intro e he
      rw [List.mem_singleton.1 he, Effect.Backed, hround, hd]
      exact hr.prepared hprepared hp
  | deliver hd hn =>
    refine ⟨hr, fun e he => ?_⟩
    obtain ⟨hc, p, hp, rfl, -⟩ := Tally.decision?_eq_some hd
    obtain ⟨-, hb⟩ := hr.proposal p hp
    rw [List.mem_singleton.1 he]
    exact ⟨hb.fits, hr.sealed hd, _, hb.digest ▸ hr.committed hc hp⟩

end Round

namespace Signer

variable {K : Signer} {round : RoundId} {lock : Option Lock} {rc : RoundChange}

theorem changeRound_eq_ok (h : K.changeRound S round lock = .ok rc) :
    rc.round = round ∧ rc.claim = lock.map Lock.claim ∧ rc.block = lock.map Lock.block ∧
      rc.prepares = (lock.map Lock.prepares).getD [] ∧
        K.sign (Statement.hash S rc.signed.statement) = .ok rc.signed.signature := by
  obtain ⟨m, hm, h⟩ := bind_eq_ok_iff.1 h
  obtain ⟨hs, hg⟩ := attest_eq_ok_iff.1 hm
  rw [RoundChange.new?] at h
  split at h
  · cases h
    simp [RoundChange.round, RoundChange.claim, hs, ← hg]
  · cases h

end Signer

/-! ### Instances -/

namespace Instance

variable {i j : Instance} {p : Proposal} {es : List Effect}

variable (E C A) in
structure Backed (i : Instance) : Prop where
  tally : i.round.tally.Backed E.scheme C A
  gathered : ∀ k, (i.roundChanges.gathering k).Checked E.scheme C ⟨C.height, k⟩
  admitted : ∀ k, ∀ v ∈ (i.roundChanges.gathering k).votes, A.Admits (.roundChange v.2)
  lock : ∀ l, i.lock = some l → l.Backed E.scheme C A ∧ l.round ≤ i.round.id.number

/-- The node's own proposal is one that others would take. -/
theorem Backed.proposal (hi : Backed E C A i) (hc : i.committee = C)
    (hr : p.round = ⟨C.height, p.round.number⟩) (h : MayPropose E A i p) :
    p.Backed E.scheme C A := by
  by_cases h0 : p.round.number = 0
  · obtain ⟨hps, hb⟩ := h.first h0
    have hrcs : p.roundChanges = [] := p.roundChanges_eq_nil_iff.2 h0
    refine ⟨h.digest, .inl hb, ⟨by simp [hrcs], by simp [hps]⟩, ?_⟩
    simp [Committee.checkJustification, h0, hps, pure, Except.pure]
  · obtain ⟨j, hj, hrcs, hps, hb⟩ := h.later h0
    subst hc
    have hg := hi.gathered p.round.number
    have ha := hi.admitted p.round.number
    rw [← hr] at hg
    have hblock : ∀ b, j.block = some b → p.block = b := by
      intro b hjb
      rcases hb with hb | ⟨hb, -⟩
      · exact Option.some.inj (hb.symm.trans hjb)
      · cases hb.symm.trans hjb
    refine ⟨h.digest, ?_, ?_, hg.checkJustification h0 hj hrcs hps h.digest hblock⟩
    · obtain ⟨-, -, ⟨-, hjb, -⟩ | ⟨c, -, v, hv, hcl, hjb, -⟩⟩ := hg.assembled hj
      · rcases hb with hb | ⟨-, hb⟩
        · cases hb.symm.trans hjb
        · exact .inl hb
      · obtain ⟨b, hvb, -, -, hn, -⟩ := Committee.exists_evidence (hg.check v hv) hcl
        rw [hblock b (hjb.trans hvb)]
        exact .inr hn
    · obtain ⟨-, hjr, hbound⟩ := hg.assembled hj
      constructor
      · intro rc hrc
        rw [hrcs, hjr] at hrc
        obtain ⟨v, hv, rfl⟩ := List.mem_map.1 hrc
        exact (ha v hv).1
      · intro m hm
        rw [hps] at hm
        obtain ⟨-, -, hjp⟩ | ⟨c, -, v, hv, -, -, hjp⟩ := hbound
        · simp [hjp] at hm
        · exact (ha v hv).2 m (hjp ▸ hm)

theorem Backed.discardBefore (hi : Backed E C A i) (n : UInt32) :
    (i.roundChanges.discardBefore n).Checked E.scheme C ∧
      ∀ k, ∀ v ∈ ((i.roundChanges.discardBefore n).gathering k).votes,
        A.Admits (.roundChange v.2) := by
  refine ⟨RoundChanges.Checked.discardBefore hi.gathered n, fun k => ?_⟩
  rw [RoundChanges.gathering_discardBefore]
  split
  · exact hi.admitted k
  · exact nofun

/-- The round change that the node sends is proved by its lock, and is one that it could hear. -/
theorem Backed.roundChange (hi : Backed E C A i) {round : RoundId} {rc : RoundChange}
    (h : E.signer.changeRound E.scheme round i.lock = .ok rc) (ha : A.roundChange rc.signed) :
    rc.Proved E.scheme C ∧ A.Admits (.roundChange rc) := by
  obtain ⟨-, hcl, hb, hps, -⟩ := Signer.changeRound_eq_ok h
  cases hl : i.lock with
  | none =>
    rw [hl] at hcl hps
    exact ⟨fun c hc => by simp [hcl] at hc, ha, by simp [hps]⟩
  | some l =>
    obtain ⟨hlock, -⟩ := hi.lock l hl
    rw [hl] at hcl hb hps
    refine ⟨fun c hc => ?_, ha, fun m hm => hlock.admits m (by simpa [hps] using hm)⟩
    cases hc.symm.trans hcl
    refine ⟨l.block, hb, hlock.digest, ?_⟩
    rw [hps]
    exact hlock.proved

theorem Move.backed (h : Move E A i es j) (hf : Formed E C A i) (hi : Backed E C A i)
    (hes : ∀ e ∈ es, A.AdmitsOwn e) :
    Backed E C A j ∧ ∀ e ∈ es, e.Backed E.scheme C A := by
  have hc := hf.committee
  subst hc
  cases h with
  | @round _ r h =>
    obtain ⟨ht, hb⟩ := h.backed (fun p hp hr => hi.proposal rfl (by rw [hr, ← hf.height]) hp)
      hes hi.tally
    refine ⟨{ hi with tally := ht, lock := fun l hl => ?_ }, hb⟩
    obtain ⟨hl, hle⟩ := hi.lock l hl
    have hid : r.id = i.round.id := h.follows.tally.round
    exact ⟨hl, hid.symm ▸ hle⟩
  | note hp =>
    refine ⟨{ hi with lock := fun l hl => ?_ }, nofun⟩
    obtain ⟨hb, hr, -⟩ := hi.tally.lock? hl
    exact ⟨hb, hr ▸ UInt32.le_refl _⟩
  | ask he => exact ⟨hi, fun e h => List.mem_singleton.1 h ▸ he.backed⟩
  | mark => exact ⟨{ hi with }, nofun⟩
  | hold => exact ⟨{ hi with }, nofun⟩
  | gather hm hq =>
    refine ⟨{ hi with gathered := hq.checked hi.gathered, admitted := ?_ }, nofun⟩
    exact hq.forall_mem (P := fun _ v => A.Admits (.roundChange v.2)) hi.admitted fun _ _ => hm
  | @enter n fs es q hn hf' h =>
    obtain ⟨hg, ha⟩ := hi.discardBefore n
    have hlock : ∀ l, i.lock = some l → l.Backed E.scheme i.committee A ∧ l.round ≤ n := fun l hl =>
      ⟨(hi.lock l hl).1, UInt32.le_trans (hi.lock l hl).2 hn.le⟩
    have hsilent : ∀ e ∈ fs, e.Backed E.scheme i.committee A := fun e he => (hf' e he).backed
    cases h with
    | silent => exact ⟨⟨Tally.backed_new n, hg, ha, hlock⟩, by simpa using hsilent⟩
    | roundChange hrc hq =>
      have hown := hes _ (List.mem_append_right _ (List.mem_singleton.2 rfl))
      obtain ⟨hproved, hadmits⟩ := hi.roundChange hrc hown
      refine ⟨⟨Tally.backed_new n, hq.checked hg, ?_, hlock⟩, ?_⟩
      · exact hq.forall_mem (P := fun _ v => A.Admits (.roundChange v.2)) ha fun _ _ => hadmits
      · intro e he
        rcases List.mem_append.1 he with he | he
        · exact hsilent e he
        · rw [List.mem_singleton.1 he]
          exact ⟨hproved, hadmits⟩

theorem backed_new : Backed E C A (Instance.new E C) where
  tally := Tally.backed_new 0
  gathered _ := ⟨nofun, nofun, List.nodup_nil⟩
  admitted _ := nofun
  lock := nofun

/-- Along moves all is backed, as long as the node may hear its own votes. -/
theorem backed_of_chain {log : List Effect} (h : Chain (Move E A) (Instance.new E C) log i)
    (hlog : ∀ e ∈ log, A.AdmitsOwn e) :
    Backed E C A i ∧ ∀ e ∈ log, e.Backed E.scheme C A := by
  have hinv := h.preserves_nil (P := fun i log => Formed E C A i ∧ ((∀ e ∈ log, A.AdmitsOwn e) →
    Backed E C A i ∧ ∀ e ∈ log, e.Backed E.scheme C A)) ?_ ?_
  · exact hinv.2 hlog
  · rintro i j log es ⟨hf, hi⟩ hm
    refine ⟨hf.move hm, fun hall => ?_⟩
    obtain ⟨hb, hold⟩ := hi fun e he => hall e (List.mem_append_left _ he)
    obtain ⟨hb', hnew⟩ := hm.backed hf hb fun e he => hall e (List.mem_append_right _ he)
    exact ⟨hb', fun e he => (List.mem_append.1 he).elim (hold e) (hnew e)⟩
  · exact ⟨formed_new, fun _ => ⟨backed_new, nofun⟩⟩

end Instance

end BlockAgreement
