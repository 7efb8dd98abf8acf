import BlockAgreement.Proofs.Delivery
import BlockAgreement.Proofs.Locking
import BlockAgreement.Proofs.Network
import BlockAgreement.Proofs.Overlap

/-! Honest nodes agree. Two quorums share an honest validator, who speaks for one block in a round
and, once it committed a block, claims that block or a later one in its round changes. So whatever
is prepared after a quorum committed a block is that block. -/

namespace BlockAgreement

namespace Network

variable {N : Network} {w : World} {n r : UInt32} {d e : Digest}

/-- Of two quorums that were heard, one honest node said what each of them said. -/
theorem Reachable.exists_sender (hw : N.Reachable w) {P Q : Type} [Statement P] [Statement Q]
    {ms : List (Signed P)} {ns : List (Signed Q)} {told : Signed P → Message → Prop}
    {told' : Signed Q → Message → Prop} (hq : N.committee.Quorate N.scheme ms)
    (hms : ∀ m ∈ ms, N.Genuine w m (told m)) (hq' : N.committee.Quorate N.scheme ns)
    (hns : ∀ m ∈ ns, N.Genuine w m (told' m)) :
    ∃ a h, w a = some h ∧ N.Runs w a h ∧
      (∃ m ∈ ms, ∃ x ∈ h.sent, told m x) ∧ ∃ m ∈ ns, ∃ x ∈ h.sent, told' m x := by
  obtain ⟨a, ha, ⟨m, hm, hma⟩, m', hm', hma'⟩ := hq.exists_common N.few_faulty hq'
  obtain ⟨h, hwa, x, hx, hmx⟩ := hms m hm a ha (Committee.author_eq_ok_iff.1 hma).1
  obtain ⟨h', hwa', x', hx', hmx'⟩ := hns m' hm' a ha (Committee.author_eq_ok_iff.1 hma').1
  cases hwa.symm.trans hwa'
  exact ⟨a, h, hwa, hw.runs a h hwa, ⟨m, hm, x, hx, hmx⟩, m', hm', x', hx', hmx'⟩

/-- In one round a quorum prepares one block at most. -/
theorem Reachable.prepared_unique (hw : N.Reachable w)
    (hd : Prepared N.scheme N.committee (N.outside w) n d)
    (he : Prepared N.scheme N.committee (N.outside w) n e) : d = e := by
  obtain ⟨ms, hms, hheard⟩ := hd
  obtain ⟨ns, hns, hheard'⟩ := he
  obtain ⟨hfor, hq⟩ := Committee.checkPrepares_eq_ok_iff.1 hms
  obtain ⟨hfor', hq'⟩ := Committee.checkPrepares_eq_ok_iff.1 hns
  obtain ⟨a, h, -, hr, ⟨m, hm, _, hx, x, rfl, hxm⟩, m', hm', _, hy, y, rfl, hym⟩ :=
    hw.exists_sender hq hheard hq' hheard'
  rw [hfor m hm] at hxm
  rw [hfor' m' hm'] at hym
  have hvoted := Instance.voted_of_chain hr.chain
  have hround : ∀ {z : Prepare} {c : Digest}, z.statement = ⟨⟨N.committee.height, n⟩, c⟩ →
      (Message.prepare z).round.number = n ∧ (Message.prepare z).digest? = some c := by
    intro z c hz
    refine ⟨?_, by rw [Message.digest?, hz]⟩
    rw [Message.round, Signed.round, hz]
    rfl
  obtain ⟨hxn, hxd⟩ := hround hxm
  obtain ⟨hyn, hyd⟩ := hround hym
  exact hvoted.sameBlock (.inr id) hx hy hxn hyn d e hxd hyd

theorem Reachable.prepared_of_committed (hw : N.Reachable w)
    (hd : Committed N.scheme N.committee (N.outside w) n d) :
    Prepared N.scheme N.committee (N.outside w) n d := by
  obtain ⟨ms, hq, hms⟩ := hd
  obtain ⟨a, h, hwa, hr, ⟨m, hm, _, hx, x, rfl, hxm⟩, -⟩ :=
    hw.exists_sender hq (fun m hm => (hms m hm).1) hq (fun m hm => (hms m hm).1)
  obtain ⟨-, hround, hdigest⟩ := hms m hm
  have hbacked := hr.backed hwa _ (History.mem_sent.1 hx)
  have hxr : x.round = ⟨N.committee.height, n⟩ := by rw [← hround, Signed.round, hxm]; rfl
  rwa [Effect.Backed, hxr, hxm, hdigest] at hbacked

/-- What a quorum prepared was proposed, and the proposal was justified. -/
theorem Reachable.exists_proposal (hw : N.Reachable w)
    (hd : Prepared N.scheme N.committee (N.outside w) n d) :
    ∃ p : Proposal, p.Backed N.scheme N.committee (N.outside w) ∧
      p.round = ⟨N.committee.height, n⟩ ∧ p.digest = d := by
  obtain ⟨ms, hms, hheard⟩ := hd
  obtain ⟨hfor, hq⟩ := Committee.checkPrepares_eq_ok_iff.1 hms
  obtain ⟨a, h, hwa, hr, ⟨m, hm, _, hx, x, rfl, hxm⟩, -⟩ := hw.exists_sender hq hheard hq hheard
  obtain ⟨p, hp, hpr, hpd⟩ := hr.backed hwa _ (History.mem_sent.1 hx)
  rw [hfor m hm] at hxm
  refine ⟨p, hp, ?_, by rw [hpd, hxm]⟩
  rw [hpr, Signed.round, hxm]
  rfl

/-- Once a quorum committed in a round, a quorum that moves to a later one claims a block that was
prepared in that round or after it. -/
theorem Reachable.exists_claim (hw : N.Reachable w) {rcs : List (Signed RoundChangeStatement)}
    (hd : Committed N.scheme N.committee (N.outside w) r d) (hlt : r < n)
    (hq : N.committee.Quorate N.scheme rcs) (hrcs : ∀ m ∈ rcs, (N.outside w).roundChange m)
    (hround : ∀ m ∈ rcs, m.statement.round = ⟨N.committee.height, n⟩) :
    ∃ c ∈ rcs.filterMap (·.statement.claim), r ≤ c.round := by
  obtain ⟨ms, hqm, hms⟩ := hd
  obtain ⟨a, h, hwa, hr, ⟨m, hm, _, hx, x, rfl, hxm⟩, rc, hrc, _, hy, y, rfl, hyrc⟩ :=
    hw.exists_sender hqm (fun m hm => (hms m hm).1) hq hrcs
  have hxr : x.round.number = r := by rw [Signed.round, hxm, ← Signed.round, (hms m hm).2.1]
  have hyr : y.round.number = n := by rw [RoundChange.round, hyrc, hround rc hrc]
  have hlocked := Instance.locked_of_chain hr.chain (N.serves a hr.honest).sound
  obtain ⟨c, hc, hcovers⟩ := hlocked.announced x y hx hy (by rw [hxr, hyr]; exact hlt)
  refine ⟨c, List.mem_filterMap.2 ⟨rc, hrc, ?_⟩, hxr ▸ hcovers.1⟩
  rw [← hyrc]
  exact hc

/-- From the round on in which a quorum committed a block, no other block is prepared. By induction
on the round: a later proposal answers the highest claim, which is of a round in between. -/
theorem Reachable.prepared_after (hw : N.Reachable w)
    (hd : Committed N.scheme N.committee (N.outside w) r d) (hle : r ≤ n)
    (he : Prepared N.scheme N.committee (N.outside w) n e) : e = d := by
  induction hk : n.toNat using Nat.strong_induction_on generalizing n e with
  | _ k ih =>
    subst hk
    rcases UInt32.lt_or_eq_of_le hle with hlt | rfl
    · obtain ⟨p, hp, hround, rfl⟩ := hw.exists_proposal he
      have h0 : p.round.number ≠ 0 := by
        rw [hround]
        exact fun h0 => absurd (h0 ▸ hlt : r < 0) UInt32.not_lt_zero
      obtain ⟨⟨hrcs, hq⟩, hclaims⟩ := (Committee.checkJustification_eq_ok_iff h0).1 hp.justified
      obtain ⟨c, hc, hrc⟩ := hw.exists_claim hd hlt hq hp.admits.1 fun m hm =>
        (hrcs m hm).1.trans hround
      rcases Committee.checkClaims_eq_ok_iff.1 hclaims with ⟨hnone, -⟩ | ⟨c', hc', hpd, hproof⟩
      · rw [hnone] at hc
        cases hc
      · obtain ⟨m, hm, hmc⟩ := List.mem_filterMap.1 hc'.1
        have hlater : c'.round < n := by
          have := (hrcs m hm).2 c' hmc
          rwa [hround] at this
        rw [hround] at hproof
        rw [hpd]
        exact ih c'.round.toNat (UInt32.lt_iff_toNat_lt.1 hlater)
          (UInt32.le_trans hrc (hc'.2 c hc).1) ⟨p.prepares, hproof, hp.admits.2⟩ rfl
    · exact hw.prepared_unique he (hw.prepared_of_committed hd)

theorem Reachable.committed_unique (hw : N.Reachable w)
    (hd : Committed N.scheme N.committee (N.outside w) r d)
    (he : Committed N.scheme N.committee (N.outside w) n e) : d = e := by
  rcases UInt32.le_total r n with hle | hle
  · exact (hw.prepared_after hd hle (hw.prepared_of_committed he)).symm
  · exact hw.prepared_after he hle (hw.prepared_of_committed hd)

/-- No two honest nodes ever hand over different blocks, whatever the faulty do, as long as there
are few enough of them and the timer of the last round does not run out. -/
theorem agreement (hw : N.Reachable w) {a b : Address} {h k : History} (ha : w a = some h)
    (hb : w b = some k) {x y : Block} {xs ys : List Signature} {xok yok : Bool}
    (hx : .deliverBlock x xs xok ∈ h.log) (hy : .deliverBlock y ys yok ∈ k.log) :
    N.scheme.digest x = N.scheme.digest y := by
  obtain ⟨-, -, n, hcommitted⟩ := (hw.runs a h ha).backed ha _ hx
  obtain ⟨-, -, n', hcommitted'⟩ := (hw.runs b k hb).backed hb _ hy
  exact hw.committed_unique hcommitted hcommitted'

/-- The faulty validator prepares and commits with the others. -/
def faultyVotes : List Message :=
  let digest := Scheme.plain.digest (.plain 1 [])
  [.prepare <$> (Signer.plain (.ofNat 4)).prepare .plain ⟨1, 0⟩ digest,
    .commit <$> (Signer.plain (.ofNat 4)).commit .plain ⟨1, 0⟩ digest].filterMap Except.toOption

/-- The proposer and another node, who hear each other and the faulty one. -/
def plainTalk : History × History :=
  let hear (a : Address) (h : History) (ms : List Message) : History :=
    (ms.map fun m => ⟨.plain, .message m⟩).foldl (.after (.plain a)) h
  let h := History.opening (.plain (.ofNat 2)) (.plain 3) .plain
  let k := History.opening (.plain (.ofNat 3)) (.plain 3) .plain
  let k := hear (.ofNat 3) k (h.sent ++ faultyVotes)
  let h := hear (.ofNat 2) h (k.sent ++ faultyVotes)
  (h, hear (.ofNat 3) k h.sent)

theorem admits_faultyVotes (w : World) : ∀ m ∈ faultyVotes, (plain.outside w).Admits m := by
  have hfaulty : .ofNat 4 ∈ plain.faulty := Finset.mem_singleton_self _
  have hsound := Setup.plain_sound (.ofNat 4)
  intro m hm
  obtain ⟨x, hx, hm⟩ := List.mem_filterMap.1 hm
  simp only [List.mem_cons, List.not_mem_nil, or_false] at hx
  rcases hx with rfl | rfl
  · obtain ⟨v, hv⟩ : ∃ v, (Signer.plain (.ofNat 4)).prepare .plain ⟨1, 0⟩
      (Scheme.plain.digest (.plain 1 [])) = .ok v := ⟨_, rfl⟩
    rw [hv] at hm
    cases hm
    obtain ⟨hs, hg⟩ := Signer.attest_eq_ok_iff.1 hv
    exact genuine_of_faulty hfaulty (hsound.author_eq (hs ▸ hg))
  · obtain ⟨v, hv⟩ : ∃ v, (Signer.plain (.ofNat 4)).commit .plain ⟨1, 0⟩
      (Scheme.plain.digest (.plain 1 [])) = .ok v := ⟨_, rfl⟩
    rw [hv] at hm
    cases hm
    exact genuine_of_faulty hfaulty (hsound.author_eq (Signer.commit_eq_ok hv).2.2.1)

theorem agreement_plain : ∃ w x y xs ys xok yok,
    plain.Reachable w ∧ w (.ofNat 2) = some plainTalk.1 ∧ w (.ofNat 3) = some plainTalk.2 ∧
    .deliverBlock x xs xok ∈ plainTalk.1.log ∧ .deliverBlock y ys yok ∈ plainTalk.2.log ∧
    plain.scheme.digest x = plain.scheme.digest y := by
  have hne : (.ofNat 2 : Address) ≠ .ofNat 3 := by decide
  have heard : ∀ {k : History}, ∀ m ∈ k.sent ++ faultyVotes,
      m ∈ k.sent ∨ ∀ w, (plain.outside w).Admits m := fun m hm =>
    (List.mem_append.1 hm).imp id fun hm w => admits_faultyVotes w m hm
  have hjoint : plain.Joint (.ofNat 2) (.ofNat 3) plainTalk.1 plainTalk.2 := by
    have hj := joint_opening (N := plain) (a := .ofNat 2) (b := .ofNat 3) (by decide) (by decide)
      hne .plain .plain
    exact (((hj.symm.hear hne.symm heard).symm.hear hne heard).symm.hear hne.symm
      fun m hm => .inl hm).symm
  obtain ⟨w, hw, ha, hb⟩ := hjoint
  obtain ⟨x, xs, xok, hx⟩ := exists_deliverBlock
    (show plainTalk.1.log.any Effect.isDelivery = true by decide +kernel)
  obtain ⟨y, ys, yok, hy⟩ := exists_deliverBlock
    (show plainTalk.2.log.any Effect.isDelivery = true by decide +kernel)
  exact ⟨w, x, y, xs, ys, xok, yok, hw, ha, hb, hx, hy, agreement hw ha hb hx hy⟩

end Network

end BlockAgreement
