import BlockAgreement.Proofs.Delivery
import BlockAgreement.Proofs.LastRound

/-! What a node sends is taken by its peers. The node puts its messages together from what it has
gathered and does not check them itself; that they pass the checks follows from what it holds: each
proposal is justified and made in its turn, each claim is of a round before the one it goes to, and
each vote is for the block that was proposed in its round. -/

namespace BlockAgreement

variable {E : Setup} {C : Committee} {A : Outside}

variable (E C) in
/-- The checks of those who hear it would take the message, as the node's own. -/
def Effect.Valid : Effect → Prop
  | .multicast (.proposal p) => C.checkProposal E.scheme p = .ok E.signer.address
  | .multicast (.prepare m) =>
    C.checkPrepare E.scheme m.round m.statement.digest m = .ok E.signer.address
  | .multicast (.commit m) =>
    C.checkCommit E.scheme m.round m.statement.digest m = .ok E.signer.address
  | .multicast (.roundChange rc) => C.checkRoundChange E.scheme rc = .ok E.signer.address
  | _ => True

theorem Effect.Silent.valid {e : Effect} (h : e.Silent) : e.Valid E C := by
  cases e with
  | multicast => exact h.elim
  | deliverBlock | startTimer | cancelTimer | requestBlock => trivial

variable (hE : E.Sound) (hmember : C.contains E.signer.address = true)
  (hblock : ∀ b, A.block b → b.number = C.height) (hlast : ¬ A.lastExpires)

include hE hmember in
theorem Setup.Sound.author_of_sign {P : Type} [Statement P] {m : Signed P}
    (h : E.signer.sign (Statement.hash E.scheme m.statement) = .ok m.signature) :
    C.author E.scheme m = .ok E.signer.address :=
  Committee.author_eq_ok_iff.2 ⟨hE.author_eq h, hmember⟩

namespace Round

variable {own : Proposal → Prop} {r s : Round} {p : Proposal} {es : List Effect} {t : Tally}

include hE hmember in
theorem Answers.valid (h : Answers E C r p es t) : ∀ e ∈ es, e.Valid E C := by
  cases h with
  | silent => exact nofun
  | @prepare _ _ m _ hm _ =>
    intro e he
    obtain ⟨hs, hg⟩ := Signer.attest_eq_ok_iff.1 hm
    rw [← hs] at hg
    rw [List.mem_singleton.1 he]
    exact Committee.checkPrepare_eq_ok_iff.2
      ⟨Committee.voter_eq_ok_iff.2 ⟨hE.author_of_sign hmember hg, rfl⟩, rfl⟩

include hE hmember in
theorem Move.valid (h : Move E C A own r es s)
    (hown : ∀ p, own p → p.round = r.id → C.checkProposal E.scheme p = .ok E.signer.address) :
    ∀ e ∈ es, e.Valid E C := by
  cases h with
  | prepare | commit => exact nofun
  | take _ _ h => exact h.valid hE hmember
  | propose hp hr h => exact List.forall_mem_cons.2 ⟨hown _ hp hr, h.valid hE hmember⟩
  | @confirm _ p m _ _ _ hm _ =>
    intro e he
    obtain ⟨-, hd, hg, hseal⟩ := Signer.commit_eq_ok hm
    rw [List.mem_singleton.1 he]
    refine Committee.checkCommit_eq_ok_iff.2
      ⟨Committee.voter_eq_ok_iff.2 ⟨hE.author_of_sign hmember hg, rfl⟩, rfl, ?_⟩
    rw [hd]
    exact hE _ _ hseal
  | deliver => exact fun e he => List.mem_singleton.1 he ▸ trivial

end Round

namespace Instance

variable {i j : Instance} {es log : List Effect}

include hE hmember hblock in
theorem Backed.checkProposal {p : Proposal} (hi : Backed E C A i) (hc : i.committee = C)
    (hh : p.round.height = C.height) (h : MayPropose E A i p) :
    C.checkProposal E.scheme p = .ok E.signer.address := by
  have hb := hi.proposal hc (by rw [← hh]) h
  have hturn := h.turn
  rw [hc] at hturn
  refine Committee.checkProposal_eq_ok_iff.2 ⟨hE.author_of_sign hmember h.signed, hh, hturn,
    hb.digest, ?_, hb.justified⟩
  rw [hh]
  exact hb.fits.elim (hblock _) id

include hE hmember hblock in
/-- The claim of a lock is of an earlier round than the one that the node goes to. -/
theorem Backed.checkRoundChange {n : UInt32} {rc : RoundChange} (hi : Backed E C A i)
    (hlt : i.round.id.number < n)
    (h : E.signer.changeRound E.scheme ⟨C.height, n⟩ i.lock = .ok rc) :
    C.checkRoundChange E.scheme rc = .ok E.signer.address := by
  obtain ⟨hr, hcl, hb, hps, hg⟩ := Signer.changeRound_eq_ok h
  refine Committee.checkRoundChange_eq_ok_iff.2
    ⟨hE.author_of_sign hmember hg, by rw [hr], fun c b hc hrb => ?_⟩
  rw [hcl] at hc
  rw [hb] at hrb
  obtain ⟨l, hl, rfl⟩ := Option.map_eq_some_iff.1 hc
  rw [hl] at hrb hps
  cases hrb
  obtain ⟨hlock, hle⟩ := hi.lock l hl
  refine Committee.checkClaim_eq_ok_iff.2 ⟨?_, hlock.digest, ?_, ?_⟩
  · rw [hr]
    exact UInt32.lt_of_le_of_lt hle hlt
  · rw [hr]
    exact hlock.fits.elim (hblock _) id
  · rw [hr, hps]
    exact hlock.proved

include hE hmember hblock hlast in
theorem Move.valid (h : Move E A i es j) (hf : Formed E C A i) (hi : Backed E C A i) :
    ∀ e ∈ es, e.Valid E C := by
  have hc := hf.committee
  cases h with
  | round h =>
    rw [hc] at h
    refine h.valid hE hmember fun p hp hr => hi.checkProposal hE hmember hblock hc ?_ hp
    rw [hr]
    exact hf.height
  | note | mark | hold | gather => exact nofun
  | ask he => exact fun e h => List.mem_singleton.1 h ▸ he.valid
  | enter hn hfs h =>
    intro e he
    rcases List.mem_append.1 he with he | he
    · exact (hfs e he).valid
    cases h with
    | silent => cases he
    | roundChange hrc =>
      rw [List.mem_singleton.1 he]
      rw [hc] at hrc
      exact hi.checkRoundChange hE hmember hblock
        (hn.later.resolve_right fun h => hlast h.2.2) hrc

include hE hmember hblock hlast in
theorem valid_of_chain (h : Chain (Move E A) (Instance.new E C) log i)
    (hown : ∀ e, A.AdmitsOwn e) : ∀ e ∈ log, e.Valid E C := by
  have hinv := h.preserves_nil (P := fun i log =>
    Formed E C A i ∧ Backed E C A i ∧ ∀ e ∈ log, e.Valid E C) ?_ ⟨formed_new, backed_new, nofun⟩
  · exact hinv.2.2
  · rintro i j log es ⟨hf, hi, hlog⟩ hm
    refine ⟨hf.move hm, (hm.backed hf hi fun e _ => hown e).1, fun e he => ?_⟩
    rcases List.mem_append.1 he with he | he
    · exact hlog e he
    · exact hm.valid hE hmember hblock hlast hf hi e he

/-! ### Proposals and votes are for the round in which a call ends -/

theorem Move.told (h : Move E A i es j) : ∀ m, .multicast m ∈ es → m.round = j.round.id := by
  intro m hm
  cases h with
  | @round _ r h =>
    have hid : r.id = i.round.id := h.follows.tally.round
    rw [hid]
    exact h.sends.round m (List.mem_filterMap.2 ⟨_, hm, rfl⟩)
  | note | mark | hold | gather => cases hm
  | ask he => exact (List.mem_singleton.1 hm ▸ he : (Effect.multicast m).Silent).elim
  | enter _ hfs h =>
    rcases List.mem_append.1 hm with hm | hm
    · exact (hfs _ hm).elim
    cases h with
    | silent => cases hm
    | roundChange hrc =>
      cases List.mem_singleton.1 hm
      exact (Signer.changeRound_eq_ok hrc).1

theorem told_of_stay (h : Chain (Stay E A) i es j) :
    ∀ m, .multicast m ∈ es → m.round = j.round.id := by
  refine h.preserves_nil (P := fun j log => ∀ m, .multicast m ∈ log → m.round = j.round.id) ?_ nofun
  intro s t log es hlog hm m he
  rcases List.mem_append.1 he with he | he
  · rw [hm.2]
    exact hlog m he
  · exact hm.1.told m he

theorem Arrives.told {α : Type} {o : Outcome Instance α} {Q : Except Error α → Instance → Prop}
    (h : Arrives E A i o Q) {m : Message} (hm : .multicast m ∈ o.effects)
    (hk : m.kind ≠ .roundChange) : m.round = o.state.round.id := by
  obtain ⟨k, es, fs, he, -, hes, hs, -⟩ := h
  rw [he] at hm
  rcases List.mem_append.1 hm with hm | hm
  · exact absurd (hes _ hm) hk
  · exact told_of_stay hs m hm

include hlast in
theorem Move.lt_or_follows (h : Move E A i es j) :
    i.round.id.number < j.round.id.number ∨ j.round.Follows i.round := by
  cases h with
  | round h => exact .inr h.follows
  | note | ask | mark | hold | gather => exact .inr (.refl _)
  | enter hn => exact .inl (hn.later.resolve_right fun h => hlast h.2.2)

include hlast in
/-- As long as the round is the same it goes on, since no round is entered twice. -/
theorem follows_of_same (h : Chain (Move E A) i es j) (hid : j.round.id = i.round.id) :
    j.round.Follows i.round := by
  have hinv := h.preserves_state (P := fun j =>
    i.round.id.number < j.round.id.number ∨ j.round.Follows i.round) ?_ (.inr (.refl _))
  · exact hinv.resolve_left fun hlt => absurd (hid ▸ hlt) (UInt32.lt_irrefl _)
  · intro s t es hs hm
    rcases hs with hlt | hs
    · exact .inl (UInt32.lt_of_lt_of_le hlt hm.round_le)
    · have hnumber : s.round.id.number = i.round.id.number :=
        congrArg RoundId.number hs.tally.round
      rcases hm.lt_or_follows hlast with hlt | ht
      · exact .inl (hnumber ▸ hlt)
      · exact .inr (ht.trans hs)

include hlast in
theorem Voted.sent_of_current {m : Message} (h : Voted A i log) (hm : .multicast m ∈ log)
    (hr : m.round = i.round.id) : i.round.Sent m := by
  rcases h.sent m (List.mem_filterMap.2 ⟨_, hm, rfl⟩) with hlt | ⟨-, hexcused | hsent⟩
  · rw [hr] at hlt
    exact absurd hlt (UInt32.lt_irrefl _)
  · exact absurd hexcused.2 hlast
  · exact hsent

end Instance

namespace History

variable (E C) (first : Collaborators) (calls : List Call)

/-- After one of the calls the node was in this round and held this proposal. -/
def Accepted (round : RoundId) (p : Proposal) : Prop :=
  ∃ before, before <+: calls ∧ (run E C first before).inst.round.id = round ∧
    (run E C first before).inst.round.tally.proposal = some p

/-- The peers take the message, and a vote when they hold the proposal that the node accepted in
the round of the vote. -/
def Taken : Message → Prop
  | .proposal p => C.checkProposal E.scheme p = .ok E.signer.address
  | .prepare m => (∃ p, Accepted E C first calls m.round p) ∧
    ∀ p, Accepted E C first calls m.round p →
      C.checkPrepare E.scheme m.round p.digest m = .ok E.signer.address
  | .commit m => (∃ p, Accepted E C first calls m.round p) ∧
    ∀ p, Accepted E C first calls m.round p →
      C.checkCommit E.scheme m.round p.digest m = .ok E.signer.address
  | .roundChange rc => C.checkRoundChange E.scheme rc = .ok E.signer.address

variable {E C} {first calls} {m : Message}

include hlast in
/-- A proposal or vote was sent in a call that ended in its round, with the proposal that it is
for. -/
theorem exists_sent (hf : A.AdmitsBlocks C first)
    (hc : A.AdmitsCalls C E (opening E C first) calls) (hm : m ∈ (run E C first calls).sent)
    (hk : m.kind ≠ .roundChange) : ∃ before, before <+: calls ∧
      (run E C first before).inst.round.id = m.round ∧
        (run E C first before).inst.round.Sent m := by
  induction calls using List.reverseRecOn with
  | nil =>
    rw [mem_sent] at hm
    have hstart := Instance.start_does (E := E) first hf ⟨Instance.formed_new, fun _ => nofun⟩
    have hr := (Instance.Arrives.of_stay hstart).told hm hk
    have hvoted := Instance.voted_of_chain (run_chain hf hc).2
    exact ⟨[], List.prefix_refl _, hr.symm, hvoted.sent_of_current hlast hm hr⟩
  | append_singleton calls c ih =>
    have hvoted := Instance.voted_of_chain (run_chain hf hc).2
    obtain ⟨hs, -⟩ := run_chain hf (admitsCalls_left hc)
    have harrives := Instance.handle_arrives hs (hc calls c (List.prefix_refl _))
    have hlog := hm
    rw [mem_sent] at hlog
    rw [run_append, List.foldl_cons, List.foldl_nil, sent_after, List.mem_append] at hm
    rcases hm with hm | hm
    · obtain ⟨before, hb, h⟩ := ih (admitsCalls_left hc) hm
      exact ⟨before, hb.trans (List.prefix_append ..), h⟩
    · obtain ⟨e, he, hem⟩ := List.mem_filterMap.1 hm
      cases e with
      | multicast x =>
        cases hem
        have hr := harrives.told he hk
        have hstate : (run E C first (calls ++ [c])).inst =
            (Instance.handle E c (run E C first calls).inst).state := by
          rw [run_append]
          rfl
        rw [← hstate] at hr
        exact ⟨_, List.prefix_refl _, hr.symm, hvoted.sent_of_current hlast hlog hr⟩
      | deliverBlock | startTimer | cancelTimer | requestBlock => cases hem

include hlast in
theorem exists_accepted (hf : A.AdmitsBlocks C first)
    (hc : A.AdmitsCalls C E (opening E C first) calls) (hm : m ∈ (run E C first calls).sent)
    {d : Digest} (hd : m.digest? = some d) :
    ∃ p, Accepted E C first calls m.round p ∧ p.digest = d := by
  have hk : m.kind ≠ .roundChange := by
    cases m with
    | roundChange => cases hd
    | proposal | prepare | commit => exact nofun
  obtain ⟨before, hb, hr, hsent⟩ := exists_sent hlast hf hc hm hk
  obtain ⟨p, hp, hpd⟩ := hsent.digest d hd
  exact ⟨p, ⟨before, hb, hr, hp⟩, hpd⟩

include hlast in
/-- In one round the node accepts one proposal. -/
theorem accepted_unique (hf : A.AdmitsBlocks C first)
    (hc : A.AdmitsCalls C E (opening E C first) calls) {round : RoundId} {p q : Proposal}
    (hp : Accepted E C first calls round p) (hq : Accepted E C first calls round q) : p = q := by
  have hlater : ∀ {x y : List Call} {p q : Proposal}, x <+: y → y <+: calls →
      (run E C first x).inst.round.id = round → (run E C first y).inst.round.id = round →
      (run E C first x).inst.round.tally.proposal = some p →
      (run E C first y).inst.round.tally.proposal = some q → p = q := by
    rintro x _ p q ⟨more, rfl⟩ ⟨rest, rfl⟩ hx hy hp hq
    obtain ⟨es, -, hchain⟩ := extend_chain hf (admitsCalls_left hc)
    have hfollows := Instance.follows_of_same hlast hchain (hy.trans hx.symm)
    exact Option.some.inj ((hfollows.tally.proposal p hp).symm.trans hq)
  obtain ⟨x, hx, hxr, hxp⟩ := hp
  obtain ⟨y, hy, hyr, hyq⟩ := hq
  rcases List.prefix_or_prefix_of_prefix hx hy with hxy | hyx
  · exact hlater hxy hy hxr hyr hxp hyq
  · exact (hlater hyx hx hyr hxr hyq hxp).symm

include hE hmember in
/-- Whatever a member is given, its peers take all that it sends, as long as the timer of the last
round does not run out on it, blocks are made for the height that they are asked for, and signatures
made with its key are recovered to its address. -/
theorem sent_taken (hlast : ¬ LastExpired E C first calls) (hfirst : first.Numbered)
    (hcalls : ∀ c ∈ calls, c.ext.Numbered) :
    ∀ m ∈ (run E C first calls).sent, Taken E C first calls m := by
  let A := Outside.any (fun b => b.number = C.height) (LastExpired E C first calls)
  have hf : A.AdmitsBlocks C first := fun _ b hb => hfirst _ b hb
  have hc : A.AdmitsCalls C E (opening E C first) calls :=
    admitsCalls_any E C first calls _ fun c hc _ b hb => hcalls c hc _ b hb
  have hvalid := Instance.valid_of_chain (A := A) hE hmember (fun _ h => h) hlast
    (run_chain hf hc).2 fun e => Outside.admitsOwn_any e
  intro m hm
  have hcheck := hvalid _ (mem_sent.1 hm)
  cases m with
  | proposal | roundChange => exact hcheck
  | prepare v =>
    obtain ⟨p, hp, hd⟩ := exists_accepted (A := A) hlast hf hc hm rfl
    refine ⟨⟨p, hp⟩, fun q hq => ?_⟩
    rw [← accepted_unique (A := A) hlast hf hc hp hq, hd]
    exact hcheck
  | commit v =>
    obtain ⟨p, hp, hd⟩ := exists_accepted (A := A) hlast hf hc hm rfl
    refine ⟨⟨p, hp⟩, fun q hq => ?_⟩
    rw [← accepted_unique (A := A) hlast hf hc hp hq, hd]
    exact hcheck

/-- The prepares of two others of four, and then the end of the first round. -/
def leadingCalls : List Call :=
  let digest := Scheme.plain.digest (.plain 1 [])
  Call.plain [
    .prepare <$> (Signer.plain (.ofNat 1)).prepare .plain ⟨1, 0⟩ digest,
    .prepare <$> (Signer.plain (.ofNat 3)).prepare .plain ⟨1, 0⟩ digest] ++
    [⟨.plain, .roundExpiry ⟨1, 0⟩⟩]

/-- A node whose turn it is sends a message of each kind. -/
theorem sent_taken_leading :
    (Setup.plain (.ofNat 2)).Sound ∧ (Committee.plain 3).contains (.ofNat 2) = true ∧
    ¬ LastExpired (.plain (.ofNat 2)) (.plain 3) .plain leadingCalls ∧
    Collaborators.plain.Numbered ∧ (∀ c ∈ leadingCalls, c.ext.Numbered) ∧
    (run (.plain (.ofNat 2)) (.plain 3) .plain leadingCalls).sent.map Message.kind =
      [.proposal, .prepare, .commit, .roundChange] ∧
    ∀ m ∈ (run (.plain (.ofNat 2)) (.plain 3) .plain leadingCalls).sent,
      Taken (.plain (.ofNat 2)) (.plain 3) .plain leadingCalls m := by
  have hmember : (Committee.plain 3).contains (Setup.plain (.ofNat 2)).signer.address = true := by
    decide
  have hcalls : ∀ c ∈ leadingCalls, c.ext.Numbered := by
    intro c hc
    rcases List.mem_append.1 hc with hc | hc
    · exact Call.plain_numbered _ c hc
    · cases List.mem_singleton.1 hc
      exact Collaborators.plain_numbered
  have hlast : ¬ LastExpired (.plain (.ofNat 2)) (.plain 3) .plain leadingCalls := by
    rintro ⟨before, c, round, hb, hinput, hnumber, -⟩
    rcases List.mem_append.1 (hb.subset (List.mem_append_right _ (List.mem_singleton.2 rfl)) :
      c ∈ leadingCalls) with hc | hc
    · obtain ⟨m, -, hm⟩ := List.mem_filterMap.1 hc
      obtain ⟨m, -, rfl⟩ := Option.map_eq_some_iff.1 hm
      cases hinput
    · cases List.mem_singleton.1 hc
      cases hinput
      cases hnumber
  exact ⟨Setup.plain_sound _, hmember, hlast, Collaborators.plain_numbered, hcalls,
    by decide +kernel,
    sent_taken (Setup.plain_sound _) hmember hlast Collaborators.plain_numbered hcalls⟩

end History

end BlockAgreement
