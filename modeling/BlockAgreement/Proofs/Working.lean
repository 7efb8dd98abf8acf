import BlockAgreement.Proofs.Instance

/-! Rounds in which nothing fails: the key signs all it is to sign and is known for what it signs,
and those who take blocks take them. What a handler of a round does is then known exactly; and after
each, the round is at rest: what was to be sent or handed over is, so that going on once more does
nothing. -/

namespace BlockAgreement

/-! ### Counting votes -/

namespace Tally

variable {S : Scheme} {C : Committee} {t : Tally} {a : Address}

/-- The first prepare of an author counts. -/
def keepPrepare (t : Tally) (a : Address) (m : Prepare) : Tally :=
  if t.prepares.contains a then t else { t with prepares := t.prepares.insert a m }

/-- The first commit of an author counts. -/
def keepCommit (t : Tally) (a : Address) (m : Commit) : Tally :=
  if t.commits.contains a then t else { t with commits := t.commits.insert a m }

variable (S C) in
/-- Whose prepare it would be: with a proposal only for its block. -/
def preparer (t : Tally) (m : Prepare) : Except Error Address :=
  match t.proposal with
  | some p => C.checkPrepare S t.round p.digest m
  | none => C.voter S t.round m

variable (S C) in
/-- Whose commit it would be: with a proposal only for its block. -/
def committer (t : Tally) (m : Commit) : Except Error Address :=
  match t.proposal with
  | some p => C.checkCommit S t.round p.digest m
  | none => C.voter S t.round m

theorem preparer_of_none {m : Prepare} (hn : t.proposal = none) :
    t.preparer S C m = C.voter S t.round m := by
  rw [preparer, hn]

theorem preparer_of_some {m : Prepare} {p : Proposal} (hp : t.proposal = some p) :
    t.preparer S C m = C.checkPrepare S t.round p.digest m := by
  rw [preparer, hp]

theorem committer_of_none {m : Commit} (hn : t.proposal = none) :
    t.committer S C m = C.voter S t.round m := by
  rw [committer, hn]

theorem committer_of_some {m : Commit} {p : Proposal} (hp : t.proposal = some p) :
    t.committer S C m = C.checkCommit S t.round p.digest m := by
  rw [committer, hp]

theorem addPrepare_eq (t : Tally) (m : Prepare) :
    t.addPrepare S C m = (t.preparer S C m).map (t.keepPrepare · m) := by
  unfold addPrepare preparer
  obtain ⟨round, quorum, proposal, prepares, commits⟩ := t
  cases proposal with
  | some p =>
    dsimp only
    cases C.checkPrepare S round p.digest m <;> rfl
  | none =>
    dsimp only
    cases C.voter S round m <;> rfl

theorem addCommit_eq (t : Tally) (m : Commit) :
    t.addCommit S C m = (t.committer S C m).map (t.keepCommit · m) := by
  unfold addCommit committer
  obtain ⟨round, quorum, proposal, prepares, commits⟩ := t
  cases proposal with
  | some p =>
    dsimp only
    cases C.checkCommit S round p.digest m <;> rfl
  | none =>
    dsimp only
    cases C.voter S round m <;> rfl

/-- A second time the same prepare adds nothing, whatever votes were counted in between. -/
theorem keepPrepare_of_contains {m : Prepare} (h : t.prepares.contains a = true) :
    t.keepPrepare a m = t := if_pos h

theorem keepCommit_of_contains {m : Commit} (h : t.commits.contains a = true) :
    t.keepCommit a m = t := if_pos h

theorem keepPrepare_of_not_contains {m : Prepare} (h : t.prepares.contains a = false) :
    t.keepPrepare a m = { t with prepares := t.prepares.insert a m } := by
  rw [keepPrepare, if_neg (by rw [h]; exact Bool.false_ne_true)]

theorem keepCommit_of_not_contains {m : Commit} (h : t.commits.contains a = false) :
    t.keepCommit a m = { t with commits := t.commits.insert a m } := by
  rw [keepCommit, if_neg (by rw [h]; exact Bool.false_ne_true)]

theorem contains_keepPrepare (t : Tally) (a : Address) (m : Prepare) :
    (t.keepPrepare a m).prepares.contains a = true := by
  unfold keepPrepare
  split
  · assumption
  · simp [Table.contains, Table.find?_insert]

theorem contains_keepCommit (t : Tally) (a : Address) (m : Commit) :
    (t.keepCommit a m).commits.contains a = true := by
  unfold keepCommit
  split
  · assumption
  · simp [Table.contains, Table.find?_insert]

theorem keepPrepare_keeps (t : Tally) (a : Address) (m : Prepare) :
    (t.keepPrepare a m).round = t.round ∧ (t.keepPrepare a m).quorum = t.quorum ∧
      (t.keepPrepare a m).proposal = t.proposal ∧ (t.keepPrepare a m).commits = t.commits := by
  unfold keepPrepare
  split <;> exact ⟨rfl, rfl, rfl, rfl⟩

theorem keepCommit_keeps (t : Tally) (a : Address) (m : Commit) :
    (t.keepCommit a m).round = t.round ∧ (t.keepCommit a m).quorum = t.quorum ∧
      (t.keepCommit a m).proposal = t.proposal ∧ (t.keepCommit a m).prepares = t.prepares := by
  unfold keepCommit
  split <;> exact ⟨rfl, rfl, rfl, rfl⟩

theorem contains_keepCommit_of_contains {b : Address} (m : Commit)
    (h : t.commits.contains a = true) : (t.keepCommit b m).commits.contains a = true := by
  unfold keepCommit
  split
  · exact h
  · rw [Table.contains, Table.find?_insert]
    split
    · rfl
    · exact h

variable (S C) in
/-- The tally with a proposal, and without the votes for other blocks. -/
def adopt (t : Tally) (p : Proposal) : Tally :=
  { t with
    proposal := some p
    prepares := t.prepares.filter fun _ m => (C.checkPrepare S t.round p.digest m).isOk
    commits := t.commits.filter fun _ m => (C.checkCommit S t.round p.digest m).isOk }

theorem setProposal?_of_none {p : Proposal} (hn : t.proposal = none) :
    t.setProposal? S C p = some (t.adopt S C p) := by
  rw [setProposal?, hn, adopt]

theorem setProposal?_of_some {p q : Proposal} (hq : t.proposal = some q) :
    t.setProposal? S C p = none := by
  rw [setProposal?, hq]

end Tally

/-- A key that signs all it is to sign and is known for what it signs. -/
structure Setup.Able (E : Setup) : Prop where
  signs : ∀ h, ∃ g, E.signer.sign h = .ok g
  sound : E.Sound

/-- No block that is handed over is refused. -/
def Collaborators.Takes (ext : Collaborators) : Prop :=
  ∀ b seals, ext.importBlock b seals = .ok ()

variable {E : Setup} {C : Committee}

namespace Setup.Able

variable (hE : E.Able)
include hE

theorem exists_attest {P : Type} [Statement P] (p : P) :
    ∃ m, E.signer.attest E.scheme p = .ok m ∧ m.statement = p ∧
      m.author E.scheme = .ok E.signer.address := by
  obtain ⟨g, hg⟩ := hE.signs (Statement.hash E.scheme p)
  exact ⟨⟨p, g⟩, Signer.attest_eq_ok_iff.2 ⟨rfl, hg⟩, rfl, hE.sound.author_eq hg⟩

variable (hmember : C.contains E.signer.address = true) (round : RoundId) (digest : Digest)
include hmember

/-- The node's own prepare counts. -/
theorem exists_prepare : ∃ m, E.signer.prepare E.scheme round digest = .ok m ∧
    C.checkPrepare E.scheme round digest m = .ok E.signer.address := by
  obtain ⟨m, hm, hs, ha⟩ := hE.exists_attest (⟨round, digest⟩ : PrepareStatement)
  refine ⟨m, hm, ?_⟩
  rw [Committee.checkPrepare_eq_ok_iff, Committee.voter_eq_ok_iff, Committee.author_eq_ok_iff,
    Signed.round, hs]
  exact ⟨⟨⟨ha, hmember⟩, rfl⟩, rfl⟩

/-- The node's own commit counts. -/
theorem exists_commit : ∃ m, E.signer.commit E.scheme round digest = .ok m ∧
    C.checkCommit E.scheme round digest m = .ok E.signer.address := by
  obtain ⟨g, hg⟩ := hE.signs digest
  obtain ⟨m, hm, hs, ha⟩ := hE.exists_attest (⟨round, digest, g⟩ : CommitStatement)
  refine ⟨m, bind_eq_ok_iff.2 ⟨g, ?_, hm⟩, ?_⟩
  · rw [Signer.signHash, hg]
    rfl
  · rw [Committee.checkCommit_eq_ok_iff, Committee.voter_eq_ok_iff, Committee.author_eq_ok_iff,
      Signed.round, hs]
    exact ⟨⟨⟨ha, hmember⟩, rfl⟩, rfl, hE.sound _ _ hg⟩

end Setup.Able

namespace Round

variable {r s t : Round} (ext : Collaborators)

/-! ### Going on -/

/-- What is to be sent or handed over is. -/
structure Rested (r : Round) : Prop where
  confirmed : r.participates = true → r.isPrepared = true → r.commitSent = true
  delivered : r.isCommitted = true → r.delivered = true

variable (E C) in
/-- The node's commit goes out if it is due, and is counted. -/
inductive Confirms : Round → List Effect → Round → Prop
  | rest {r : Round} (h : r.participates = true → r.isPrepared = true → r.commitSent = true) :
      Confirms r [] r
  | commit {r : Round} {p : Proposal} {m : Commit} (hr : r.participates = true)
      (hprepared : r.isPrepared = true) (hs : r.commitSent = false)
      (hp : r.tally.proposal = some p) (hm : E.signer.commit E.scheme r.id p.digest = .ok m)
      (ha : C.checkCommit E.scheme r.id p.digest m = .ok E.signer.address) :
      Confirms r [.multicast (.commit m)]
        { r with tally := r.tally.keepCommit E.signer.address m, commitSent := true }

/-- The block is handed over if it is decided and was not before. -/
inductive Delivers : Round → List Effect → Round → Prop
  | rest {r : Round} (h : r.isCommitted = true → r.delivered = true) : Delivers r [] r
  | deliver {r : Round} {p : Proposal} {seals : List Signature} (hc : r.isCommitted = true)
      (hd : r.delivered = false) (hp : r.tally.proposal = some p) :
      Delivers r [.deliverBlock p.block seals true] { r with delivered := true }

theorem commitIfPrepared_of_rest
    (h : r.participates = true → r.isPrepared = true → r.commitSent = true) :
    commitIfPrepared E C r = ⟨.ok (), r, []⟩ := by
  have hrest : ¬ (r.participates && !r.commitSent && r.isPrepared) = true := by
    intro hdue
    simp only [Bool.and_eq_true, Bool.not_eq_true'] at hdue
    rw [h hdue.1.1 hdue.2] at hdue
    exact Bool.noConfusion hdue.1.2
  rw [commitIfPrepared, Handler.get_bind]
  cases r.tally.proposal with
  | none => rfl
  | some p =>
    dsimp only
    rw [if_neg hrest]
    rfl

theorem deliverIfCommitted_of_rest (h : r.isCommitted = true → r.delivered = true) :
    deliverIfCommitted ext r = ⟨.ok (), r, []⟩ := by
  rw [deliverIfCommitted, Handler.get_bind]
  cases hd : r.tally.decision? with
  | none => rfl
  | some d =>
    have hdelivered := h (Tally.decision?_eq_some hd).1
    dsimp only
    rw [if_neg (by simp [hdelivered])]
    rfl

/-- A round at rest stays as it is. -/
theorem progress_of_rested (h : r.Rested) : progress E C ext r = ⟨.ok (), r, []⟩ := by
  rw [progress, Handler.bind_of_ok _ (commitIfPrepared_of_rest h.confirmed),
    deliverIfCommitted_of_rest ext h.delivered]
  rfl

variable (hE : E.Able) (hr : r.participates = true → C.contains E.signer.address = true)

include hE hr in
theorem commitIfPrepared_works :
    ∃ es s, commitIfPrepared E C r = ⟨.ok (), s, es⟩ ∧ Confirms E C r es s := by
  by_cases hdue : r.participates = true ∧ r.isPrepared = true ∧ r.commitSent = false
  · obtain ⟨hmember, hprepared, hs⟩ := hdue
    obtain ⟨p, hp⟩ := (Tally.isPrepared_iff.1 hprepared).1
    obtain ⟨m, hm, ha⟩ := hE.exists_commit (hr hmember) r.id p.digest
    have hcount : r.tally.addCommit E.scheme C m =
        .ok (r.tally.keepCommit E.signer.address m) := by
      rw [Tally.addCommit_eq, Tally.committer, hp]
      dsimp only
      rw [show C.checkCommit E.scheme r.tally.round p.digest m = _ from ha]
      rfl
    refine ⟨_, _, ?_, .commit hmember hprepared hs hp hm ha⟩
    rw [commitIfPrepared, Handler.get_bind, hp]
    dsimp only
    rw [if_pos (by simp [hmember, hs, hprepared]), hm, Handler.ofExcept_ok_bind, Handler.set_bind,
      Handler.multicast, Handler.ask_bind, addCommit_apply, hcount]
    rfl
  · have hrest : r.participates = true → r.isPrepared = true → r.commitSent = true := by
      intro hmember hprepared
      by_contra hs
      exact hdue ⟨hmember, hprepared, by simpa using hs⟩
    exact ⟨_, _, commitIfPrepared_of_rest hrest, .rest hrest⟩

theorem deliverIfCommitted_works (hext : ext.Takes) :
    ∃ es s, deliverIfCommitted ext r = ⟨.ok (), s, es⟩ ∧ Delivers r es s := by
  by_cases hdue : r.isCommitted = true ∧ r.delivered = false
  · obtain ⟨hc, hd⟩ := hdue
    obtain ⟨p, hp⟩ := (Tally.isCommitted_iff.1 hc).1
    let seals := r.tally.commits.values.map (·.statement.blockSeal)
    have hdecision : r.tally.decision? = some (p.block, seals) := by
      rw [Tally.decision?, if_pos (show r.tally.isCommitted = true from hc), hp]
      rfl
    have ho : deliverIfCommitted ext r =
        ⟨.ok (), { r with delivered := true }, [.deliverBlock p.block seals true]⟩ := by
      rw [deliverIfCommitted, Handler.get_bind, hdecision]
      dsimp only
      rw [if_pos (by simp [hd]), Handler.set_bind, hext]
      rfl
    exact ⟨_, _, ho, .deliver hc hd hp⟩
  · have hrest : r.isCommitted = true → r.delivered = true := by
      intro hc
      by_contra hd
      exact hdue ⟨hc, by simpa using hd⟩
    exact ⟨_, _, deliverIfCommitted_of_rest ext hrest, .rest hrest⟩

/-- What a confirmation leaves as it was. -/
theorem Confirms.keeps {es : List Effect} (h : Confirms E C r es s) :
    s.id = r.id ∧ s.participates = r.participates ∧ s.tally.proposal = r.tally.proposal ∧
      s.tally.prepares = r.tally.prepares ∧ s.isPrepared = r.isPrepared ∧
        s.delivered = r.delivered := by
  cases h with
  | rest => exact ⟨rfl, rfl, rfl, rfl, rfl, rfl⟩
  | @commit p m =>
    obtain ⟨hround, hquorum, hproposal, hprepares⟩ :=
      r.tally.keepCommit_keeps E.signer.address m
    refine ⟨hround, rfl, hproposal, hprepares, ?_, rfl⟩
    simp only [isPrepared, Tally.isPrepared, hquorum, hproposal, hprepares]

theorem Confirms.confirmed {es : List Effect} (h : Confirms E C r es s)
    (hmember : s.participates = true) (hprepared : s.isPrepared = true) : s.commitSent = true := by
  cases h with
  | rest h => exact h hmember hprepared
  | commit => rfl

theorem Delivers.tally {es : List Effect} (h : Delivers r es s) : s.tally = r.tally := by
  cases h <;> rfl

theorem Delivers.rested {es : List Effect} (h : Delivers r es s)
    (hr : r.participates = true → r.isPrepared = true → r.commitSent = true) : s.Rested := by
  cases h with
  | rest h => exact ⟨hr, h⟩
  | deliver => exact ⟨hr, fun _ => rfl⟩

include hE hr in
theorem progress_works (hext : ext.Takes) : ∃ es fs s t, progress E C ext r =
    ⟨.ok (), t, es ++ fs⟩ ∧ Confirms E C r es s ∧ Delivers s fs t ∧ t.Rested := by
  obtain ⟨es, s, ho, hs⟩ := commitIfPrepared_works hE hr
  obtain ⟨fs, t, ho', ht⟩ := deliverIfCommitted_works ext (r := s) hext
  refine ⟨es, fs, s, t, ?_, hs, ht, ht.rested hs.confirmed⟩
  rw [progress, Handler.bind_of_ok _ ho, ho']

/-! ### Votes -/

variable (E C) in
/-- A handler adds a vote to the tally of the round, if it may be added, and goes on. -/
def Adds (add : Tally → Except Error Tally) (h : Collaborators → Handler Round Unit) : Prop :=
  ∀ ext r, h ext r = match add r.tally with
    | .error e => ⟨.error e, r, []⟩
    | .ok t => progress E C ext { r with tally := t }

theorem handlePrepare_adds (m : Prepare) :
    Adds E C (·.addPrepare E.scheme C m) (handlePrepare E C · m) := by
  intro ext r
  have ho := addPrepare_apply (E := E) (C := C) m r
  dsimp only
  cases ht : r.tally.addPrepare E.scheme C m with
  | error e =>
    rw [ht] at ho
    exact Handler.bind_of_error _ ho
  | ok t =>
    rw [ht] at ho
    exact Handler.bind_of_ok _ ho

theorem handleCommit_adds (m : Commit) :
    Adds E C (·.addCommit E.scheme C m) (handleCommit E C · m) := by
  intro ext r
  have ho := addCommit_apply (E := E) (C := C) m r
  dsimp only
  cases ht : r.tally.addCommit E.scheme C m with
  | error e =>
    rw [ht] at ho
    exact Handler.bind_of_error _ ho
  | ok t =>
    rw [ht] at ho
    exact Handler.bind_of_ok _ ho

/-- A prepare that was counted is counted, also once the node sent its commit. -/
theorem Confirms.addPrepare_again {m : Prepare} {u : Tally} {es : List Effect}
    (hu : r.tally.addPrepare E.scheme C m = .ok u)
    (h : Confirms E C { r with tally := u } es s) :
    s.tally.addPrepare E.scheme C m = .ok s.tally := by
  rw [Tally.addPrepare_eq] at hu ⊢
  obtain ⟨a, ha, rfl⟩ := map_eq_ok_iff.1 hu
  obtain ⟨hround, -, hproposal, -⟩ := r.tally.keepPrepare_keeps a m
  obtain ⟨hid, -, hproposal', hprepares, -⟩ := h.keeps
  have hpreparer : s.tally.preparer E.scheme C m = .ok a := by
    rw [← ha, Tally.preparer, Tally.preparer, hproposal'.trans hproposal,
      show s.tally.round = r.tally.round from hid.trans hround]
  have hcontains : s.tally.prepares.contains a = true := by
    rw [hprepares]
    exact Tally.contains_keepPrepare ..
  rw [hpreparer]
  exact congrArg Except.ok (Tally.keepPrepare_of_contains hcontains)

theorem Confirms.addCommit_again {m : Commit} {u : Tally} {es : List Effect}
    (hu : r.tally.addCommit E.scheme C m = .ok u)
    (h : Confirms E C { r with tally := u } es s) :
    s.tally.addCommit E.scheme C m = .ok s.tally := by
  rw [Tally.addCommit_eq] at hu ⊢
  obtain ⟨a, ha, rfl⟩ := map_eq_ok_iff.1 hu
  obtain ⟨hround, -, hproposal, -⟩ := r.tally.keepCommit_keeps a m
  obtain ⟨hid, -, hproposal', -⟩ := h.keeps
  have hcommitter : s.tally.committer E.scheme C m = .ok a := by
    rw [← ha, Tally.committer, Tally.committer, hproposal'.trans hproposal,
      show s.tally.round = r.tally.round from hid.trans hround]
  have hcontains : s.tally.commits.contains a = true := by
    cases h with
    | rest => exact Tally.contains_keepCommit ..
    | commit => exact Tally.contains_keepCommit_of_contains _ (Tally.contains_keepCommit ..)
  rw [hcommitter]
  exact congrArg Except.ok (Tally.keepCommit_of_contains hcontains)

/-- What becomes of a round by a handler, and that it changes nothing to handle the same again. -/
inductive Settles (h : Collaborators → Handler Round Unit) (ext : Collaborators) (r : Round) : Prop
  | refused {e : Error} (h : ∀ ext, h ext r = ⟨.error e, r, []⟩)
  | done {s : Round} {es : List Effect} (ho : h ext r = ⟨.ok (), s, es⟩) (hid : s.id = r.id)
      (hagain : ∀ ext, h ext s = ⟨.ok (), s, []⟩)

include hE hr in
theorem Adds.settles {add : Tally → Except Error Tally} {h : Collaborators → Handler Round Unit}
    (hadds : Adds E C add h) (hext : ext.Takes)
    (hround : ∀ u, add r.tally = .ok u → u.round = r.tally.round)
    (hagain : ∀ u es s, add r.tally = .ok u → Confirms E C { r with tally := u } es s →
      add s.tally = .ok s.tally) : Settles h ext r := by
  cases hu : add r.tally with
  | error e =>
    refine .refused (e := e) fun ext => ?_
    rw [hadds, hu]
  | ok u =>
    obtain ⟨es, fs, s, t, ho, hs, ht, hrested⟩ :=
      progress_works ext (r := { r with tally := u }) hE hr hext
    have htally := ht.tally
    have hdone : h ext r = ⟨.ok (), t, es ++ fs⟩ := by
      rw [hadds, hu]
      exact ho
    refine .done hdone ?_ fun ext => ?_
    · rw [id, htally]
      exact hs.keeps.1.trans (hround u hu)
    · rw [hadds, htally, hagain u es s hu hs]
      dsimp only
      rw [← htally]
      exact progress_of_rested ext hrested

include hE hr in
theorem handlePrepare_settles (hext : ext.Takes) (m : Prepare) :
    Settles (handlePrepare E C · m) ext r :=
  (handlePrepare_adds m).settles ext hE hr hext
    (fun _ hu => (Tally.addPrepare_extends hu).1.round) fun _ _ _ hu hs => hs.addPrepare_again hu

include hE hr in
theorem handleCommit_settles (hext : ext.Takes) (m : Commit) :
    Settles (handleCommit E C · m) ext r :=
  (handleCommit_adds m).settles ext hE hr hext
    (fun _ hu => (Tally.addCommit_extends hu).1.round) fun _ _ _ hu hs => hs.addCommit_again hu

/-! ### Proposals -/

variable (E C) in
/-- A proposal is taken, and a member answers it. -/
inductive Adopts (p : Proposal) : Round → List Effect → Round → Prop
  | watch {r : Round} (hr : r.participates = false) :
      Adopts p r [] { r with tally := r.tally.adopt E.scheme C p }
  | prepare {r : Round} {m : Prepare} (hr : r.participates = true)
      (hm : E.signer.prepare E.scheme r.id p.digest = .ok m)
      (ha : C.checkPrepare E.scheme r.id p.digest m = .ok E.signer.address) :
      Adopts p r [.multicast (.prepare m)]
        { r with tally := (r.tally.adopt E.scheme C p).keepPrepare E.signer.address m }

variable {p : Proposal}

theorem Adopts.keeps {es : List Effect} (h : Adopts E C p r es s) :
    s.id = r.id ∧ s.participates = r.participates ∧ s.tally.proposal = some p ∧
      s.tally.quorum = r.tally.quorum ∧ s.commitSent = r.commitSent ∧
        s.delivered = r.delivered := by
  cases h with
  | watch => exact ⟨rfl, rfl, rfl, rfl, rfl, rfl⟩
  | @prepare m =>
    obtain ⟨hround, hquorum, hproposal, -⟩ :=
      (r.tally.adopt E.scheme C p).keepPrepare_keeps E.signer.address m
    exact ⟨hround, rfl, hproposal, hquorum, rfl, rfl⟩

include hE hr in
/-- The first proposal is taken, and then the round goes on. -/
theorem acceptProposal_works (hn : r.tally.proposal = none) :
    ∃ es s, Adopts E C p r es s ∧ ∀ ext, acceptProposal E C ext p r =
      ⟨(progress E C ext s).result, (progress E C ext s).state,
        es ++ (progress E C ext s).effects⟩ := by
  have hset := Tally.setProposal?_of_none (S := E.scheme) (C := C) (p := p) hn
  cases hmember : r.participates with
  | false =>
    have ho : answer E C r p { r with tally := r.tally.adopt E.scheme C p } =
        ⟨.ok (), { r with tally := r.tally.adopt E.scheme C p }, []⟩ := by
      rw [answer, if_neg (by simp [hmember])]
      rfl
    refine ⟨_, _, .watch hmember, fun ext => ?_⟩
    rw [acceptProposal_of_some ext hset, Handler.bind_of_ok _ ho]
  | true =>
    obtain ⟨m, hm, ha⟩ := hE.exists_prepare (hr hmember) r.id p.digest
    have hcount : (r.tally.adopt E.scheme C p).addPrepare E.scheme C m =
        .ok ((r.tally.adopt E.scheme C p).keepPrepare E.signer.address m) := by
      rw [Tally.addPrepare_eq, Tally.preparer]
      exact congrArg (Except.map _) ha
    have ho : answer E C r p { r with tally := r.tally.adopt E.scheme C p } =
        ⟨.ok (), { r with
          tally := (r.tally.adopt E.scheme C p).keepPrepare E.signer.address m },
          [.multicast (.prepare m)]⟩ := by
      rw [answer, if_pos hmember, hm, Handler.ofExcept_ok_bind, Handler.multicast,
        Handler.ask_bind, addPrepare_apply, hcount]
      rfl
    refine ⟨_, _, .prepare hmember hm ha, fun ext => ?_⟩
    rw [acceptProposal_of_some ext hset, Handler.bind_of_ok _ ho]

/-- A second proposal changes nothing. -/
theorem acceptProposal_of_some_proposal {q : Proposal} (hq : r.tally.proposal = some q) :
    acceptProposal E C ext p r = ⟨.ok (), r, []⟩ := by
  rw [acceptProposal, Handler.get_bind, Tally.setProposal?_of_some hq]
  rfl

include hE hr in
theorem acceptProposal_settles (hext : ext.Takes) : ∃ s es,
    acceptProposal E C ext p r = ⟨.ok (), s, es⟩ ∧ s.id = r.id ∧
      ∃ q, s.tally.proposal = some q := by
  cases hq : r.tally.proposal with
  | some q => exact ⟨r, [], acceptProposal_of_some_proposal ext hq, rfl, q, hq⟩
  | none =>
    obtain ⟨es, s, hs, ho⟩ := acceptProposal_works hE hr (p := p) hq
    obtain ⟨hid, hmember, hproposal, -⟩ := hs.keeps
    obtain ⟨fs, gs, t, u, ho', ht, hu, -⟩ :=
      progress_works ext hE (hmember ▸ hr) hext
    obtain ⟨hid', -, hproposal', -⟩ := ht.keeps
    refine ⟨u, es ++ (fs ++ gs), ?_, ?_, p, ?_⟩
    · rw [ho, ho']
    · rw [id, hu.tally]
      exact hid'.trans hid
    · rw [hu.tally, hproposal', hproposal]

end Round

/-! ### Taking note -/

namespace Instance

variable {i : Instance} (ext : Collaborators)

/-- The lock is the one of the round, once this is prepared. -/
def keepLock (i : Instance) : Instance :=
  if i.round.isPrepared && i.lock.map Lock.round ≠ some i.round.id.number then
    { i with lock := i.round.tally.lock? }
  else i

theorem keepLock_keeps (i : Instance) : i.keepLock.committee = i.committee ∧
    i.keepLock.round = i.round ∧ i.keepLock.changing = i.changing ∧
      i.keepLock.roundChanges = i.roundChanges ∧ i.keepLock.backlog = i.backlog := by
  unfold keepLock
  split <;> exact ⟨rfl, rfl, rfl, rfl, rfl⟩

theorem keepLock_keepLock (i : Instance) : i.keepLock.keepLock = i.keepLock := by
  by_cases hnew : (i.round.isPrepared && i.lock.map Lock.round ≠ some i.round.id.number) = true
  · have hkept : i.keepLock = { i with lock := i.round.tally.lock? } := if_pos hnew
    rw [Bool.and_eq_true] at hnew
    obtain ⟨l, -, hl, hround, -⟩ := Tally.exists_lock hnew.1
    rw [hkept, keepLock, if_neg]
    dsimp only
    rw [hl]
    simp [hround, Round.id]
  · have hkept : i.keepLock = i := if_neg hnew
    rw [hkept, hkept]

theorem noteProgress_apply (i : Instance) : noteProgress i =
    ⟨.ok (), i.keepLock, if i.isCommitted then [.cancelTimer i.round.id] else []⟩ := by
  have hstop : ∀ j, (if i.isCommitted then .ask (.cancelTimer i.round.id) else pure () :
      Handler Instance Unit) j =
        ⟨.ok (), j, if i.isCommitted then [.cancelTimer i.round.id] else []⟩ := by
    intro j
    split <;> rfl
  rw [noteProgress, Handler.get_bind, keepLock]
  dsimp only
  split
  · rw [Handler.set_bind]
    exact hstop _
  · exact hstop i

/-! ### Votes of the current round -/

theorem handlePrepare_of_current {v : Prepare}
    (h : (Message.prepare v).round.number = i.round.id.number) :
    handleVote E ext (.prepare v) i =
      (onRound (Round.handlePrepare E i.committee ext v) >>= fun _ => noteProgress) i := by
  rw [handleVote, Handler.get_bind, if_neg (h ▸ UInt32.lt_irrefl _), if_pos h]

theorem handleCommit_of_current {v : Commit}
    (h : (Message.commit v).round.number = i.round.id.number) :
    handleVote E ext (.commit v) i =
      (onRound (Round.handleCommit E i.committee ext v) >>= fun _ => noteProgress) i := by
  rw [handleVote, Handler.get_bind, if_neg (h ▸ UInt32.lt_irrefl _), if_pos h]

/-! ### Proposals -/

/-- A proposal is taken in its round, and what came of it is noted. -/
def take (E : Setup) (C : Committee) (ext : Collaborators) (p : Proposal) :
    Handler Instance Unit := do
  onRound (Round.acceptProposal E C ext p)
  modify fun i => { i with changing := false }
  noteProgress

theorem take_apply {p : Proposal} {s : Round} {es : List Effect}
    (h : Round.acceptProposal E C ext p i.round = ⟨.ok (), s, es⟩) : take E C ext p i =
      ⟨.ok (), keepLock { i with round := s, changing := false },
        es ++ if s.isCommitted then [.cancelTimer s.id] else []⟩ := by
  rw [take, Handler.bind_of_ok _ (onRound_apply h), Handler.modify_bind, noteProgress_apply]
  rfl

section

variable {p : Proposal} {a : Address}

theorem handleProposal_of_past
    (h : ¬ (i.round.id.number ≤ p.round.number && !i.isCommitted) = true) :
    handleProposal E ext p i = ⟨.ok (), i, []⟩ := by
  rw [handleProposal, Handler.get_bind, if_neg h]
  rfl

variable (hopen : i.isCommitted = false)

theorem handleProposal_of_error {e : Error}
    (h : (i.round.id.number ≤ p.round.number && !i.isCommitted) = true)
    (hp : i.committee.checkProposal E.scheme p = .error e) :
    handleProposal E ext p i = ⟨.error e, i, []⟩ := by
  rw [handleProposal, Handler.get_bind, if_pos h, hp]
  rfl

include hopen in
theorem handleProposal_of_current (hp : i.committee.checkProposal E.scheme p = .ok a)
    (h : i.round.id.number = p.round.number) :
    handleProposal E ext p i = take E i.committee ext p i := by
  have hguard : (i.round.id.number ≤ p.round.number && !i.isCommitted) = true := by
    simp [h, hopen]
  rw [handleProposal, Handler.get_bind, if_pos hguard, hp, if_neg (h ▸ UInt32.lt_irrefl _)]
  rfl

include hopen in
theorem handleProposal_of_later (hp : i.committee.checkProposal E.scheme p = .ok a)
    (h : i.round.id.number < p.round.number) : handleProposal E ext p i =
      (advance E ext p.round.number >>= fun _ => take E i.committee ext p) i := by
  have hguard : (i.round.id.number ≤ p.round.number && !i.isCommitted) = true := by
    simp [hopen, UInt32.le_of_lt h]
  rw [handleProposal, Handler.get_bind, if_pos hguard, hp, if_pos h]
  rfl

end

end Instance

end BlockAgreement
