import BlockAgreement.Proofs.Run
import BlockAgreement.Proofs.Working

/-! What the votes of others come to in a round. Before the proposal the tables hold what was given
of the round; with the proposal they hold what was given for its block, and the node's own votes
when they were due. Everything in the round, and all that was said and handed over, follows from
which votes were given, so that their order is lost. -/

namespace BlockAgreement

namespace Table

variable {κ α : Type} [Ranked κ] {t u : Table κ α} {check check' : α → Except Error κ}
  {given given' : α → Prop} {k : κ} {m : α}

/-- The entries are those given that pass a check, under the keys that it finds. -/
def Enters (t : Table κ α) (check : α → Except Error κ) (given : α → Prop) : Prop :=
  ∀ k a, t.find? k = some a ↔ given a ∧ check a = .ok k

namespace Enters

theorem empty (check : α → Except Error κ) : (empty : Table κ α).Enters check fun _ => False :=
  fun _ _ => ⟨nofun, fun h => h.1.elim⟩

theorem congr (h : t.Enters check given) (hg : ∀ a, given' a ↔ given a) :
    t.Enters check given' :=
  fun k a => (h k a).trans (and_congr_left fun _ => (hg a).symm)

/-- A table is told from what was given. -/
theorem unique (ht : t.Enters check given) (hu : u.Enters check given)  : t = u := by
  refine ext_find? fun k => Option.ext fun a => ?_
  rw [ht k a, hu k a]

theorem not_contains (h : t.Enters check given) (hk : ∀ a, given a → check a ≠ .ok k) :
    t.contains k = false := by
  cases hf : t.find? k with
  | none => rw [contains, hf, Option.isSome_none]
  | some a =>
    obtain ⟨ha, hcheck⟩ := (h k a).1 hf
    exact absurd hcheck (hk a ha)

theorem insert [DecidableEq κ] (h : t.Enters check given) (hm : check m = .ok k)
    (hk : ∀ a, given a → check a ≠ .ok k) : (t.insert k m).Enters check fun a => given a ∨ a = m := by
  intro k' a
  rw [find?_insert]
  split
  · next heq =>
    subst heq
    constructor
    · rintro ⟨⟩
      exact ⟨.inr rfl, hm⟩
    · rintro ⟨ha | rfl, hcheck⟩
      · exact absurd hcheck (hk a ha)
      · rfl
  · next hne =>
    rw [h k' a]
    constructor
    · rintro ⟨ha, hcheck⟩
      exact ⟨.inl ha, hcheck⟩
    · rintro ⟨ha | rfl, hcheck⟩
      · exact ⟨ha, hcheck⟩
      · cases hm.symm.trans hcheck
        exact absurd rfl hne

/-- What fails the check is not entered. -/
theorem skip (h : t.Enters check given) (hm : ∀ k, check m ≠ .ok k) :
    t.Enters check fun a => given a ∨ a = m := by
  intro k a
  rw [h k a]
  constructor
  · rintro ⟨ha, hcheck⟩
    exact ⟨.inl ha, hcheck⟩
  · rintro ⟨ha | rfl, hcheck⟩
    · exact ⟨ha, hcheck⟩
    · exact absurd hcheck (hm k)

/-- A stricter check of what is entered. -/
theorem filter (h : t.Enters check given) (hcheck : ∀ a k, check' a = .ok k → check a = .ok k) :
    (t.filter fun _ a => (check' a).isOk).Enters check' given := by
  intro k a
  rw [find?_filter, Option.filter_eq_some_iff, h k a]
  constructor
  · rintro ⟨⟨ha, hk⟩, hok⟩
    obtain ⟨k', hk'⟩ := exists_eq_ok_of_isOk hok
    cases hk.symm.trans (hcheck a k' hk')
    exact ⟨ha, hk'⟩
  · rintro ⟨ha, hk⟩
    refine ⟨⟨ha, hcheck a k hk⟩, ?_⟩
    rw [hk]
    rfl

end Enters

end Table

/-! ### The votes of others -/

/-- A vote of this round by a member other than the node. -/
structure Ballot (E : Setup) (C : Committee) (round : RoundId) (m : Message) : Prop where
  kind : m.kind = .prepare ∨ m.kind = .commit
  round : m.round = round
  author : ∃ a, m.author E.scheme = .ok a ∧ C.contains a = true ∧ a ≠ E.signer.address

/-- Votes of this round, of each author one prepare and one commit at most. -/
structure Ballots (E : Setup) (C : Committee) (round : RoundId) (votes : List Message) : Prop where
  ballot : ∀ m ∈ votes, Ballot E C round m
  distinct : votes.Pairwise fun m n => m.kind = n.kind → m.author E.scheme ≠ n.author E.scheme

section

variable {E : Setup} {C : Committee} {round : RoundId} {votes votes' more : List Message}
  {m n : Message} {a : Address}

instance : Decidable (Ballot E C round m) :=
  decidable_of_iff ((m.kind = .prepare ∨ m.kind = .commit) ∧ m.round = round ∧
      ∃ a ∈ C.validators, m.author E.scheme = .ok a ∧ a ≠ E.signer.address) <| by
    constructor
    · rintro ⟨hkind, hround, a, ha, hauthor, hother⟩
      exact ⟨hkind, hround, a, hauthor, List.contains_iff_mem.2 ha, hother⟩
    · rintro ⟨hkind, hround, a, hauthor, ha, hother⟩
      exact ⟨hkind, hround, a, List.contains_iff_mem.1 ha, hauthor, hother⟩

instance : Decidable (Ballots E C round votes) :=
  decidable_of_iff ((∀ m ∈ votes, Ballot E C round m) ∧
      votes.Pairwise fun m n => m.kind = n.kind → m.author E.scheme ≠ n.author E.scheme)
    ⟨fun h => ⟨h.1, h.2⟩, fun h => ⟨h.ballot, h.distinct⟩⟩

namespace Ballots

theorem perm (h : Ballots E C round votes) (hp : votes.Perm votes') :
    Ballots E C round votes' where
  ballot m hm := h.ballot m (hp.mem_iff.2 hm)
  distinct := (hp.pairwise_iff fun hmn hkind => (hmn hkind.symm).symm).1 h.distinct

theorem left (h : Ballots E C round (votes ++ more)) : Ballots E C round votes where
  ballot m hm := h.ballot m (List.mem_append_left _ hm)
  distinct := (List.pairwise_append.1 h.distinct).1

/-- The author of a new vote, of whom there is no vote of this kind. -/
theorem exists_voter {P : Type} [Statement P] {w : Signed P → Message} {v : Signed P}
    (h : Ballots E C round (votes ++ [w v])) (hround : (w v).round = v.round)
    (hauthor : ∀ x, (w x).author E.scheme = x.author E.scheme)
    (hkind : ∀ x, (w x).kind = (w v).kind) :
    ∃ a, C.voter E.scheme round v = .ok a ∧ a ≠ E.signer.address ∧
      ∀ x, w x ∈ votes → x.author E.scheme ≠ .ok a := by
  have hb := h.ballot (w v) (List.mem_append_right _ (List.mem_singleton_self _))
  obtain ⟨a, ha, hmember, hother⟩ := hb.author
  refine ⟨a, ?_, hother, fun x hx hx' => ?_⟩
  · rw [Committee.voter_eq_ok_iff, Committee.author_eq_ok_iff, ← hauthor]
    exact ⟨⟨ha, hmember⟩, hround.symm.trans hb.round⟩
  · refine (List.pairwise_append.1 h.distinct).2.2 _ hx _ (List.mem_singleton_self _) (hkind x) ?_
    rw [hauthor, hx', ha]

theorem not_own (h : Ballots E C round votes) (hm : m ∈ votes) :
    m.author E.scheme ≠ .ok E.signer.address := by
  obtain ⟨a, ha, -, hother⟩ := (h.ballot m hm).author
  rw [ha]
  exact fun heq => hother (Except.ok.inj heq)

end Ballots

theorem Committee.author_of_voter {P : Type} [Statement P] {m : Signed P}
    (h : C.voter E.scheme round m = .ok a) : m.author E.scheme = .ok a :=
  (voter_eq_ok_iff_mem.1 h).1

end

/-- What is handed over. -/
def Effect.block? : Effect → Option Block
  | .deliverBlock b _ _ => some b
  | _ => none

namespace Round

variable (E : Setup) (C : Committee)

/-! ### Before the proposal -/

/-- These votes were given, and no proposal. -/
structure Awaits (round : RoundId) (votes : List Message) (r : Round) : Prop where
  id : r.id = round
  quorum : r.tally.quorum = C.quorum
  proposal : r.tally.proposal = none
  participates : r.participates = Instance.participates E C
  commitSent : r.commitSent = false
  delivered : r.delivered = false
  prepares : r.tally.prepares.Enters (C.voter E.scheme round) fun m => .prepare m ∈ votes
  commits : r.tally.commits.Enters (C.voter E.scheme round) fun m => .commit m ∈ votes

variable {E C} {round : RoundId} {votes : List Message} {r s : Round} {p : Proposal}
  (ext : Collaborators)

theorem awaits_fresh (number : UInt32) :
    Awaits E C ⟨C.height, number⟩ [] (Instance.freshRound E C number) where
  id := rfl
  quorum := rfl
  proposal := rfl
  participates := rfl
  commitSent := rfl
  delivered := rfl
  prepares := (Table.Enters.empty _).congr (by simp)
  commits := (Table.Enters.empty _).congr (by simp)

namespace Awaits

theorem handlePrepare {v : Prepare} (h : Awaits E C round votes r)
    (hb : Ballots E C round (votes ++ [.prepare v])) : ∃ s,
      Round.handlePrepare E C ext v r = ⟨.ok (), s, []⟩ ∧
        Awaits E C round (votes ++ [.prepare v]) s := by
  obtain ⟨a, hvoter, -, hnew⟩ := hb.exists_voter rfl (fun _ => rfl) fun _ => rfl
  have hfree : ∀ x, .prepare x ∈ votes → C.voter E.scheme round x ≠ .ok a :=
    fun x hx hx' => hnew x hx (Committee.author_of_voter hx')
  have hadd : r.tally.addPrepare E.scheme C v =
      .ok { r.tally with prepares := r.tally.prepares.insert a v } := by
    rw [Tally.addPrepare_eq, Tally.preparer_of_none h.proposal,
      ← Tally.keepPrepare_of_not_contains (h.prepares.not_contains hfree)]
    exact congrArg (Except.map _) ((congrArg (C.voter E.scheme · v) h.id).trans hvoter)
  refine ⟨{ r with tally := { r.tally with prepares := r.tally.prepares.insert a v } },
    (handlePrepare_adds v ext r).trans ?_, { h with prepares := ?_, commits := ?_ }⟩
  · dsimp only
    rw [hadd]
    exact progress_of_none ext h.proposal
  · exact (h.prepares.insert hvoter hfree).congr (by simp)
  · exact h.commits.congr (by simp)

theorem handleCommit {v : Commit} (h : Awaits E C round votes r)
    (hb : Ballots E C round (votes ++ [.commit v])) : ∃ s,
      Round.handleCommit E C ext v r = ⟨.ok (), s, []⟩ ∧
        Awaits E C round (votes ++ [.commit v]) s := by
  obtain ⟨a, hvoter, -, hnew⟩ := hb.exists_voter rfl (fun _ => rfl) fun _ => rfl
  have hfree : ∀ x, .commit x ∈ votes → C.voter E.scheme round x ≠ .ok a :=
    fun x hx hx' => hnew x hx (Committee.author_of_voter hx')
  have hadd : r.tally.addCommit E.scheme C v =
      .ok { r.tally with commits := r.tally.commits.insert a v } := by
    rw [Tally.addCommit_eq, Tally.committer_of_none h.proposal,
      ← Tally.keepCommit_of_not_contains (h.commits.not_contains hfree)]
    exact congrArg (Except.map _) ((congrArg (C.voter E.scheme · v) h.id).trans hvoter)
  refine ⟨{ r with tally := { r.tally with commits := r.tally.commits.insert a v } },
    (handleCommit_adds v ext r).trans ?_, { h with prepares := ?_, commits := ?_ }⟩
  · dsimp only
    rw [hadd]
    exact progress_of_none ext h.proposal
  · exact h.prepares.congr (by simp)
  · exact (h.commits.insert hvoter hfree).congr (by simp)

end Awaits

/-! ### With the proposal -/

variable (E C p) in
/-- These votes were given, and the proposal, and nothing else but the node's own votes. -/
structure Stands (votes : List Message) (r : Round) : Prop where
  id : r.id = p.round
  quorum : r.tally.quorum = C.quorum
  proposal : r.tally.proposal = some p
  participates : r.participates = Instance.participates E C
  prepares : r.tally.prepares.Enters (C.checkPrepare E.scheme p.round p.digest) fun m =>
    .prepare m ∈ votes ∨
      r.participates = true ∧ E.signer.prepare E.scheme p.round p.digest = .ok m
  commits : r.tally.commits.Enters (C.checkCommit E.scheme p.round p.digest) fun m =>
    .commit m ∈ votes ∨
      r.commitSent = true ∧ E.signer.commit E.scheme p.round p.digest = .ok m
  sent : r.commitSent = true → r.participates = true ∧ r.isPrepared = true
  handed : r.delivered = true → r.isCommitted = true

variable (E p) in
/-- What was said and handed over in the round. -/
structure Tells (r : Round) (log : List Effect) : Prop where
  messages : log.filterMap Effect.message? =
    (if r.participates then
      (Message.prepare <$> E.signer.prepare E.scheme p.round p.digest).toOption.toList else []) ++
    if r.commitSent then
      (Message.commit <$> E.signer.commit E.scheme p.round p.digest).toOption.toList else []
  blocks : log.filterMap Effect.block? = if r.delivered then [p.block] else []

namespace Stands

variable {u : Tally} {es : List Effect}

theorem member (h : Stands E C p votes r) (hr : r.participates = true) :
    C.contains E.signer.address = true :=
  h.participates.symm.trans hr

/-- The node's own votes are under its address. -/
theorem check_own_prepare (hE : E.Able) (h : Stands E C p votes r) {m : Prepare}
    (hr : r.participates = true) (hm : E.signer.prepare E.scheme p.round p.digest = .ok m) :
    C.checkPrepare E.scheme p.round p.digest m = .ok E.signer.address := by
  obtain ⟨m', hm', ha⟩ := hE.exists_prepare (h.member hr) p.round p.digest
  cases hm.symm.trans hm'
  exact ha

theorem check_own_commit (hE : E.Able) (h : Stands E C p votes r) {m : Commit}
    (hr : r.participates = true) (hm : E.signer.commit E.scheme p.round p.digest = .ok m) :
    C.checkCommit E.scheme p.round p.digest m = .ok E.signer.address := by
  obtain ⟨m', hm', ha⟩ := hE.exists_commit (h.member hr) p.round p.digest
  cases hm.symm.trans hm'
  exact ha

/-- What becomes of the tally with a vote for the block, or for another. -/
theorem addPrepare (h : Stands E C p votes r) (v : Prepare) : r.tally.addPrepare E.scheme C v =
    (C.checkPrepare E.scheme p.round p.digest v).map (r.tally.keepPrepare · v) := by
  rw [Tally.addPrepare_eq, Tally.preparer_of_some h.proposal]
  exact congrArg (Except.map _) (congrArg (C.checkPrepare E.scheme · p.digest v) h.id)

theorem addCommit (h : Stands E C p votes r) (v : Commit) : r.tally.addCommit E.scheme C v =
    (C.checkCommit E.scheme p.round p.digest v).map (r.tally.keepCommit · v) := by
  rw [Tally.addCommit_eq, Tally.committer_of_some h.proposal]
  exact congrArg (Except.map _) (congrArg (C.checkCommit E.scheme · p.digest v) h.id)

theorem keepPrepare_extends (h : Stands E C p votes r) {v : Prepare} {a : Address}
    (ha : C.checkPrepare E.scheme p.round p.digest v = .ok a) :
    (r.tally.keepPrepare a v).Extends r.tally :=
  (Tally.addPrepare_extends ((h.addPrepare v).trans (congrArg (Except.map _) ha))).1

theorem keepCommit_extends (h : Stands E C p votes r) {v : Commit} {a : Address}
    (ha : C.checkCommit E.scheme p.round p.digest v = .ok a) :
    (r.tally.keepCommit a v).Extends r.tally :=
  (Tally.addCommit_extends ((h.addCommit v).trans (congrArg (Except.map _) ha))).1

/-! #### One more vote -/

theorem prepare {v : Prepare} {a : Address} (hE : E.Able) (h : Stands E C p votes r)
    (hb : Ballots E C p.round (votes ++ [.prepare v]))
    (ha : C.checkPrepare E.scheme p.round p.digest v = .ok a) :
    Stands E C p (votes ++ [.prepare v]) { r with tally := r.tally.keepPrepare a v } := by
  obtain ⟨b, hvoter, hother, hnew⟩ := hb.exists_voter rfl (fun _ => rfl) fun _ => rfl
  cases hvoter.symm.trans (Committee.checkPrepare_eq_ok_iff.1 ha).1
  have hfree : ∀ x, (.prepare x ∈ votes ∨
      r.participates = true ∧ E.signer.prepare E.scheme p.round p.digest = .ok x) →
      C.checkPrepare E.scheme p.round p.digest x ≠ .ok a := by
    rintro x (hx | ⟨hr, hx⟩) hx'
    · exact hnew x hx (Committee.author_of_voter (Committee.checkPrepare_eq_ok_iff.1 hx').1)
    · cases hx'.symm.trans (h.check_own_prepare hE hr hx)
      exact hother rfl
  have hx := h.keepPrepare_extends ha
  rw [Tally.keepPrepare_of_not_contains (h.prepares.not_contains hfree)] at hx ⊢
  exact { h with
    prepares := (h.prepares.insert ha hfree).congr (by simp [or_right_comm])
    commits := h.commits.congr (by simp)
    sent := fun hs => ⟨(h.sent hs).1, hx.isPrepared (h.sent hs).2⟩
    handed := fun hd => h.handed hd }

theorem commit {v : Commit} {a : Address} (hE : E.Able) (h : Stands E C p votes r)
    (hb : Ballots E C p.round (votes ++ [.commit v]))
    (ha : C.checkCommit E.scheme p.round p.digest v = .ok a) :
    Stands E C p (votes ++ [.commit v]) { r with tally := r.tally.keepCommit a v } := by
  obtain ⟨b, hvoter, hother, hnew⟩ := hb.exists_voter rfl (fun _ => rfl) fun _ => rfl
  cases hvoter.symm.trans (Committee.checkCommit_eq_ok_iff.1 ha).1
  have hfree : ∀ x, (.commit x ∈ votes ∨
      r.commitSent = true ∧ E.signer.commit E.scheme p.round p.digest = .ok x) →
      C.checkCommit E.scheme p.round p.digest x ≠ .ok a := by
    rintro x (hx | ⟨hs, hx⟩) hx'
    · exact hnew x hx (Committee.author_of_voter (Committee.checkCommit_eq_ok_iff.1 hx').1)
    · cases hx'.symm.trans (h.check_own_commit hE (h.sent hs).1 hx)
      exact hother rfl
  have hx := h.keepCommit_extends ha
  rw [Tally.keepCommit_of_not_contains (h.commits.not_contains hfree)] at hx ⊢
  exact { h with
    prepares := h.prepares.congr (by simp)
    commits := (h.commits.insert ha hfree).congr (by simp [or_right_comm])
    sent := fun hs => h.sent hs
    handed := fun hd => hx.isCommitted (h.handed hd) }

/-- A vote that is refused leaves the round as it is. -/
theorem skip_prepare {v : Prepare} (h : Stands E C p votes r)
    (hv : ∀ a, C.checkPrepare E.scheme p.round p.digest v ≠ .ok a) :
    Stands E C p (votes ++ [.prepare v]) r :=
  { h with
    prepares := (h.prepares.skip hv).congr (by simp [or_right_comm])
    commits := h.commits.congr (by simp) }

theorem skip_commit {v : Commit} (h : Stands E C p votes r)
    (hv : ∀ a, C.checkCommit E.scheme p.round p.digest v ≠ .ok a) :
    Stands E C p (votes ++ [.commit v]) r :=
  { h with
    prepares := h.prepares.congr (by simp)
    commits := (h.commits.skip hv).congr (by simp [or_right_comm]) }

/-! #### Going on -/

theorem confirms (h : Stands E C p votes r) (hb : Ballots E C p.round votes)
    (hs : Confirms E C r es s) : Stands E C p votes s := by
  cases hs with
  | rest => exact h
  | @commit q m hr hprepared hs hq hm ha =>
    cases hq.symm.trans h.proposal
    have hm' : E.signer.commit E.scheme p.round p.digest = .ok m := h.id ▸ hm
    have hfree : ∀ x, (.commit x ∈ votes ∨
        r.commitSent = true ∧ E.signer.commit E.scheme p.round p.digest = .ok x) →
        C.checkCommit E.scheme p.round p.digest x ≠ .ok E.signer.address := by
      rintro x (hx | ⟨hs', -⟩) hx'
      · exact hb.not_own hx (Committee.author_of_voter (Committee.checkCommit_eq_ok_iff.1 hx').1)
      · cases hs.symm.trans hs'
    have ha' : C.checkCommit E.scheme p.round p.digest m = .ok E.signer.address := h.id ▸ ha
    have hx := h.keepCommit_extends ha'
    rw [Tally.keepCommit_of_not_contains (h.commits.not_contains hfree)] at hx ⊢
    exact { h with
      commits := (h.commits.insert ha' hfree).congr (by simp [hs, hm', eq_comm])
      sent := fun _ => ⟨hr, hprepared⟩
      handed := fun hd => hx.isCommitted (h.handed hd) }

theorem delivers (h : Stands E C p votes r) (hs : Delivers r es s) : Stands E C p votes s := by
  cases hs with
  | rest => exact h
  | deliver hc => exact { h with handed := fun _ => hc }

end Stands

namespace Tells

variable {log es : List Effect}

theorem silent (h : Tells E p r log) (hmessages : es.filterMap Effect.message? = [])
    (hblocks : es.filterMap Effect.block? = []) : Tells E p r (log ++ es) where
  messages := by rw [List.filterMap_append, hmessages, List.append_nil, h.messages]
  blocks := by rw [List.filterMap_append, hblocks, List.append_nil, h.blocks]

theorem after_silent (h : Tells E p r log) (hmessages : es.filterMap Effect.message? = [])
    (hblocks : es.filterMap Effect.block? = []) : Tells E p r (es ++ log) where
  messages := by rw [List.filterMap_append, hmessages, List.nil_append, h.messages]
  blocks := by rw [List.filterMap_append, hblocks, List.nil_append, h.blocks]

theorem confirms (h : Tells E p r log) (hr : Stands E C p votes r) (hs : Confirms E C r es s) :
    Tells E p s (log ++ es) := by
  cases hs with
  | rest => rwa [List.append_nil]
  | @commit q m _ _ hs hq hm =>
    cases hq.symm.trans hr.proposal
    have hm' : E.signer.commit E.scheme p.round p.digest = .ok m := hr.id ▸ hm
    constructor
    · rw [List.filterMap_append, h.messages, hs, hm']
      simp [Effect.message?, Except.toOption]
    · rw [List.filterMap_append, h.blocks]
      simp [Effect.block?]

theorem delivers (h : Tells E p r log) (hr : Stands E C p votes r) (hs : Delivers r es s) :
    Tells E p s (log ++ es) := by
  cases hs with
  | rest => rwa [List.append_nil]
  | @deliver q seals _ hd hq =>
    cases hq.symm.trans hr.proposal
    constructor
    · rw [List.filterMap_append, h.messages]
      simp [Effect.message?]
    · rw [List.filterMap_append, h.blocks, hd]
      simp [Effect.block?]

end Tells

/-- Where the same votes were given, the rounds are the same. -/
theorem Stands.unique {votes' : List Message} (hr : Stands E C p votes r) (hrested : r.Rested)
    (hs : Stands E C p votes' s) (hsrested : s.Rested) (hv : ∀ m, m ∈ votes' ↔ m ∈ votes) :
    r = s := by
  have hparticipates := hr.participates.trans hs.participates.symm
  have hproposal := hr.proposal.trans hs.proposal.symm
  have hquorum := hr.quorum.trans hs.quorum.symm
  have hprepares : r.tally.prepares = s.tally.prepares :=
    hr.prepares.unique (hs.prepares.congr (by simp [hv, hparticipates]))
  have hprepared : r.isPrepared = s.isPrepared := by
    rw [isPrepared, isPrepared, Tally.isPrepared, Tally.isPrepared, hproposal, hquorum, hprepares]
  have hsent : r.commitSent = s.commitSent := by
    rw [Bool.eq_iff_iff]
    refine ⟨fun h => ?_, fun h => ?_⟩
    · obtain ⟨hmember, hp⟩ := hr.sent h
      exact hsrested.confirmed (hparticipates ▸ hmember) (hprepared ▸ hp)
    · obtain ⟨hmember, hp⟩ := hs.sent h
      exact hrested.confirmed (hparticipates ▸ hmember) (hprepared ▸ hp)
  have hcommits : r.tally.commits = s.tally.commits :=
    hr.commits.unique (hs.commits.congr (by simp [hv, hsent]))
  have hcommitted : r.isCommitted = s.isCommitted := by
    rw [isCommitted, isCommitted, Tally.isCommitted, Tally.isCommitted, hproposal, hquorum,
      hcommits]
  have hdelivered : r.delivered = s.delivered := by
    rw [Bool.eq_iff_iff]
    exact ⟨fun h => hsrested.delivered (hcommitted ▸ hr.handed h),
      fun h => hrested.delivered (hcommitted ▸ hs.handed h)⟩
  have hid : r.tally.round = s.tally.round := hr.id.trans hs.id.symm
  obtain ⟨⟨_, _, _, _, _⟩, _, _, _⟩ := r
  obtain ⟨⟨_, _, _, _, _⟩, _, _, _⟩ := s
  simp only at hid hquorum hproposal hprepares hcommits hparticipates hsent hdelivered
  subst hid hquorum hproposal hprepares hcommits hparticipates hsent hdelivered
  rfl

variable (E C p) in
/-- The round is at rest with these votes, and this is what was said and handed over. -/
structure Closes (votes : List Message) (r : Round) (log : List Effect) : Prop where
  stands : Stands E C p votes r
  tells : Tells E p r log
  rested : r.Rested

theorem Stands.progress {log : List Effect} (hE : E.Able) (h : Stands E C p votes r)
    (hb : Ballots E C p.round votes) (hlog : Tells E p r log) (hext : ext.Takes) :
    ∃ s es, Round.progress E C ext r = ⟨.ok (), s, es⟩ ∧ Closes E C p votes s (log ++ es) := by
  obtain ⟨es, fs, s, t, ho, hs, ht, hrested⟩ := progress_works ext hE h.member hext
  have hstands := h.confirms hb hs
  refine ⟨t, es ++ fs, ho, hstands.delivers ht, ?_, hrested⟩
  rw [← List.append_assoc]
  exact (hlog.confirms h hs).delivers hstands ht

/-- The proposal is taken: of what was given before, what is for its block stays. -/
theorem Awaits.adopts {es : List Effect} (h : Awaits E C p.round votes r)
    (hb : Ballots E C p.round votes) (hs : Adopts E C p r es s) :
    Stands E C p votes s ∧ Tells E p s es := by
  have hround : r.tally.round = p.round := h.id
  have hprepares : (r.tally.adopt E.scheme C p).prepares.Enters
      (C.checkPrepare E.scheme p.round p.digest) fun m => .prepare m ∈ votes := by
    rw [Tally.adopt, hround]
    exact h.prepares.filter fun _ _ hx => (Committee.checkPrepare_eq_ok_iff.1 hx).1
  have hcommits : (r.tally.adopt E.scheme C p).commits.Enters
      (C.checkCommit E.scheme p.round p.digest) fun m => .commit m ∈ votes := by
    rw [Tally.adopt, hround]
    exact h.commits.filter fun _ _ hx => (Committee.checkCommit_eq_ok_iff.1 hx).1
  cases hs with
  | watch hr =>
    refine ⟨{ h with
      proposal := rfl
      prepares := hprepares.congr (by simp [hr])
      commits := hcommits.congr (by simp [h.commitSent])
      sent := fun hs => ?_
      handed := fun hd => ?_ }, ?_, ?_⟩
    · cases h.commitSent.symm.trans hs
    · cases h.delivered.symm.trans hd
    · simp [hr, h.commitSent]
    · simp [h.delivered]
  | @prepare m hr hm ha =>
    have hm' : E.signer.prepare E.scheme p.round p.digest = .ok m := h.id ▸ hm
    have hfree : ∀ x, .prepare x ∈ votes →
        C.checkPrepare E.scheme p.round p.digest x ≠ .ok E.signer.address := fun x hx hx' =>
      hb.not_own hx (Committee.author_of_voter (Committee.checkPrepare_eq_ok_iff.1 hx').1)
    rw [Tally.keepPrepare_of_not_contains (hprepares.not_contains hfree)]
    refine ⟨{ h with
      proposal := rfl
      prepares := (hprepares.insert (h.id ▸ ha) hfree).congr (by simp [hr, hm', eq_comm])
      commits := hcommits.congr (by simp [h.commitSent])
      sent := fun hs => ?_
      handed := fun hd => ?_ }, ?_, ?_⟩
    · cases h.commitSent.symm.trans hs
    · cases h.delivered.symm.trans hd
    · simp [hr, hm', h.commitSent, Effect.message?, Except.toOption]
    · simp [h.delivered, Effect.block?]

theorem Awaits.acceptProposal (hE : E.Able) (h : Awaits E C p.round votes r)
    (hb : Ballots E C p.round votes) (hext : ext.Takes) :
    ∃ s es, Round.acceptProposal E C ext p r = ⟨.ok (), s, es⟩ ∧ Closes E C p votes s es := by
  obtain ⟨es, s, hs, ho⟩ := acceptProposal_works (p := p) hE
    (fun hr => h.participates.symm.trans hr) h.proposal
  obtain ⟨hstands, htells⟩ := h.adopts hb hs
  obtain ⟨t, fs, ht, hcloses⟩ := hstands.progress ext hE hb htells hext
  refine ⟨t, es ++ fs, ?_, hcloses⟩
  rw [ho, ht]

namespace Closes

variable {log : List Effect}

theorem handlePrepare {v : Prepare} (hE : E.Able) (h : Closes E C p votes r log)
    (hb : Ballots E C p.round (votes ++ [.prepare v])) (hext : ext.Takes) :
    ∃ x s es, Round.handlePrepare E C ext v r = ⟨x, s, es⟩ ∧
      Closes E C p (votes ++ [.prepare v]) s (log ++ es) := by
  have ho := handlePrepare_adds (E := E) (C := C) v ext r
  dsimp only at ho
  rw [ho, h.stands.addPrepare]
  cases hcheck : C.checkPrepare E.scheme p.round p.digest v with
  | error e =>
    refine ⟨_, r, [], rfl, h.stands.skip_prepare fun a ha => ?_, h.tells.silent rfl rfl, h.rested⟩
    cases hcheck.symm.trans ha
  | ok a =>
    obtain ⟨s, es, ho, hs⟩ := (h.stands.prepare hE hb hcheck).progress ext hE hb
      ⟨h.tells.messages, h.tells.blocks⟩ hext
    exact ⟨_, s, es, ho, hs⟩

theorem handleCommit {v : Commit} (hE : E.Able) (h : Closes E C p votes r log)
    (hb : Ballots E C p.round (votes ++ [.commit v])) (hext : ext.Takes) :
    ∃ x s es, Round.handleCommit E C ext v r = ⟨x, s, es⟩ ∧
      Closes E C p (votes ++ [.commit v]) s (log ++ es) := by
  have ho := handleCommit_adds (E := E) (C := C) v ext r
  dsimp only at ho
  rw [ho, h.stands.addCommit]
  cases hcheck : C.checkCommit E.scheme p.round p.digest v with
  | error e =>
    refine ⟨_, r, [], rfl, h.stands.skip_commit fun a ha => ?_, h.tells.silent rfl rfl, h.rested⟩
    cases hcheck.symm.trans ha
  | ok a =>
    obtain ⟨s, es, ho, hs⟩ := (h.stands.commit hE hb hcheck).progress ext hE hb
      ⟨h.tells.messages, h.tells.blocks⟩ hext
    exact ⟨_, s, es, ho, hs⟩

/-- Where the same votes were given, the rounds are the same, and so is what was said and handed
over. -/
theorem unique {votes' : List Message} {log' : List Effect} (h : Closes E C p votes r log)
    (h' : Closes E C p votes' s log') (hv : ∀ m, m ∈ votes' ↔ m ∈ votes) : r = s ∧
      log.filterMap Effect.message? = log'.filterMap Effect.message? ∧
      log.filterMap Effect.block? = log'.filterMap Effect.block? := by
  have hround := h.stands.unique h.rested h'.stands h'.rested hv
  subst hround
  exact ⟨rfl, h.tells.messages.trans h'.tells.messages.symm,
    h.tells.blocks.trans h'.tells.blocks.symm⟩

end Closes

end Round

end BlockAgreement
