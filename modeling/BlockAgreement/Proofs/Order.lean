import BlockAgreement.Proofs.Delivery
import BlockAgreement.Proofs.Redelivery
import BlockAgreement.Proofs.Standing

/-! The order in which the proposal of a round and the votes of others come. Votes that come early
wait, in the round or among those held for it, and those that come late are counted at once; either
way the round ends as it must with these votes, and so do the node's own votes and the block that
is handed over. -/

namespace BlockAgreement

/-! ### A round that handed over a block is decided -/

theorem Round.Move.handed {E : Setup} {C : Committee} {A : Outside} {own : Proposal → Prop}
    {r s : Round} {es : List Effect} (h : Round.Move E C A own r es s)
    (hr : r.delivered = true → r.isCommitted = true) (hs : s.delivered = true) :
    s.isCommitted = true := by
  have hx := h.follows.tally
  cases h with
  | prepare | commit | take | propose | confirm => exact hx.isCommitted (hr hs)
  | deliver hd => exact (Tally.decision?_eq_some hd).1

namespace Instance

variable {E : Setup} {C : Committee} {A : Outside} {i j k : Instance} {round : RoundId}
  {votes ms : List Message} {m : Message} {p : Proposal} (ext : Collaborators)

theorem Move.handed {es : List Effect} (h : Move E A i es j)
    (hi : i.round.delivered = true → i.isCommitted = true) (hj : j.round.delivered = true) :
    j.isCommitted = true := by
  cases h with
  | round h => exact h.handed hi hj
  | note | ask | mark | hold | gather => exact hi hj
  | enter => cases hj

/-! ### Before the proposal -/

theorem handleVote_awaits (hc : i.committee = C) (hi : Round.Awaits E C round votes i.round)
    (hb : Ballots E C round (votes ++ [m])) : ∃ s,
      handleVote E ext m i = ⟨.ok (), { i with round := s }, []⟩ ∧
        Round.Awaits E C round (votes ++ [m]) s := by
  have hm := hb.ballot m (List.mem_append_right _ (List.mem_singleton_self _))
  have hnow : m.round.number = i.round.id.number := by rw [hm.round, hi.id]
  subst hc
  cases m with
  | prepare v =>
    obtain ⟨s, ho, hs⟩ := hi.handlePrepare ext hb
    refine ⟨s, ?_, hs⟩
    rw [handlePrepare_of_current ext hnow, Handler.bind_of_ok _ (onRound_apply ho),
      noteProgress_of_none (i := { i with round := s }) hs.proposal]
    rfl
  | commit v =>
    obtain ⟨s, ho, hs⟩ := hi.handleCommit ext hb
    refine ⟨s, ?_, hs⟩
    rw [handleCommit_of_current ext hnow, Handler.bind_of_ok _ (onRound_apply ho),
      noteProgress_of_none (i := { i with round := s }) hs.proposal]
    rfl
  | proposal | roundChange => exact absurd hm.kind (by simp [Message.kind])

theorem replayed_awaits (ms : List Message) (hc : i.committee = C)
    (hi : Round.Awaits E C round votes i.round) (hb : Ballots E C round (votes ++ ms)) : ∃ s,
      ms.forM (fun m => Handler.absorb survives (handleVote E ext m)) i =
        ⟨.ok ⟨⟩, { i with round := s }, []⟩ ∧ Round.Awaits E C round (votes ++ ms) s := by
  induction ms generalizing i votes with
  | nil => exact ⟨i.round, rfl, by rwa [List.append_nil]⟩
  | cons m ms ih =>
    rw [List.append_cons] at hb ⊢
    obtain ⟨r, ho, hr⟩ := handleVote_awaits ext hc hi hb.left
    obtain ⟨s, ho', hs⟩ := ih (i := { i with round := r }) hc hr hb
    refine ⟨s, (Handler.bind_of_ok _ (absorb_of_survived ho (.pure ()))).trans ?_, hs⟩
    rw [ho']
    rfl

/-- Entering a round hands its votes over in the order in which they came. -/
theorem advance_awaits (hc : i.committee = C) (n : UInt32)
    (hb : Ballots E C ⟨C.height, n⟩ (i.backlog.queue n)) : ∃ s fs,
      advance E ext n i = ⟨.ok (), { i with
        round := s
        roundChanges := i.roundChanges.discardBefore n
        backlog := i.backlog.discardThrough n }, fs⟩ ∧
      Round.Awaits E C ⟨C.height, n⟩ (i.backlog.queue n) s ∧
      fs.filterMap Effect.message? = [] ∧ fs.filterMap Effect.block? = [] := by
  subst hc
  rw [advance, Handler.get_bind, Handler.ask_bind, Handler.set_bind, Handler.ask_bind, replay,
    Handler.get_bind, Handler.set_bind]
  obtain ⟨s, ho, hs⟩ := replayed_awaits ext (i := { i with
    round := freshRound E i.committee n
    roundChanges := i.roundChanges.discardBefore n
    backlog := i.backlog.discardThrough n }) (i.backlog.queue n) rfl (Round.awaits_fresh n) hb
  rw [ho]
  exact ⟨s, _, rfl, hs, rfl, rfl⟩

variable (E C) in
/-- What votes that come before the proposal leave of this state. -/
inductive Pending (i : Instance) (round : RoundId) (votes : List Message) : Instance → Prop
  | now {s : Round} (hs : Round.Awaits E C round votes s) :
      Pending i round votes { i with round := s }
  | later {b : Backlog UInt32} (hlater : i.round.id.number < round.number)
      (hqueue : b.queue round.number = votes) (hheld : b.held = i.backlog.held + votes.length) :
      Pending i round votes { i with backlog := b }

theorem Pending.vote (hi : Pending E C i round votes j) (hc : i.committee = C)
    (hheight : round.height = C.height) (hb : Ballots E C round (votes ++ [m]))
    (hroom : i.round.id.number < round.number →
      i.backlog.held + (votes ++ [m]).length ≤ E.config.bufferLimit.toNat) :
    ∃ k, handleMessage E ext m j = ⟨.ok (), k, []⟩ ∧ Pending E C i round (votes ++ [m]) k := by
  have hm := hb.ballot m (List.mem_append_right _ (List.mem_singleton_self _))
  cases hi with
  | @now s hs =>
    obtain ⟨r, ho, hr⟩ := handleVote_awaits (i := { i with round := s }) ext hc hs hb
    refine ⟨_, ?_, .now hr⟩
    rw [handleMessage_of_height ext (by rw [hm.round, hheight, ← hc]; rfl),
      dispatch_of_vote ext hm.kind]
    exact absorb_of_survived ho (.pure ())
  | @later b hlater hqueue hheld =>
    obtain ⟨a, ha, hmember, -⟩ := hm.author
    have hfits : ¬ E.config.bufferLimit.toNat ≤ b.held := by
      have := hroom hlater
      rw [List.length_append, List.length_singleton] at this
      omega
    refine ⟨_, handleMessage_of_held ext ⟨hm.kind, by rw [hm.round, hheight, ← hc]; rfl,
      hm.round ▸ hlater, a, ha, hc ▸ hmember⟩, .later hlater ?_ ?_⟩
    · rw [hm.round, Backlog.push, if_neg hfits, Backlog.queue, Table.find?_insert, if_pos rfl]
      exact congrArg (· ++ [m]) hqueue
    · rw [Backlog.push, if_neg hfits, List.length_append, List.length_singleton, ← Nat.add_assoc]
      exact congrArg (· + 1) hheld

/-! ### With the proposal -/

variable (E C p) in
/-- The node is in the round with the proposal and these votes. -/
structure Reached (votes : List Message) (i : Instance) (log : List Effect) : Prop where
  committee : i.committee = C
  changing : i.changing = false
  closes : Round.Closes E C p votes i.round log

theorem take_reaches (hE : E.Able) (hext : ext.Takes) (hc : i.committee = C)
    (hi : Round.Awaits E C p.round votes i.round) (hb : Ballots E C p.round votes) :
    ∃ j es, take E C ext p i = ⟨.ok (), j, es⟩ ∧ Reached E C p votes j es := by
  obtain ⟨s, es, ho, hs⟩ := hi.acceptProposal ext hE hb hext
  let k : Instance := { i with round := s, changing := false }
  obtain ⟨hcommittee, hround, hchanging, -⟩ := k.keepLock_keeps
  refine ⟨_, _, take_apply ext ho, hcommittee.trans hc, hchanging, ?_⟩
  rw [hround]
  refine { hs with tells := hs.tells.silent ?_ ?_ }
  · split <;> rfl
  · split <;> rfl

theorem Pending.proposal (hi : Pending E C i p.round votes j) (hE : E.Able) (hext : ext.Takes)
    (hc : i.committee = C) (hopen : i.isCommitted = false)
    (hp : ∃ a, C.checkProposal E.scheme p = .ok a) (hb : Ballots E C p.round votes) :
    ∃ k es, handleMessage E ext (.proposal p) j = ⟨.ok (), k, es⟩ ∧ Reached E C p votes k es := by
  obtain ⟨a, ha⟩ := hp
  have hheight : p.round.height = C.height := (Committee.checkProposal_eq_ok ha).1
  subst hc
  cases hi with
  | @now s hs =>
    obtain ⟨k, es, ho, hk⟩ := take_reaches (i := { i with round := s }) ext hE hext rfl hs hb
    refine ⟨k, es, ?_, hk⟩
    have hundecided : Instance.isCommitted { i with round := s } = false := by
      simp [isCommitted, Round.isCommitted, Tally.isCommitted, hs.proposal]
    rw [handleMessage_of_height (m := .proposal p) (i := { i with round := s }) ext hheight]
    refine absorb_of_survived (x := .ok ()) ?_ (.pure ())
    rw [dispatch, handleProposal_of_current ext hundecided ha (congrArg RoundId.number hs.id)]
    exact ho
  | @later b hlater hqueue hheld =>
    have hround : p.round = ⟨i.committee.height, p.round.number⟩ := by rw [← hheight]
    rw [hround, ← hqueue] at hb
    obtain ⟨s, fs, ho, hs, hmessages, hblocks⟩ :=
      advance_awaits (i := { i with backlog := b }) ext rfl p.round.number hb
    dsimp only at hs
    rw [← hround] at hs hb
    obtain ⟨k, es, ho', hk⟩ := take_reaches ext (i := { i with
      round := s
      roundChanges := i.roundChanges.discardBefore p.round.number
      backlog := b.discardThrough p.round.number }) hE hext rfl hs hb
    refine ⟨k, fs ++ es, ?_, ?_⟩
    · rw [handleMessage_of_height (m := .proposal p) (i := { i with backlog := b }) ext hheight]
      refine absorb_of_survived (x := .ok ()) ?_ (.pure ())
      rw [dispatch, handleProposal_of_later (i := { i with backlog := b }) ext hopen ha hlater,
        Handler.bind_of_ok _ ho, ho']
    · rw [hqueue] at hk
      exact { hk with
        closes := { hk.closes with tells := hk.closes.tells.after_silent hmessages hblocks } }

/-- What came of a handler of the round is noted, and nothing is said for that. -/
theorem onRound_note_apply {h : Handler Round Unit} {x : Except Error Unit} {s : Round}
    {es : List Effect} (ho : h i.round = ⟨x, s, es⟩) : ∃ j fs,
      (onRound h >>= fun _ => noteProgress) i = ⟨x, j, es ++ fs⟩ ∧ j.round = s ∧
        j.committee = i.committee ∧ j.changing = i.changing ∧
        fs.filterMap Effect.message? = [] ∧ fs.filterMap Effect.block? = [] := by
  cases x with
  | error e =>
    refine ⟨{ i with round := s }, [], ?_, rfl, rfl, rfl, rfl, rfl⟩
    rw [Handler.bind_of_error _ (onRound_apply ho), List.append_nil]
  | ok =>
    let k : Instance := { i with round := s }
    obtain ⟨hcommittee, hround, hchanging, -⟩ := k.keepLock_keeps
    refine ⟨k.keepLock, if s.isCommitted then [.cancelTimer s.id] else [], ?_, hround, hcommittee,
      hchanging, ?_, ?_⟩
    · rw [Handler.bind_of_ok _ (onRound_apply ho), noteProgress_apply]
      rfl
    · split <;> rfl
    · split <;> rfl

theorem Reached.vote {log : List Effect} (hi : Reached E C p votes i log) (hE : E.Able)
    (hext : ext.Takes) (hheight : p.round.height = C.height)
    (hb : Ballots E C p.round (votes ++ [m])) :
    Reached E C p (votes ++ [m]) (handleMessage E ext m i).state
      (log ++ (handleMessage E ext m i).effects) := by
  have hm := hb.ballot m (List.mem_append_right _ (List.mem_singleton_self _))
  have hnow : m.round.number = i.round.id.number := by rw [hm.round, hi.closes.stands.id]
  have hc := hi.committee
  subst hc
  rw [handleMessage_of_height ext (by rw [hm.round, hheight]; rfl), Handler.absorb_state,
    Handler.absorb_effects, dispatch_of_vote ext hm.kind]
  cases m with
  | prepare v =>
    obtain ⟨x, s, es, ho, hs⟩ := hi.closes.handlePrepare ext hE hb hext
    obtain ⟨j, fs, hj, rfl, hcommittee, hchanging, hmessages, hblocks⟩ := onRound_note_apply ho
    rw [handlePrepare_of_current ext hnow, hj, ← List.append_assoc]
    exact ⟨hcommittee, hchanging.trans hi.changing,
      { hs with tells := hs.tells.silent hmessages hblocks }⟩
  | commit v =>
    obtain ⟨x, s, es, ho, hs⟩ := hi.closes.handleCommit ext hE hb hext
    obtain ⟨j, fs, hj, rfl, hcommittee, hchanging, hmessages, hblocks⟩ := onRound_note_apply ho
    rw [handleCommit_of_current ext hnow, hj, ← List.append_assoc]
    exact ⟨hcommittee, hchanging.trans hi.changing,
      { hs with tells := hs.tells.silent hmessages hblocks }⟩
  | proposal | roundChange => exact absurd hm.kind (by simp [Message.kind])

/-- Nothing of a round has come, and its votes have room until it begins. -/
structure Clear (E : Setup) (n : UInt32) (room : Nat) (i : Instance) : Prop where
  undecided : i.isCommitted = false
  le : i.round.id.number ≤ n
  empty : i.round.id.number = n → i.round.tally.proposal = none ∧
    i.round.tally.prepares = .empty ∧ i.round.tally.commits = .empty
  queue : i.backlog.queue n = []
  room : i.round.id.number < n → i.backlog.held + room ≤ E.config.bufferLimit.toNat

theorem Clear.pending {room : Nat} (hi : Clear E p.round.number room i)
    (hf : Formed E C A i) (hquorum : i.round.tally.quorum = C.quorum)
    (hhanded : i.round.delivered = true → i.isCommitted = true)
    (hheight : p.round.height = C.height) : Pending E C i p.round [] i := by
  rcases UInt32.lt_or_eq_of_le hi.le with hlater | hnow
  · exact .later hlater hi.queue rfl
  · obtain ⟨hproposal, hprepares, hcommits⟩ := hi.empty hnow
    have hid : i.round.id = p.round := by
      rw [show i.round.id = ⟨i.round.id.height, i.round.id.number⟩ from rfl, hf.height, hnow,
        ← hheight]
    refine .now (s := i.round) ⟨hid, hquorum, hproposal, hf.participates, ?_, ?_, ?_, ?_⟩
    · rw [← Bool.not_eq_true]
      intro hsent
      obtain ⟨q, hq⟩ := (Tally.isPrepared_iff.1 (hf.prepared hsent)).1
      cases hproposal.symm.trans hq
    · rw [← Bool.not_eq_true]
      intro hdelivered
      cases hi.undecided.symm.trans (hhanded hdelivered)
    · rw [hprepares]
      exact (Table.Enters.empty _).congr (by simp)
    · rw [hcommits]
      exact (Table.Enters.empty _).congr (by simp)

end Instance

/-- The call that hands over this message. -/
def Call.giving (ext : Collaborators) (m : Message) : Call := ⟨ext, .message m⟩

namespace History

variable {E : Setup} {C : Committee} {h : History} {i : Instance} {p : Proposal}
  {votes ms : List Message} {log : List Effect} {ext : Collaborators}

/-- The blocks that were handed over, in this order. -/
def imported (h : History) : List Block := h.log.filterMap Effect.block?

theorem after_giving (h : History) (m : Message) : h.after E (.giving ext m) =
    ⟨(Instance.handleMessage E ext m h.inst).state,
      h.log ++ (Instance.handleMessage E ext m h.inst).effects⟩ :=
  rfl

/-- Votes that come before the proposal ask for nothing. -/
theorem given_pending (ext : Collaborators) (hc : i.committee = C)
    (hheight : p.round.height = C.height) (hh : Instance.Pending E C i p.round votes h.inst)
    (hb : Ballots E C p.round (votes ++ ms))
    (hroom : i.round.id.number < p.round.number →
      i.backlog.held + (votes ++ ms).length ≤ E.config.bufferLimit.toNat) :
    ∃ j, (ms.map (Call.giving ext)).foldl (after E) h = ⟨j, h.log⟩ ∧
      Instance.Pending E C i p.round (votes ++ ms) j := by
  induction ms generalizing h votes with
  | nil => exact ⟨h.inst, rfl, by rwa [List.append_nil]⟩
  | cons m ms ih =>
    rw [List.append_cons] at hb hroom ⊢
    obtain ⟨j, ho, hj⟩ := hh.vote ext hc hheight hb.left fun hlater => by
      have := hroom hlater
      rw [List.length_append] at this
      omega
    rw [List.map_cons, List.foldl_cons, after_giving, ho, List.append_nil]
    exact ih (h := ⟨j, h.log⟩) hj hb hroom

theorem given_reached {before : List Effect} (hE : E.Able) (hext : ext.Takes)
    (hheight : p.round.height = C.height) (hb : Ballots E C p.round (votes ++ ms))
    (hlog : h.log = before ++ log) (hh : Instance.Reached E C p votes h.inst log) :
    ∃ es, ((ms.map (Call.giving ext)).foldl (after E) h).log = before ++ es ∧
      Instance.Reached E C p (votes ++ ms)
        ((ms.map (Call.giving ext)).foldl (after E) h).inst es := by
  induction ms generalizing h votes log with
  | nil => exact ⟨log, hlog, by rwa [List.append_nil]⟩
  | cons m ms ih =>
    rw [List.append_cons] at hb ⊢
    exact ih (h := h.after E (.giving ext m)) hb (by rw [after_giving, hlog, List.append_assoc])
      (hh.vote ext hE hext hheight hb.left)

/-- What a state is that a node comes to, where nothing of the round has come. -/
theorem run_pending (first : Collaborators) (calls : List Call) {room : Nat}
    (hi : Instance.Clear E p.round.number room (run E C first calls).inst)
    (hheight : p.round.height = C.height) : Instance.Pending E C (run E C first calls).inst p.round
      [] (run E C first calls).inst := by
  obtain ⟨hs, hchain⟩ := run_moves E C first calls
  obtain ⟨hbacked, -⟩ := Instance.backed_of_chain hchain fun e _ => Outside.admitsOwn_any e
  refine hi.pending hs.formed hbacked.tally.quorum ?_ hheight
  have hnew : (Instance.new E C).round.delivered = true → (Instance.new E C).isCommitted = true :=
    nofun
  exact hchain.preserves_state (P := fun i => i.round.delivered = true → i.isCommitted = true)
    (fun _ _ _ hi hm => hm.handed hi) hnew

/-- The proposal with votes before and after it. -/
theorem run_reached (hE : E.Able) (hext : ext.Takes) (first : Collaborators) (calls : List Call)
    (hi : Instance.Clear E p.round.number votes.length (run E C first calls).inst)
    (hp : ∃ a, C.checkProposal E.scheme p = .ok a) (hb : Ballots E C p.round votes)
    {order : List Message} (ho : order.Perm (.proposal p :: votes)) :
    ∃ given es, given.Perm votes ∧
      (run E C first (calls ++ order.map (Call.giving ext))).log =
        (run E C first calls).log ++ es ∧
      Instance.Reached E C p given
        (run E C first (calls ++ order.map (Call.giving ext))).inst es := by
  obtain ⟨before, after, rfl⟩ := List.append_of_mem (ho.mem_iff.2 (List.mem_cons_self ..))
  have hgiven : (before ++ after).Perm votes :=
    (List.perm_cons _).1 (List.perm_middle.symm.trans ho)
  have hb' := hb.perm hgiven.symm
  obtain ⟨a, ha⟩ := hp
  have hheight : p.round.height = C.height := (Committee.checkProposal_eq_ok ha).1
  have hc := run_committee E C first calls
  refine ⟨before ++ after, ?_⟩
  rw [run_append, List.map_append, List.foldl_append, List.map_cons, List.foldl_cons]
  obtain ⟨j, hfold, hj⟩ := given_pending ext hc hheight (run_pending first calls hi hheight)
    hb'.left fun hlater => by
      have := hi.room hlater
      have := hgiven.length_eq
      rw [List.length_append] at this
      rw [List.nil_append]
      omega
  obtain ⟨k, es, hk, hreached⟩ :=
    hj.proposal ext hE hext hc hi.undecided ⟨a, ha⟩ hb'.left
  rw [hfold, after_giving, hk]
  obtain ⟨fs, hlog, hend⟩ := given_reached (h := ⟨k, _ ++ es⟩) hE hext hheight hb' rfl hreached
  exact ⟨fs, hgiven, hlog, hend⟩

/-- A proposal that may be taken and votes of others for its round, one prepare and one commit of
each at most, in two orders: the round ends the same, with the same votes of the node and the same
block handed over, or none. -/
theorem run_perm (hE : E.Able) (hext : ext.Takes) (first : Collaborators) (calls : List Call)
    (hi : Instance.Clear E p.round.number votes.length (run E C first calls).inst)
    (hp : ∃ a, C.checkProposal E.scheme p = .ok a) (hb : Ballots E C p.round votes)
    {order order' : List Message} (ho : order.Perm (.proposal p :: votes))
    (ho' : order'.Perm (.proposal p :: votes)) :
    let h := run E C first (calls ++ order.map (Call.giving ext))
    let h' := run E C first (calls ++ order'.map (Call.giving ext))
    h.inst.round.id = p.round ∧ h.inst.round.tally.proposal = some p ∧
      h.inst.round = h'.inst.round ∧ h.inst.phase = h'.inst.phase ∧ h.sent = h'.sent ∧
      h.imported = h'.imported := by
  obtain ⟨given, es, hgiven, hlog, hr⟩ := run_reached hE hext first calls hi hp hb ho
  obtain ⟨given', es', hgiven', hlog', hr'⟩ := run_reached hE hext first calls hi hp hb ho'
  obtain ⟨hround, hmessages, hblocks⟩ := hr.closes.unique hr'.closes fun m =>
    (hgiven'.trans hgiven.symm).mem_iff
  refine ⟨hr.closes.stands.id, hr.closes.stands.proposal, hround, ?_, ?_, ?_⟩
  · rw [Instance.phase, Instance.phase, Instance.isCommitted, Instance.isCommitted, hround,
      hr.changing, hr'.changing]
  · rw [sent, sent, hlog, hlog', List.filterMap_append, List.filterMap_append, hmessages]
  · rw [imported, imported, hlog, hlog', List.filterMap_append, List.filterMap_append, hblocks]

/-- A proposal of the validator 3 for the second round. -/
def nextProposal : Proposal where
  signed := .plain 3 ⟨⟨1, 1⟩, Scheme.plain.digest (.plain 1 [])⟩
  block := .plain 1 []
  roundChanges := [2, 3, 4].map fun k => .plain k ⟨⟨1, 1⟩, none⟩
  prepares := []
  roundChanges_eq_nil_iff := by decide

/-- Votes of three validators for it, but that one prepare is for another block. -/
def nextVotes : List Message :=
  let digest := Scheme.plain.digest (.plain 1 [])
  [.prepare (.plain 2 ⟨⟨1, 1⟩, digest⟩), .prepare (.plain 4 ⟨⟨1, 1⟩, .zero⟩),
    .commit (.plain 2 ⟨⟨1, 1⟩, digest, ⟨.ofNat 2, digest, false⟩⟩),
    .prepare (.plain 3 ⟨⟨1, 1⟩, digest⟩),
    .commit (.plain 4 ⟨⟨1, 1⟩, digest, ⟨.ofNat 4, digest, false⟩⟩)]

theorem run_perm_next :
    let E := Setup.plain (.ofNat 1)
    let h := run E (.plain 3) .plain
      ((Message.proposal nextProposal :: nextVotes).map (Call.giving .plain))
    let h' := run E (.plain 3) .plain
      ((nextVotes ++ [Message.proposal nextProposal]).map (Call.giving .plain))
    E.Able ∧ Collaborators.plain.Takes ∧
      Instance.Clear E nextProposal.round.number nextVotes.length
        (run E (.plain 3) .plain []).inst ∧
      (∃ a, (Committee.plain 3).checkProposal .plain nextProposal = .ok a) ∧
      Ballots E (.plain 3) nextProposal.round nextVotes ∧
      h.inst.phase = .committed ∧ h'.inst.phase = .committed ∧ h.sent = h'.sent ∧
      h.imported = h'.imported := by
  have hable := plain_able (.ofNat 1)
  have htakes : Collaborators.plain.Takes := fun _ _ => rfl
  have hclear : Instance.Clear (.plain (.ofNat 1)) nextProposal.round.number nextVotes.length
      (run (.plain (.ofNat 1)) (.plain 3) .plain []).inst :=
    ⟨by decide +kernel, by decide +kernel, fun h => absurd h (by decide +kernel),
      by decide +kernel, fun _ => by decide +kernel⟩
  have hproposal : ∃ a, (Committee.plain 3).checkProposal .plain nextProposal = .ok a :=
    ⟨.ofNat 3, by decide +kernel⟩
  have hballots : Ballots (.plain (.ofNat 1)) (.plain 3) nextProposal.round nextVotes := by
    decide +kernel
  obtain ⟨-, -, -, hphase, hsent, himported⟩ := run_perm hable htakes .plain [] hclear hproposal
    hballots (.refl (.proposal nextProposal :: nextVotes))
    (List.perm_append_singleton (.proposal nextProposal) nextVotes)
  have hcommitted : (run (.plain (.ofNat 1)) (.plain 3) .plain
      ((Message.proposal nextProposal :: nextVotes).map (Call.giving .plain))).inst.phase = .committed := by
    decide +kernel
  exact ⟨hable, htakes, hclear, hproposal, hballots, hcommitted, hphase.symm.trans hcommitted,
    hsent, himported⟩

end History

end BlockAgreement
