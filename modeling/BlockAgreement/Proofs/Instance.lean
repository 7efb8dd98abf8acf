import BlockAgreement.Proofs.Moves

/-! The handlers of a height make such moves, and whatever way they end, the lock covers the commit
of the round. An error may skip the note that is taken of a prepared block, but only where the node
sent no commit or the round is decided. -/

namespace BlockAgreement.Instance

variable {E : Setup} {C : Committee} {A : Outside} {i j : Instance} {r s : Round}
  (ext : Collaborators)

/-! ### Entering a round -/

theorem noteProgress_of_none (hn : i.round.tally.proposal = none) :
    noteProgress i = ⟨.ok (), i, []⟩ := by
  have hp : i.round.isPrepared = false := by simp [Round.isPrepared, Tally.isPrepared, hn]
  have hc : i.isCommitted = false := by
    simp [isCommitted, Round.isCommitted, Tally.isCommitted, hn]
  rw [noteProgress, Handler.get_bind, hp, hc]
  rfl

theorem onRound_apply {α : Type} {h : Handler Round α} {x : Except Error α} {es : List Effect}
    (hh : h i.round = ⟨x, r, es⟩) : onRound h i = ⟨x, { i with round := r }, es⟩ := by
  rw [onRound, Handler.focus, hh]

/-- A vote that was held for the round, before its proposal has come. -/
theorem handleVote_waits {m : Message} (hm : Holds C A i.round.id.number m)
    (hc : i.committee = C) (hn : i.round.tally.proposal = none) :
    ∃ x, handleVote E ext m i =
        ⟨x, { i with round := (Round.vote E C ext m i.round).state }, []⟩ ∧
      Fails Error.Blames x ∧ Round.Waits E C A i.round (Round.vote E C ext m i.round).state := by
  obtain ⟨ha, hround, hkind⟩ := hm
  subst hc
  rw [handleVote, Handler.get_bind, hround, if_neg (UInt32.lt_irrefl _), if_pos rfl]
  have hnote : ∀ {x : Except Error Unit} {s : Round} {h : Handler Instance Unit},
      h i = ⟨x, { i with round := s }, []⟩ → s.tally.proposal = none →
      (h >>= fun _ => noteProgress) i = ⟨x, { i with round := s }, []⟩ := by
    intro x s h ho hs
    cases x with
    | error e => exact Handler.bind_of_error _ ho
    | ok =>
      rw [Handler.bind_of_ok _ ho, noteProgress_of_none (i := { i with round := s }) hs]
      rfl
  cases m with
  | prepare v =>
    obtain ⟨x, s, ho, hx, hw⟩ := Round.handlePrepare_waits (E := E) (C := i.committee) ext ha hn
    rw [Round.vote, ho]
    exact ⟨x, hnote (onRound_apply ho) hw.proposal, hx, hw⟩
  | commit v =>
    obtain ⟨x, s, ho, hx, hw⟩ := Round.handleCommit_waits (E := E) (C := i.committee) ext ha hn
    rw [Round.vote, ho]
    exact ⟨x, hnote (onRound_apply ho) hw.proposal, hx, hw⟩
  | proposal p => simp [Message.kind] at hkind
  | roundChange rc => simp [Message.kind] at hkind

theorem replayed_waits (ms : List Message) (hms : ∀ m ∈ ms, Holds C A i.round.id.number m)
    (hc : i.committee = C) (hn : i.round.tally.proposal = none) :
    ms.forM (fun m => Handler.absorb survives (handleVote E ext m)) i =
        ⟨.ok ⟨⟩, { i with round := i.round.afterVotes E C ext ms }, []⟩ ∧
      Round.Waits E C A i.round (i.round.afterVotes E C ext ms) := by
  induction ms generalizing i with
  | nil => exact ⟨rfl, .refl hn⟩
  | cons m ms ih =>
    obtain ⟨x, ho, hx, hw⟩ := handleVote_waits (E := E) ext (hms m (List.mem_cons_self ..)) hc hn
    have ho := absorb_of_survived ho (hx.mono fun _ => Error.Blames.survived)
    have hid := (Round.follows_of_chain hw.chain).tally.round
    change (Round.vote E C ext m i.round).state.id = i.round.id at hid
    obtain ⟨ho', hw'⟩ := ih (i := { i with round := (Round.vote E C ext m i.round).state })
      (fun m hm => by simpa only [hid] using hms m (List.mem_cons_of_mem _ hm)) hc hw.proposal
    refine ⟨(Handler.bind_of_ok _ ho).trans ?_, hw.trans hw'⟩
    rw [ho']
    rfl

/-- Entering a round starts its timer and gives it the votes that were held for it, each of them
once and in their order. It never fails. -/
theorem advance_gives (hc : i.committee = C) (n : UInt32)
    (hheld : ∀ m ∈ i.backlog.queue n, Holds C A n m) : ∃ fs,
    advance E ext n i = ⟨.ok (), { i with
      round := (freshRound E C n).afterVotes E C ext (i.backlog.queue n)
      roundChanges := i.roundChanges.discardBefore n
      backlog := i.backlog.discardThrough n }, fs⟩ ∧ (∀ e ∈ fs, e.Silent) ∧
    Round.Waits E C A (freshRound E C n)
      ((freshRound E C n).afterVotes E C ext (i.backlog.queue n)) := by
  subst hc
  rw [advance, Handler.get_bind, Handler.ask_bind, Handler.set_bind, Handler.ask_bind, replay,
    Handler.get_bind, Handler.set_bind]
  obtain ⟨ho, hw⟩ := replayed_waits (E := E) (C := i.committee) (A := A) ext
    (i := { i with
      round := freshRound E i.committee n
      roundChanges := i.roundChanges.discardBefore n
      backlog := i.backlog.discardThrough n })
    (i.backlog.queue n) hheld rfl rfl
  rw [ho]
  exact ⟨_, rfl, by simp [Effect.Silent], hw⟩

/-- Moves of the round, which change nothing else that a proposal may depend on. -/
theorem chain_of_round {own : Proposal → Prop} {es : List Effect}
    (hown : ∀ p, own p → MayPropose E A i p)
    (h : Chain (Round.Move E i.committee A own) i.round es r) :
    Chain (Stay E A) i es { i with round := r } :=
  h.lift (fun r => { i with round := r }) fun _ _ _ h => ⟨.round <| h.mono fun p hp =>
    { hown p hp with }, h.follows.tally.round⟩

/-- Votes that came before the proposal, after a round was entered. -/
theorem chain_of_waits (h : Round.Waits E i.committee A i.round r) :
    Chain (Move E A) i [] { i with round := r } :=
  chain_of_stay (chain_of_round nofun h.chain)

theorem chain_of_enter {n : UInt32} {fs es : List Effect} {q : RoundChanges} (changing : Bool)
    (hn : MayEnter E A i n) (hf : ∀ e ∈ fs, e.Silent) (h : Announces E i n es q)
    (hw : Round.Waits E i.committee A (freshRound E i.committee n) r) :
    Chain (Move E A) i (fs ++ es) { i with
      round := r
      roundChanges := q
      backlog := i.backlog.discardThrough n
      changing } := by
  have := ((Chain.single (Move.enter hn hf h)).trans (chain_of_waits hw)).snoc (.mark changing)
  simpa using this

/-- A round just entered: nothing was proposed in it, and the node sent no commit. -/
structure Entered (E : Setup) (C : Committee) (A : Outside) (n : UInt32) (i : Instance) :
    Prop where
  formed : Formed E C A i
  id : i.round.id = ⟨C.height, n⟩
  proposal : i.round.tally.proposal = none
  commitSent : i.round.commitSent = false

theorem Entered.undecided {n : UInt32} (h : Entered E C A n i) : i.isCommitted = false := by
  simp [isCommitted, Round.isCommitted, Tally.isCommitted, h.proposal]

theorem Entered.noted {n : UInt32} (h : Entered E C A n i) : i.Noted := by
  intro hs
  simp [h.commitSent] at hs

theorem entered_of_waits {n : UInt32} (hi : Formed E C A i)
    (hw : Round.Waits E C A (freshRound E C n) i.round) : Entered E C A n i where
  formed := hi
  id := (Round.follows_of_chain hw.chain).tally.round
  proposal := hw.proposal
  commitSent := hw.commitSent

theorem advance_does {n : UInt32} (hi : Formed E C A i) (hn : MayEnter E A i n) :
    Handler.Does (Move E A) (advance E ext n) i fun _ j =>
      Entered E C A n j ∧ j.roundChanges = i.roundChanges.discardBefore n := by
  obtain ⟨fs, ho, hf, hw⟩ := advance_gives (E := E) ext hi.committee n (hi.held n)
  have hc := hi.committee
  subst hc
  have hchain := chain_of_enter i.changing hn hf .silent hw
  rw [Handler.Does, ho]
  rw [List.append_nil] at hchain
  exact ⟨hchain, entered_of_waits (hi.chain hchain) hw, rfl⟩

theorem advance_quiet (hi : Formed E C A i) (n : UInt32) :
    ∀ e ∈ (advance E ext n i).effects, e.Quiet := by
  obtain ⟨fs, ho, hf, -⟩ := advance_gives (E := E) ext hi.committee n (hi.held n)
  rw [ho]
  exact fun e he => (hf e he).quiet

/-! ### Votes and proposals in the current round -/

variable (E C A) in
/-- The state between two events: well formed, with a lock that covers the node's commit. -/
structure Settled (i : Instance) : Prop where
  formed : Formed E C A i
  noted : E.Sound → i.Noted

theorem Entered.settled {n : UInt32} (h : Entered E C A n i) : Settled E C A i :=
  ⟨h.formed, fun _ => h.noted⟩

theorem noteProgress_does (hi : Formed E C A i) :
    Handler.Does (Stay E A) noteProgress i fun _ j => Settled E C A j := by
  have hcancel : ∀ {j : Instance}, Settled E C A j → Handler.Does (Stay E A)
      (if i.isCommitted then .ask (.cancelTimer i.round.id) else pure ()) j
      fun _ j => Settled E C A j := by
    intro j hj
    split
    · exact .ask ⟨.ask trivial, rfl⟩ hj
    · exact .pure hj
  refine .get ?_
  dsimp only
  split
  · next hnew =>
    rw [Bool.and_eq_true] at hnew
    obtain ⟨l, -, hl, hr, -⟩ := Tally.exists_lock hnew.1
    refine .bind (Q := fun _ j => Settled E C A j) (.set ⟨.note hnew.1, rfl⟩ ?_) (fun _ j hj => hcancel hj)
      fun _ _ h => h
    exact ⟨hi.move (.note hnew.1), fun _ _ => .inr ⟨l, hl, hr⟩⟩
  · next hold =>
    refine hcancel ⟨hi, fun _ hs => .inr ?_⟩
    have hp := hi.prepared hs
    simpa [hp] using hold

/-- A handler of the round keeps what was noted, unless a note is still to be taken. -/
theorem onRound_does {h : Handler Round Unit} (hi : Settled E C A i)
    (hh : Handler.Does (Round.Move E C A (MayPropose E A i)) h i.round (Round.Accounts E i.round)) :
    Handler.Does (Stay E A) (onRound h) i fun x j =>
      Formed E C A j ∧ ∀ e, x = .error e → Settled E C A j := by
  obtain ⟨hc, hq⟩ := hh
  have hcommittee := hi.formed.committee
  subst hcommittee
  have hchain := chain_of_round (fun _ h => h) hc
  have hj := hi.formed.chain (chain_of_stay hchain)
  refine ⟨hchain, hj, fun e he => ⟨hj, fun hE hs => ?_⟩⟩
  have hf := Round.follows_of_chain hc
  rcases hq e he hE hs with hsent | hdecided
  · rcases hi.noted hE hsent with h | ⟨l, hl, hr⟩
    · exact .inl (hf.tally.isCommitted h)
    · exact .inr ⟨l, hl, hr.trans (congrArg RoundId.number hf.tally.round).symm⟩
  · exact .inl hdecided

theorem Settled.member (hi : Settled E C A i) (h : i.round.participates = true) :
    C.contains E.signer.address = true :=
  hi.formed.committee ▸ hi.formed.member h

/-- The round takes something in, and then what came of it is noted. -/
theorem onRound_note_does {h : Handler Round Unit} (hi : Settled E C A i)
    (hh : Handler.Does (Round.Move E C A (MayPropose E A i)) h i.round (Round.Accounts E i.round)) :
    Handler.Does (Stay E A) (onRound h >>= fun _ => noteProgress) i fun _ j => Settled E C A j :=
  .bind (onRound_does hi hh) (fun _ _ hj => noteProgress_does hj.1) fun e _ hj => hj.2 e rfl

theorem hold_does {m : Message} (hi : Settled E C A i) (hm : Holds C A m.round.number m) :
    Handler.Does (Stay E A) (hold E m) i fun _ j => Settled E C A j := by
  refine .get (.ofExcept_bind (fun a _ => ?_) fun _ _ => hi)
  have hc := hi.formed.committee
  subst hc
  split
  · exact .set ⟨.hold hm, rfl⟩ ⟨hi.formed.move (.hold hm), hi.noted⟩
  · exact .ofExcept hi

theorem handleVote_does {m : Message} (hi : Settled E C A i) (hm : Holds C A m.round.number m) :
    Handler.Does (Stay E A) (handleVote E ext m) i fun _ j => Settled E C A j := by
  refine .get ?_
  have hc := hi.formed.committee
  split
  · exact hold_does hi hm
  split
  · cases m with
    | prepare v =>
      rw [hc]
      exact onRound_note_does hi (Round.handlePrepare_does ext hm.1 hi.member)
    | commit v =>
      rw [hc]
      exact onRound_note_does hi (Round.handleCommit_does ext hm.1 hi.member)
    | proposal p => simp [Holds, Message.kind] at hm
    | roundChange rc => simp [Holds, Message.kind] at hm
  · exact .pure hi

theorem acceptProposal_note_does {p : Proposal} (hi : Settled E C A i)
    (hp : p.Backed E.scheme C A) (hr : p.round = i.round.id) :
    Handler.Does (Stay E A) (do
      onRound (Round.acceptProposal E C ext p)
      modify fun i => { i with changing := false }
      noteProgress) i fun _ j => Settled E C A j := by
  refine .bind (onRound_does hi (Round.acceptProposal_does ext hp hr hi.member)) ?_
    fun e _ hj => hj.2 e rfl
  exact fun _ _ hj => .modify_bind ⟨.mark false, rfl⟩ (noteProgress_does (hj.1.move (.mark false)))

theorem handleProposal_arrives {p : Proposal} (hi : Settled E C A i)
    (hp : A.Admits (.proposal p)) :
    Arrives E A i (handleProposal E ext p i) fun _ j => Settled E C A j := by
  refine .get ?_
  split
  · next hguard =>
    simp only [Bool.and_eq_true, decide_eq_true_eq, Bool.not_eq_true'] at hguard
    obtain ⟨hle, hundecided⟩ := hguard
    cases hcheck : i.committee.checkProposal E.scheme p with
    | error e => exact .of_stay ⟨.refl i, hi⟩
    | ok a =>
      have hc := hi.formed.committee
      obtain ⟨hh, hd, hn, hj⟩ := Committee.checkProposal_eq_ok hcheck
      rw [hc] at hh hn hj
      have hbacked : p.Backed E.scheme C A := ⟨hd, .inr hn, hp, hj⟩
      have hround : p.round = ⟨C.height, p.round.number⟩ := by rw [← hh]
      refine .skip (a := ()) rfl ?_
      split
      · next hlt =>
        refine .bind (advance_does ext hi.formed ⟨hundecided, .inl hlt, hi.noted⟩)
          (advance_quiet ext hi.formed _) ?_ fun _ _ hj => hj.1.settled
        intro _ j hj
        rw [hc]
        exact .of_stay (acceptProposal_note_does ext hj.1.settled hbacked
          (hround.trans hj.1.id.symm))
      · next hge =>
        have hid : i.round.id = ⟨C.height, p.round.number⟩ := by
          rw [← UInt32.le_antisymm hle (UInt32.not_lt.1 hge), ← hi.formed.height]
        rw [hc]
        exact .of_stay (acceptProposal_note_does ext hi hbacked (hround.trans hid.symm))
  · exact .of_stay (.pure hi)

/-! ### Proposing -/

variable (hext : ∀ n b, ext.createBlock ⟨C.height, n⟩ = .ok b → A.block b)

include hext in
theorem makeBlock_does (hi : Formed E C A i) :
    Handler.Does (Stay E A) (makeBlock ext i.round.id) i fun x j =>
      j = i ∧ ∀ b, x = .ok b → A.block b := by
  refine .step rfl (.single ⟨.ask trivial, rfl⟩) (.ofExcept ⟨rfl, fun b hb => ?_⟩)
  refine hext i.round.id.number b ?_
  rwa [← hi.height]

theorem propose_does {b : Block} {rcs : List (Signed RoundChangeStatement)}
    {prepares : List Prepare} (hi : Settled E C A i) (hn : i.round.hasProposal = false)
    (hown : ∀ p, E.signer.propose E.scheme i.round.id b rcs prepares = .ok p →
      MayPropose E A i p) :
    Handler.Does (Stay E A) (propose E ext b rcs prepares) i fun _ j => Settled E C A j := by
  refine .get ?_
  rw [hi.formed.committee]
  refine .bind (onRound_does hi (Round.propose_does ext hn hown hi.member)) ?_
    fun e _ hj => hj.2 e rfl
  exact fun _ _ hj => .modify_bind ⟨.mark false, rfl⟩ (noteProgress_does (hj.1.move (.mark false)))

include hext in
/-- The block is the one that the justification asks for, or a new one. -/
theorem proposeIfProposer_does {j? : Option Justification} (hi : Settled E C A i)
    (hj : ∀ j, j? = some j → Justification.assemble? E.scheme i.round.id
      ((i.roundChanges.gathering i.round.id.number).votes.map (·.2)) i.committee.quorum =
        .ok (some j)) :
    Handler.Does (Stay E A) (proposeIfProposer E ext j?) i fun _ j => Settled E C A j := by
  refine .get ?_
  split
  · next hguard =>
    simp only [Bool.and_eq_true, Bool.not_eq_true'] at hguard
    refine .ofExcept_bind (fun proposer hturn => ?_) fun _ _ => hi
    split
    · next hown =>
      rw [hown] at hturn
      split
      · next h0 =>
        refine .bind (makeBlock_does ext hext hi.formed) ?_ fun e _ h => h.1 ▸ hi
        rintro b _ ⟨rfl, hb⟩
        refine propose_does ext hi hguard.2 fun p hp => ?_
        obtain ⟨hr, hd, rfl, -, hps⟩ := Signer.propose_eq_ok hp
        exact ⟨hr ▸ hturn, Signer.sign_of_propose hp, hd.symm, fun _ => ⟨hps, hb _ rfl⟩,
          fun hne => absurd (hr ▸ h0) hne⟩
      · next h0 =>
        cases j? with
        | none => exact .pure hi
        | some j =>
          have hpropose : ∀ b, j.block = some b ∨ j.block = none ∧ A.block b →
              Handler.Does (Stay E A) (propose E ext b j.roundChanges j.prepares) i
                fun _ j => Settled E C A j := by
            intro b hb
            refine propose_does ext hi hguard.2 fun p hp => ?_
            obtain ⟨hr, hd, rfl, hrcs, hps⟩ := Signer.propose_eq_ok hp
            refine ⟨hr ▸ hturn, Signer.sign_of_propose hp, hd.symm, fun h => absurd (hr ▸ h) h0,
              fun _ => ⟨j, ?_, hrcs, hps, hb⟩⟩
            rw [hr]
            exact hj j rfl
          dsimp only
          cases hb : j.block with
          | some b => exact .skip rfl (hpropose b (.inl hb))
          | none =>
            refine .bind (makeBlock_does ext hext hi.formed) ?_ fun e _ h => h.1 ▸ hi
            rintro b _ ⟨rfl, hb'⟩
            exact hpropose b (.inr ⟨hb, hb' _ rfl⟩)
    · exact .pure hi
  · exact .pure hi

/-! ### Changing the round -/

variable (E C) in
/-- A justification that came of what is gathered for its round. -/
def Justifies (i : Instance) (j : Justification) : Prop :=
  j.round = ⟨C.height, j.round.number⟩ ∧ Justification.assemble? E.scheme j.round
    ((i.roundChanges.gathering j.round.number).votes.map (·.2)) C.quorum = .ok (some j)

include hext in
theorem enter_arrives {j : Justification} (hi : Settled E C A i) (hundecided : i.isCommitted = false)
    (hj : Justifies E C i j) :
    Arrives E A i (enter E ext j i) fun _ k => Settled E C A k := by
  have hpropose : ∀ {k : Instance}, Settled E C A k → k.round.id = j.round → Justifies E C k j →
      Handler.Does (Stay E A) (do
        modify fun i => { i with changing := false }
        proposeIfProposer E ext (some j)) k fun _ k => Settled E C A k := by
    intro k hk hid hjk
    refine .modify_bind ⟨.mark false, rfl⟩ ?_
    refine proposeIfProposer_does ext hext ⟨hk.formed.move (.mark false), hk.noted⟩ ?_
    rintro _ ⟨⟩
    rw [hid, hk.formed.committee]
    exact hjk.2
  refine .get ?_
  split
  · next hle =>
    split
    · next hlt =>
      refine .bind (advance_does ext hi.formed ⟨hundecided, .inl hlt, hi.noted⟩)
        (advance_quiet ext hi.formed _) ?_ fun _ _ hk => hk.1.settled
      rintro _ k ⟨hk, hrcs⟩
      refine .of_stay (hpropose hk.settled (hk.id.trans hj.1.symm) ⟨hj.1, ?_⟩)
      rw [hrcs, RoundChanges.gathering_discardBefore, if_pos (UInt32.le_refl _)]
      exact hj.2
    · next hge =>
      refine .of_stay (hpropose hi ?_ hj)
      rw [hj.1, ← UInt32.le_antisymm hle (UInt32.not_lt.1 hge), ← hi.formed.height]
  · exact .of_stay (.pure hi)

theorem onRoundChanges_apply {α : Type} {h : Handler RoundChanges α} {x : Except Error α}
    {q : RoundChanges} {es : List Effect} (hh : h i.roundChanges = ⟨x, q, es⟩) :
    onRoundChanges h i = ⟨x, { i with roundChanges := q }, es⟩ := by
  rw [onRoundChanges, Handler.focus, hh]

theorem justifies_of_append {rc : RoundChange} {j : Justification}
    (h : (∃ a, C.checkRoundChange E.scheme rc = .ok a) ∧ Justification.assemble? E.scheme rc.round
      ((i.roundChanges.gathering rc.round.number).votes.map (·.2)) C.quorum = .ok (some j)) :
    Justifies E C i j := by
  obtain ⟨⟨a, ha⟩, hj⟩ := h
  have hr := Justification.round_of_assemble hj
  have hh := (Committee.checkRoundChange_eq_ok_iff.1 ha).2.1
  refine ⟨by rw [hr, ← hh], ?_⟩
  rw [hr]
  exact hj

include hext in
/-- The round change goes out and is gathered in the move that enters the round. -/
theorem changeRound_arrives {n : UInt32} (hi : Formed E C A i) (hn : MayEnter E A i n) :
    Arrives E A i (changeRound E ext n i) fun _ j => Settled E C A j := by
  obtain ⟨fs, ho, hf, hw⟩ := advance_gives (E := E) ext hi.committee n (hi.held n)
  generalize (freshRound E C n).afterVotes E C ext (i.backlog.queue n) = r at ho hw
  have hc := hi.committee
  subst hc
  have hquiet : ∀ e ∈ fs, e.Quiet := fun e he => (hf e he).quiet
  have hsilent := chain_of_enter true hn hf (.silent (E := E)) hw
  have hentered := entered_of_waits (hi.chain hsilent) hw
  have hid : r.id = ⟨i.committee.height, n⟩ := hentered.id
  rw [changeRound, Handler.bind_of_ok _ ho, Handler.modify_bind, Handler.get_bind]
  dsimp only
  rw [hid]
  rw [List.append_nil] at hsilent
  split
  · cases hrc : E.signer.changeRound E.scheme ⟨i.committee.height, n⟩ i.lock with
    | error e => exact .after hsilent hquiet (.of_stay (.ofExcept hentered.settled))
    | ok rc =>
      obtain ⟨x, q, hx, hq, hj⟩ := RoundChanges.append_spec (S := E.scheme) (C := i.committee) rc
        (i.roundChanges.discardBefore n)
      have hsent := chain_of_enter true hn hf (.roundChange hrc hq) hw
      have hk := entered_of_waits (hi.chain hsent) hw
      have hquiet' : ∀ e ∈ fs ++ [.multicast (.roundChange rc)], e.Quiet := fun e he =>
        (List.mem_append.1 he).elim (hquiet e) fun he => List.mem_singleton.1 he ▸ rfl
      rw [Handler.ofExcept_ok_bind, Handler.multicast, Handler.ask_bind]
      cases x with
      | error e =>
        rw [Handler.bind_of_error _ (onRoundChanges_apply hx)]
        exact .of_quiet hsent hquiet' hk.settled
      | ok j? =>
        rw [Handler.bind_of_ok _ (onRoundChanges_apply hx)]
        cases j? with
        | none => exact .of_quiet hsent hquiet' hk.settled
        | some j =>
          have := (enter_arrives ext hext hk.settled hk.undecided
            (justifies_of_append (hj j rfl))).after hsent hquiet'
          rwa [List.append_assoc] at this
  · exact .after hsilent hquiet (.of_stay (.pure hentered.settled))

include hext in
theorem handleRoundChange_arrives {rc : RoundChange} (hi : Settled E C A i)
    (hrc : A.Admits (.roundChange rc)) :
    Arrives E A i (handleRoundChange E ext rc i) fun _ j => Settled E C A j := by
  refine .get ?_
  split
  · next hguard =>
    simp only [Bool.and_eq_true, decide_eq_true_eq, Bool.not_eq_true'] at hguard
    have hc := hi.formed.committee
    subst hc
    obtain ⟨x, q, hx, hq, hj⟩ :=
      RoundChanges.append_spec (S := E.scheme) (C := i.committee) rc i.roundChanges
    have hk : Settled E i.committee A { i with roundChanges := q } :=
      ⟨hi.formed.move (.gather hrc hq), hi.noted⟩
    have hgather := Chain.single (Move.gather hrc hq)
    cases x with
    | error e =>
      rw [Handler.bind_of_error _ (onRoundChanges_apply hx)]
      exact .of_quiet hgather nofun hk
    | ok j? =>
      rw [Handler.bind_of_ok _ (onRoundChanges_apply hx)]
      refine .after hgather nofun ?_
      cases j? with
      | some j => exact enter_arrives ext hext hk hguard.2 (justifies_of_append (hj j rfl))
      | none =>
        refine .skip (a := q) rfl ?_
        split
        · cases hn : q.earlyTarget? i.committee i.round.id.number with
          | none => exact .of_stay (.pure hk)
          | some n =>
            exact changeRound_arrives ext hext hk.formed
              ⟨hguard.2, .inl (RoundChanges.lt_of_earlyTarget hn), hk.noted⟩
        · exact .of_stay (.pure hk)
  · exact .of_stay (.pure hi)

include hext in
/-- A message is handled in moves, however that ends. -/
theorem handleMessage_arrives {m : Message} (hi : Settled E C A i) (hm : A.Admits m) :
    Arrives E A i (handleMessage E ext m i) fun _ j => Settled E C A j := by
  refine .get ?_
  split
  · next hh =>
    have hround : m.round = ⟨C.height, m.round.number⟩ := by
      rw [← hi.formed.committee, ← height, ← hh]
    refine .absorb (Q := fun _ j => Settled E C A j) ?_ fun _ _ hj => ⟨hj, hj⟩
    cases m with
    | proposal p => exact handleProposal_arrives ext hi hm
    | roundChange rc => exact handleRoundChange_arrives ext hext hi hm
    | prepare v => exact .of_stay (handleVote_does ext hi ⟨hm, hround, .inl rfl⟩)
    | commit v => exact .of_stay (handleVote_does ext hi ⟨hm, hround, .inr rfl⟩)
  · exact .of_stay (.pure hi)

include hext in
/-- The last round is entered again when its timer runs out. -/
theorem roundExpired_arrives {round : RoundId} (hi : Settled E C A i)
    (hlast : round.number = lastNumber → round = i.round.id → i.isCommitted = false →
      A.lastExpires) :
    Arrives E A i (roundExpired E ext round i) fun _ j => Settled E C A j := by
  refine .get ?_
  split
  · next hguard =>
    simp only [Bool.and_eq_true, decide_eq_true_eq, Bool.not_eq_true'] at hguard
    obtain ⟨rfl, hundecided⟩ := hguard
    refine .absorb (Q := fun _ j => Settled E C A j) ?_ fun _ _ hj => ⟨hj, hj⟩
    refine changeRound_arrives ext hext hi.formed ⟨hundecided, ?_, hi.noted⟩
    by_cases hn : i.round.id.number = lastNumber
    · exact .inr ⟨by rw [hn, nextNumber_lastNumber], hn, hlast hn rfl hundecided⟩
    · exact .inl (lt_nextNumber _ hn)
  · exact .of_stay (.pure hi)

include hext in
theorem start_does (hi : Settled E C A i) :
    Handler.Does (Stay E A) (start E ext) i fun _ j => Settled E C A j := by
  refine .get (.step rfl (.single ⟨.ask trivial, rfl⟩) ?_)
  exact .absorb (proposeIfProposer_does ext hext hi nofun) fun _ _ hj => ⟨hj, hj⟩

end BlockAgreement.Instance
