import BlockAgreement.Proofs.Delivery
import BlockAgreement.Proofs.Working

/-! A height seen as turns of its rounds. In a turn a round takes something in, sends its votes and
hands over the block if it is decided; if nothing fails on the way, the timer of a decided round is
stopped at the end of the turn. Besides turns a height only enters rounds, before the decision.
Where the node's key works, a decided round has handed over its block, also when the block was
refused. -/

namespace BlockAgreement

/-- Requests that have nothing to do with timers. -/
def Effect.Untimed : Effect → Prop
  | .startTimer .. | .cancelTimer _ => False
  | .multicast _ | .requestBlock .. | .deliverBlock .. => True

/-- Requests that neither have to do with timers nor hand over a block. -/
def Effect.Aside : Effect → Prop
  | .multicast _ | .requestBlock .. => True
  | .startTimer .. | .cancelTimer _ | .deliverBlock .. => False

theorem Effect.Aside.untimed {e : Effect} (h : e.Aside) : e.Untimed := by
  cases e with
  | multicast | requestBlock => trivial
  | startTimer | cancelTimer | deliverBlock => exact h.elim

namespace Round

variable {E : Setup} {C : Committee} {r s : Round} {o : Outcome Round Unit}
  (ext : Collaborators)

/-- A decided block was handed over. -/
def Handed (r : Round) : Prop := r.isCommitted = true → r.delivered = true

/-! ### The end of a turn -/

/-- What handing over comes to. -/
inductive HandsOver (r : Round) : Outcome Round Unit → Prop
  | rest (h : r.Handed) : HandsOver r ⟨.ok (), r, []⟩
  | taken {b : Block} {seals : List Signature} (hd : r.tally.decision? = some (b, seals)) :
      HandsOver r ⟨.ok (), { r with delivered := true }, [.deliverBlock b seals true]⟩
  | refused {b : Block} {seals : List Signature} {e : Error}
      (hd : r.tally.decision? = some (b, seals)) :
      HandsOver r ⟨.error e, { r with delivered := true }, [.deliverBlock b seals false]⟩

theorem deliverIfCommitted_handsOver (r : Round) : HandsOver r (deliverIfCommitted ext r) := by
  by_cases hdue : r.Handed
  · rw [deliverIfCommitted_of_rest ext hdue]
    exact .rest hdue
  · obtain ⟨hc, hd⟩ : r.isCommitted = true ∧ r.delivered = false := by
      simpa [Handed] using hdue
    obtain ⟨p, hp⟩ := (Tally.isCommitted_iff.1 hc).1
    obtain ⟨b, seals, hdecision⟩ : ∃ b seals, r.tally.decision? = some (b, seals) := by
      rw [Tally.decision?, if_pos (show r.tally.isCommitted = true from hc), hp]
      exact ⟨_, _, rfl⟩
    rw [deliverIfCommitted, Handler.get_bind, hdecision]
    dsimp only
    rw [if_pos (by simp [hd]), Handler.set_bind]
    cases himport : ext.importBlock b seals with
    | error => exact .refused hdecision
    | ok => exact .taken hdecision

/-- How a round comes out of a turn. -/
structure Turned (r : Round) (o : Outcome Round Unit) : Prop where
  tally : o.state.tally.Extends r.tally
  participates : o.state.participates = r.participates
  untimed : ∀ e ∈ o.effects, e.Untimed
  /-- Only a decided block is handed over, and the turn fails if it is refused. -/
  delivery : ∀ b seals accepted, .deliverBlock b seals accepted ∈ o.effects →
    o.state.isCommitted = true ∧ (accepted = true → o.result = .ok ())
  delivered : o.state.delivered = true →
    r.delivered = true ∨ ∃ b seals accepted, .deliverBlock b seals accepted ∈ o.effects

/-- What comes before the end of a turn: votes are counted, and messages sent. -/
structure Counted (r : Round) (o : Outcome Round Unit) : Prop where
  tally : o.state.tally.Extends r.tally
  participates : o.state.participates = r.participates
  delivered : o.state.delivered = r.delivered
  aside : ∀ e ∈ o.effects, e.Aside

theorem counted_refl (x : Except Error Unit) : Counted r ⟨x, r, []⟩ := ⟨.refl _, rfl, rfl, nofun⟩

theorem Counted.turned (h : Counted r o) : Turned r o where
  tally := h.tally
  participates := h.participates
  untimed e he := (h.aside e he).untimed
  delivery _ _ _ hm := (h.aside _ hm).elim
  delivered hd := .inl (h.delivered ▸ hd)

theorem Turned.after {o' : Outcome Round Unit} (h : Turned o.state o') (hc : Counted r o) :
    Turned r ⟨o'.result, o'.state, o.effects ++ o'.effects⟩ where
  tally := h.tally.trans hc.tally
  participates := h.participates.trans hc.participates
  untimed e he := (List.mem_append.1 he).elim (fun he => (hc.aside e he).untimed) (h.untimed e)
  delivery b seals accepted hm :=
    (List.mem_append.1 hm).elim (fun hm => (hc.aside _ hm).elim) (h.delivery b seals accepted)
  delivered hd := by
    rcases h.delivered hd with hd | ⟨b, seals, accepted, hm⟩
    · exact .inl (hc.delivered ▸ hd)
    · exact .inr ⟨b, seals, accepted, List.mem_append_right _ hm⟩

/-- The end of a turn is come to unless something before it fails. -/
theorem Turned.bind {h k : Handler Round Unit} (ho : h s = o) (hc : Counted r o)
    (hk : ∀ s, Turned s (k s)) : Turned r ((h >>= fun _ => k) s) := by
  obtain ⟨x, t, es⟩ := o
  cases x with
  | error e =>
    rw [Handler.bind_of_error _ ho]
    exact hc.turned
  | ok =>
    rw [Handler.bind_of_ok _ ho]
    exact (hk t).after hc

theorem HandsOver.turned (h : HandsOver r o) : Turned r o := by
  cases h with
  | rest => exact (counted_refl _).turned
  | taken hd =>
    refine ⟨.refl _, rfl, by simp [Effect.Untimed], fun b seals accepted _ => ?_, fun _ => .inr ?_⟩
    · exact ⟨(Tally.decision?_eq_some hd).1, fun _ => rfl⟩
    · exact ⟨_, _, _, List.mem_singleton_self _⟩
  | refused hd =>
    refine ⟨.refl _, rfl, by simp [Effect.Untimed], fun b seals accepted hm => ?_, fun _ => .inr ?_⟩
    · cases List.mem_singleton.1 hm
      exact ⟨(Tally.decision?_eq_some hd).1, nofun⟩
    · exact ⟨_, _, _, List.mem_singleton_self _⟩

theorem HandsOver.handed (h : HandsOver r o) : o.state.Handed := by
  cases h with
  | rest h => exact h
  | taken | refused => exact fun _ => rfl

/-- The node's commit goes out and is counted, or not. -/
theorem commitIfPrepared_counted (r : Round) : Counted r (commitIfPrepared E C r) := by
  rw [commitIfPrepared, Handler.get_bind]
  cases r.tally.proposal with
  | none => exact counted_refl _
  | some p =>
    dsimp only
    split
    · cases E.signer.commit E.scheme r.id p.digest with
      | error e => exact counted_refl _
      | ok m =>
        have hsent : ∀ e ∈ [Effect.multicast (.commit m)], e.Aside :=
          fun e he => List.mem_singleton.1 he ▸ trivial
        rw [Handler.ofExcept_ok_bind, Handler.set_bind, Handler.multicast, Handler.ask_bind,
          addCommit_apply]
        cases ht : r.tally.addCommit E.scheme C m with
        | error e => exact ⟨.refl _, rfl, rfl, hsent⟩
        | ok t => exact ⟨(Tally.addCommit_extends ht).1, rfl, rfl, hsent⟩
    · exact counted_refl _

theorem progress_turned (r : Round) : Turned r (progress E C ext r) :=
  .bind rfl (commitIfPrepared_counted r) fun s => (deliverIfCommitted_handsOver ext s).turned

/-! ### Votes and proposals -/

theorem Adds.turned {add : Tally → Except Error Tally} {h : Collaborators → Handler Round Unit}
    (hadds : Adds E C add h) (hadd : ∀ t, add r.tally = .ok t → t.Extends r.tally) :
    Turned r (h ext r) := by
  rw [hadds]
  cases ht : add r.tally with
  | error e => exact (counted_refl _).turned
  | ok t =>
    have hc : Counted r ⟨.ok (), { r with tally := t }, []⟩ := ⟨hadd t ht, rfl, rfl, nofun⟩
    exact (progress_turned ext _).after hc

theorem handlePrepare_turned (m : Prepare) : Turned r (handlePrepare E C ext m r) :=
  (handlePrepare_adds m).turned ext fun _ ht => (Tally.addPrepare_extends ht).1

theorem handleCommit_turned (m : Commit) : Turned r (handleCommit E C ext m r) :=
  (handleCommit_adds m).turned ext fun _ ht => (Tally.addCommit_extends ht).1

/-- A round without a proposal has none after a vote. -/
theorem Adds.proposal_eq_none {add : Tally → Except Error Tally}
    {h : Collaborators → Handler Round Unit} (hadds : Adds E C add h)
    (hadd : ∀ t, add r.tally = .ok t → t.proposal = r.tally.proposal)
    (hn : r.tally.proposal = none) : (h ext r).state.tally.proposal = none := by
  rw [hadds]
  cases ht : add r.tally with
  | error e => exact hn
  | ok t =>
    have hnt := (hadd t ht).trans hn
    dsimp only
    rw [progress_of_none ext hnt]
    exact hnt

theorem acceptProposal_turned (p : Proposal) : Turned r (acceptProposal E C ext p r) := by
  cases ht : r.tally.setProposal? E.scheme C p with
  | none =>
    rw [acceptProposal, Handler.get_bind, ht]
    exact (counted_refl _).turned
  | some t =>
    obtain ⟨x, es, u, ho, ha⟩ := answer_spec ht
    rw [acceptProposal_of_some ext ht]
    refine .bind ho ⟨ha.spec.2.1, rfl, rfl, ?_⟩ (progress_turned ext)
    cases ha with
    | silent => exact List.forall_mem_nil _
    | prepare => exact fun e he => List.mem_singleton.1 he ▸ trivial

theorem propose_turned (b : Block) (rcs : List (Signed RoundChangeStatement))
    (prepares : List Prepare) : Turned r (propose E C ext b rcs prepares r) := by
  rw [propose, Handler.get_bind]
  cases E.signer.propose E.scheme r.id b rcs prepares with
  | error e => exact (counted_refl _).turned
  | ok p =>
    have hc : Counted r ⟨.ok (), r, [.multicast (.proposal p)]⟩ :=
      ⟨.refl _, rfl, rfl, fun e he => List.mem_singleton.1 he ▸ trivial⟩
    exact (acceptProposal_turned ext p).after hc

/-! ### Where the key works -/

variable (E C) in
/-- A member has the right to vote. -/
def Member (r : Round) : Prop := r.participates = true → C.contains E.signer.address = true

section

variable (hE : E.Able) (hr : r.Member E C)
include hE hr

/-- A turn in which nothing is to be signed that cannot be, ends with the block handed over. -/
theorem progress_handed : (progress E C ext r).state.Handed := by
  obtain ⟨es, s, ho, -⟩ := commitIfPrepared_works hE hr
  rw [progress, Handler.bind_of_ok _ ho]
  exact (deliverIfCommitted_handsOver ext s).handed

theorem Adds.handed {add : Tally → Except Error Tally} {h : Collaborators → Handler Round Unit}
    (hadds : Adds E C add h) (hd : r.Handed) : (h ext r).state.Handed := by
  rw [hadds]
  cases add r.tally with
  | error e => exact hd
  | ok t => exact progress_handed ext hE hr

theorem acceptProposal_handed (hd : r.Handed) (p : Proposal) :
    (acceptProposal E C ext p r).state.Handed := by
  cases hp : r.tally.proposal with
  | some q =>
    rw [acceptProposal_of_some_proposal ext hp]
    exact hd
  | none =>
    obtain ⟨es, s, hs, ho⟩ := acceptProposal_works hE hr (p := p) hp
    rw [ho]
    refine progress_handed ext hE ?_
    rw [Member, hs.keeps.2.1]
    exact hr

theorem propose_handed (hd : r.Handed) (b : Block) (rcs : List (Signed RoundChangeStatement))
    (prepares : List Prepare) : (propose E C ext b rcs prepares r).state.Handed := by
  rw [propose, Handler.get_bind]
  cases E.signer.propose E.scheme r.id b rcs prepares with
  | error e => exact hd
  | ok p => exact acceptProposal_handed ext hE hr hd p

end

end Round

namespace Instance

open Handler (Does)

variable (E : Setup) (ext : Collaborators)

/-- What becomes of a height, turn by turn and round by round. -/
inductive Turn : Instance → List Effect → Instance → Prop
  /-- The round is left as it is. -/
  | aside {i j : Instance} {es : List Effect} (hc : j.committee = i.committee)
      (hr : j.round = i.round) (hes : ∀ e ∈ es, e.Aside) : Turn i es j
  /-- Where nothing failed, the timer of a decided round is stopped. -/
  | turn {i j : Instance} {o : Outcome Round Unit} (hc : j.committee = i.committee)
      (hr : j.round = o.state) (ho : i.round.Turned o)
      (hh : E.Able → i.round.Member E i.committee → i.round.Handed → o.state.Handed) :
      Turn i (o.effects ++
        if o.result.isOk && o.state.isCommitted then [.cancelTimer o.state.id] else []) j
  | enter {i j : Instance} {n : UInt32} (hc : j.committee = i.committee)
      (hr : j.round = freshRound E i.committee n) (hopen : i.isCommitted = false) :
      Turn i [.cancelTimer i.round.id,
        .startTimer ⟨i.committee.height, n⟩ (E.config.timeout n)] j

/-- A handler that takes note of what the round has come to. -/
def Notes (k : Handler Instance Unit) : Prop :=
  ∀ i, ∃ j, k i = ⟨.ok (), j, if i.isCommitted then [.cancelTimer i.round.id] else []⟩ ∧
    j.committee = i.committee ∧ j.round = i.round

/-- Nothing is said of how a handler ends. -/
abbrev Anyhow {α : Type} : Except Error α → Instance → Prop := fun _ _ => True

variable {E} {i j : Instance} {es : List Effect}

theorem Turn.committee (h : Turn E i es j) : j.committee = i.committee := by
  cases h with
  | aside hc | turn hc | enter hc => exact hc

theorem committee_of_turns (h : Chain (Turn E) i es j) : j.committee = i.committee :=
  h.preserves_state (P := fun j => j.committee = i.committee)
    (fun _ _ _ hc ht => ht.committee.trans hc) rfl

/-! ### Turns -/

theorem noteProgress_notes : Notes noteProgress := by
  intro i
  obtain ⟨hc, hr, -⟩ := keepLock_keeps i
  exact ⟨_, noteProgress_apply i, hc, hr⟩

theorem settle_notes : Notes (do
    modify fun i => { i with changing := false }
    noteProgress) := by
  intro i
  obtain ⟨hc, hr, -⟩ := keepLock_keeps { i with changing := false }
  exact ⟨_, noteProgress_apply _, hc, hr⟩

theorem onRound_turn {h : Handler Round Unit} {k : Handler Instance Unit} (hk : Notes k)
    (ho : i.round.Turned (h i.round))
    (hh : E.Able → i.round.Member E i.committee → i.round.Handed → (h i.round).state.Handed) :
    Does (Turn E) (onRound h >>= fun _ => k) i fun _ j => j.round = (h i.round).state := by
  rcases hx : h i.round with ⟨x, s, es⟩
  rw [hx] at ho hh
  cases x with
  | error e =>
    rw [Does, Handler.bind_of_error _ (onRound_apply hx)]
    have hturn := Turn.turn (i := i) (j := { i with round := s }) rfl rfl ho hh
    rw [show (Except.error e : Except Error Unit).isOk = false from rfl, Bool.false_and,
      if_neg Bool.false_ne_true, List.append_nil] at hturn
    exact ⟨.single hturn, rfl⟩
  | ok =>
    obtain ⟨j, hnote, hc, hr⟩ := hk { i with round := s }
    rw [Does, Handler.bind_of_ok _ (onRound_apply hx), hnote]
    exact ⟨.single (Turn.turn (i := i) hc hr ho hh), hr⟩

/-! ### Votes -/

theorem hold_turn (m : Message) :
    Does (Turn E) (hold E m) i fun _ j => j.round = i.round := by
  refine .get (.ofExcept_bind (fun a _ => ?_) fun _ _ => rfl)
  split
  · exact .set (.aside rfl rfl nofun) rfl
  · exact .ofExcept rfl

theorem handleVote_turn (m : Message) : Does (Turn E) (handleVote E ext m) i fun _ j =>
    i.round.tally.proposal = none → j.round.tally.proposal = none := by
  refine .get ?_
  split
  · exact (hold_turn m).weaken fun _ j hj hn => hj ▸ hn
  split
  · cases m with
    | prepare v =>
      refine (onRound_turn noteProgress_notes (Round.handlePrepare_turned ext v)
        fun hE hr hd => (Round.handlePrepare_adds v).handed ext hE hr hd).weaken
          fun _ j hj hn => ?_
      rw [hj]
      exact (Round.handlePrepare_adds v).proposal_eq_none ext
        (fun _ ht => (Tally.addPrepare_extends ht).2) hn
    | commit v =>
      refine (onRound_turn noteProgress_notes (Round.handleCommit_turned ext v)
        fun hE hr hd => (Round.handleCommit_adds v).handed ext hE hr hd).weaken
          fun _ j hj hn => ?_
      rw [hj]
      exact (Round.handleCommit_adds v).proposal_eq_none ext
        (fun _ ht => (Tally.addCommit_extends ht).2) hn
    | proposal | roundChange =>
      have hid : i.round.Turned ⟨.ok (), i.round, []⟩ := (Round.counted_refl _).turned
      refine (onRound_turn (h := pure ()) noteProgress_notes hid fun _ _ hd => hd).weaken
        fun _ j hj hn => ?_
      rw [hj]
      exact hn
  · exact .pure id

/-- What was held for a round is handled before its proposal. -/
theorem replay_turn (n : UInt32) (hn : i.round.tally.proposal = none) :
    Does (Turn E) (replay E ext n) i fun _ j => j.round.tally.proposal = none := by
  have hforM : ∀ (ms : List Message) {i : Instance}, i.round.tally.proposal = none →
      Does (Turn E) (ms.forM fun m => Handler.absorb survives (handleVote E ext m)) i
        fun _ j => j.round.tally.proposal = none := by
    intro ms
    induction ms with
    | nil => exact fun hn => .pure hn
    | cons m ms ih =>
      intro i hn
      refine .bind (Q := fun _ j => j.round.tally.proposal = none) ?_ (fun _ j hj => ih hj)
        fun _ _ hj => hj
      exact .absorb (handleVote_turn ext m) fun _ _ hj => ⟨hj hn, hj hn⟩
  exact .get (.step rfl (.single (.aside rfl rfl nofun)) (hforM _ hn))

/-! ### Rounds -/

theorem isCommitted_of_none (hn : i.round.tally.proposal = none) : i.isCommitted = false := by
  simp [isCommitted, Round.isCommitted, Tally.isCommitted, hn]

theorem advance_turn (n : UInt32) (hopen : i.isCommitted = false) :
    Does (Turn E) (advance E ext n) i fun _ j =>
      j.committee = i.committee ∧ j.isCommitted = false := by
  let j : Instance := { i with
    round := freshRound E i.committee n
    roundChanges := i.roundChanges.discardBefore n }
  have henter : Turn E i [.cancelTimer i.round.id,
      .startTimer ⟨i.committee.height, n⟩ (E.config.timeout n)] j := .enter rfl rfl hopen
  obtain ⟨hc, hn⟩ := replay_turn (E := E) (i := j) ext n rfl
  rw [Does, advance, Handler.get_bind, Handler.ask_bind, Handler.set_bind, Handler.ask_bind]
  have hall := Chain.cons henter hc
  exact ⟨hall, committee_of_turns hall, isCommitted_of_none hn⟩

theorem makeBlock_turn (round : RoundId) : Does (Turn E) (makeBlock ext round) i Anyhow :=
  .step rfl (.single (.aside rfl rfl fun _ he => List.mem_singleton.1 he ▸ trivial))
    (.ofExcept trivial)

theorem propose_turn (b : Block) (rcs : List (Signed RoundChangeStatement))
    (prepares : List Prepare) : Does (Turn E) (propose E ext b rcs prepares) i Anyhow :=
  .get ((onRound_turn settle_notes (Round.propose_turned ext b rcs prepares)
    fun hE hr hd => Round.propose_handed ext hE hr hd b rcs prepares).weaken fun _ _ _ => trivial)

theorem proposeIfProposer_turn (j? : Option Justification) :
    Does (Turn E) (proposeIfProposer E ext j?) i Anyhow := by
  refine .get ?_
  split
  · refine .ofExcept_bind (fun proposer _ => ?_) fun _ _ => trivial
    split
    · split
      · exact .bind (makeBlock_turn ext _) (fun b j _ => propose_turn ext b [] []) fun _ _ _ => trivial
      · split
        · exact .pure trivial
        · next j =>
          dsimp only
          split
          · exact .bind (.pure (Q := Anyhow) trivial)
              (fun b k _ => propose_turn ext b j.roundChanges j.prepares) fun _ _ _ => trivial
          · exact .bind (makeBlock_turn ext _)
              (fun b k _ => propose_turn ext b j.roundChanges j.prepares) fun _ _ _ => trivial
    · exact .pure trivial
  · exact .pure trivial

theorem enter_turn (j : Justification) (hopen : i.isCommitted = false) :
    Does (Turn E) (enter E ext j) i Anyhow := by
  have hpropose : ∀ {k : Instance}, Does (Turn E) (do
      modify fun i => { i with changing := false }
      proposeIfProposer E ext (some j)) k Anyhow :=
    .modify_bind (.aside rfl rfl nofun) (proposeIfProposer_turn ext _)
  refine .get ?_
  split
  · split
    · exact .bind (advance_turn ext _ hopen) (fun _ _ _ => hpropose) fun _ _ _ => trivial
    · exact hpropose
  · exact .pure trivial

/-- Gathering a round change asks for nothing. -/
theorem append_turn (rc : RoundChange) :
    Does (Turn E) (onRoundChanges (RoundChanges.append E.scheme i.committee rc)) i
      fun _ j => j.round = i.round := by
  obtain ⟨x, q, hx, -⟩ :=
    RoundChanges.append_spec (S := E.scheme) (C := i.committee) rc i.roundChanges
  rw [Does, onRoundChanges_apply hx]
  exact ⟨.single (.aside rfl rfl (List.forall_mem_nil _)), rfl⟩

theorem changeRound_turn (n : UInt32) (hopen : i.isCommitted = false) :
    Does (Turn E) (changeRound E ext n) i Anyhow := by
  refine .bind (advance_turn ext n hopen) (fun _ j hj => ?_) fun _ _ _ => trivial
  refine .modify_bind (.aside rfl rfl nofun) (.get ?_)
  split
  · refine .ofExcept_bind (fun rc _ => ?_) fun _ _ => trivial
    refine .step rfl (.single (.aside rfl rfl fun _ he => List.mem_singleton.1 he ▸ trivial)) ?_
    refine .bind (append_turn rc) (fun j? k hk => ?_) fun _ _ _ => trivial
    cases j? with
    | none => exact .pure trivial
    | some x => exact enter_turn ext x (by rw [isCommitted, hk]; exact hj.2)
  · exact .pure trivial

/-! ### What a height is given -/

theorem acceptProposal_turn {C : Committee} (hc : i.committee = C) (p : Proposal) :
    Does (Turn E) (do
      onRound (Round.acceptProposal E C ext p)
      modify fun i => { i with changing := false }
      noteProgress) i Anyhow := by
  subst hc
  exact (onRound_turn settle_notes (Round.acceptProposal_turned ext p)
    fun hE hr hd => Round.acceptProposal_handed ext hE hr hd p).weaken fun _ _ _ => trivial

theorem handleProposal_turn (p : Proposal) : Does (Turn E) (handleProposal E ext p) i Anyhow := by
  refine .get ?_
  split
  · next hguard =>
    simp only [Bool.and_eq_true, Bool.not_eq_true'] at hguard
    refine .bind (Q := fun _ j => j = i) ?_ ?_ fun _ _ _ => trivial
    · cases i.committee.checkProposal E.scheme p <;> exact ⟨.refl i, rfl⟩
    · rintro _ _ rfl
      split
      · exact .bind (advance_turn ext _ hguard.2) (fun _ _ hj => acceptProposal_turn ext hj.1 p)
          fun _ _ _ => trivial
      · exact acceptProposal_turn ext rfl p
  · exact .pure trivial

theorem handleRoundChange_turn (rc : RoundChange) :
    Does (Turn E) (handleRoundChange E ext rc) i Anyhow := by
  refine .get ?_
  split
  · next hguard =>
    simp only [Bool.and_eq_true, Bool.not_eq_true'] at hguard
    refine .bind (append_turn rc) (fun j? k hk => ?_) fun _ _ _ => trivial
    have hopen : k.isCommitted = false := by
      rw [isCommitted, hk]
      exact hguard.2
    cases j? with
    | some j => exact enter_turn ext j hopen
    | none =>
      refine .step (a := k.roundChanges) rfl (.refl k) ?_
      split
      · split
        · exact changeRound_turn ext _ hopen
        · exact .pure trivial
      · exact .pure trivial
  · exact .pure trivial

theorem handleMessage_turn (m : Message) : Does (Turn E) (handleMessage E ext m) i Anyhow := by
  refine .get ?_
  split
  · refine .absorb (Q := Anyhow) ?_ fun _ _ _ => ⟨trivial, trivial⟩
    cases m with
    | proposal p => exact handleProposal_turn ext p
    | roundChange rc => exact handleRoundChange_turn ext rc
    | prepare | commit => exact (handleVote_turn ext _).weaken fun _ _ _ => trivial
  · exact .pure trivial

theorem roundExpired_turn (round : RoundId) : Does (Turn E) (roundExpired E ext round) i Anyhow := by
  refine .get ?_
  split
  · next hguard =>
    simp only [Bool.and_eq_true, Bool.not_eq_true'] at hguard
    exact .absorb (changeRound_turn ext _ hguard.2) fun _ _ _ => ⟨trivial, trivial⟩
  · exact .pure trivial

theorem handle_turns (c : Call) (i : Instance) :
    Chain (Turn E) i (handle E c i).effects (handle E c i).state := by
  unfold handle
  cases c.input with
  | message m => exact (handleMessage_turn c.ext m).1
  | roundExpiry round => exact (roundExpired_turn c.ext round).1

/-- The timer of the first round is started, and then come turns. -/
theorem start_turns (C : Committee) : ∃ es,
    (start E ext (Instance.new E C)).effects =
        .startTimer ⟨C.height, 0⟩ (E.config.timeout 0) :: es ∧
      Chain (Turn E) (Instance.new E C) es (start E ext (Instance.new E C)).state := by
  have hpropose : Does (Turn E) (.absorb survives (proposeIfProposer E ext none))
      (Instance.new E C) Anyhow :=
    .absorb (proposeIfProposer_turn ext none) fun _ _ _ => ⟨trivial, trivial⟩
  exact ⟨_, rfl, hpropose.1⟩

/-! ### What turns keep -/

/-- Members vote, and where the key works a decided block was handed over. -/
structure Orderly (E : Setup) (i : Instance) : Prop where
  member : i.round.Member E i.committee
  handed : E.Able → i.round.Handed

theorem orderly_new (C : Committee) : Orderly E (Instance.new E C) := ⟨id, fun _ => nofun⟩

theorem Turn.orderly (h : Turn E i es j) (hi : Orderly E i) : Orderly E j := by
  cases h with
  | aside hc hr =>
    constructor
    · rw [hc, hr]
      exact hi.member
    · rw [hr]
      exact hi.handed
  | turn hc hr ho hh =>
    constructor
    · rw [hc, hr, Round.Member, ho.participates]
      exact hi.member
    · rw [hr]
      exact fun hE => hh hE hi.member (hi.handed hE)
  | enter hc hr =>
    constructor
    · rw [hc, hr]
      exact id
    · rw [hr]
      exact fun _ => nofun

/-- A round that handed over a block did so in the height's log. -/
def Logged (i : Instance) (log : List Effect) : Prop :=
  i.round.delivered = true → ∃ b seals accepted, .deliverBlock b seals accepted ∈ log

theorem logged_new (C : Committee) : Logged (Instance.new E C) [] := fun h => by cases h

theorem Turn.logged {log : List Effect} (h : Turn E i es j) (hi : Logged i log) :
    Logged j (log ++ es) := by
  intro hd
  have hold : i.round.delivered = true →
      ∃ b seals accepted, .deliverBlock b seals accepted ∈ log ++ es := by
    intro hd
    obtain ⟨b, seals, accepted, hm⟩ := hi hd
    exact ⟨b, seals, accepted, List.mem_append_left _ hm⟩
  cases h with
  | aside hc hr => exact hold (hr ▸ hd)
  | turn hc hr ho =>
    rcases ho.delivered (hr ▸ hd) with hd | ⟨b, seals, accepted, hm⟩
    · exact hold hd
    · exact ⟨b, seals, accepted, List.mem_append_right _ (List.mem_append_left _ hm)⟩
  | enter hc hr =>
    rw [hr] at hd
    cases hd

end Instance

namespace History

variable (E : Setup) (C : Committee) (first : Collaborators) (calls : List Call)

/-- What a height has asked for begins with its first timer, and the rest are turns. -/
theorem run_turns : ∃ es, (run E C first calls).log =
      .startTimer ⟨C.height, 0⟩ (E.config.timeout 0) :: es ∧
    Chain (Instance.Turn E) (Instance.new E C) es (run E C first calls).inst := by
  induction calls using List.reverseRecOn with
  | nil => exact Instance.start_turns first C
  | append_singleton calls c ih =>
    obtain ⟨es, hlog, hturns⟩ := ih
    rw [run_append]
    refine ⟨es ++ (Instance.handle E c (run E C first calls).inst).effects, ?_,
      hturns.trans (Instance.handle_turns c _)⟩
    show (run E C first calls).log ++ _ = _
    rw [hlog]
    rfl

/-- A decided height has handed over a block, if the key works. -/
theorem exists_delivery (hE : E.Able) (hc : (run E C first calls).inst.isCommitted = true) :
    ∃ b seals accepted, .deliverBlock b seals accepted ∈ (run E C first calls).log := by
  obtain ⟨es, hlog, hturns⟩ := run_turns E C first calls
  have horderly : Instance.Orderly E (run E C first calls).inst :=
    hturns.preserves_state (fun _ _ _ hi h => h.orderly hi) (Instance.orderly_new C)
  have hlogged : Instance.Logged (run E C first calls).inst es :=
    hturns.preserves_nil (P := Instance.Logged) (fun _ _ _ _ hi h => h.logged hi)
      (Instance.logged_new C)
  obtain ⟨b, seals, accepted, hm⟩ := hlogged (horderly.handed hE hc)
  exact ⟨b, seals, accepted, hlog ▸ List.mem_cons_of_mem _ hm⟩

end History

end BlockAgreement
