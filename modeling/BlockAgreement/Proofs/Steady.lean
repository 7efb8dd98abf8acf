import BlockAgreement.Proofs.Evidence
import BlockAgreement.Proofs.Keeps

/-! What the handlers of a height keep of its round and of the round changes that are gathered.
Rounds are entered in one place, and round changes are gathered in two. A property that is kept
there is kept by all the handlers, in whatever way they end, and with that by every call. -/

namespace BlockAgreement

namespace Instance

open Handler (Keeps Anything)

variable (E : Setup) (C : Committee) (P : RoundId → RoundChanges → Prop) (Ok : UInt32 → Prop)

/-- The members stay the same, and the property holds of the round and of what is gathered. -/
structure Has (i : Instance) : Prop where
  committee : i.committee = C
  holds : P i.round.id i.roundChanges

/-- Gathering the round change keeps the property. -/
def KeptBy (rc : RoundChange) : Prop :=
  ∀ id p, P id p → P id (RoundChanges.append E.scheme C rc p).state

/-- The property is kept where an allowed round is entered, and by the round changes that the node
sends. With it, a justification and the announcements of others lead to allowed rounds only. -/
structure Steady : Prop where
  enter : ∀ {id p n}, P id p → Ok n → P ⟨C.height, n⟩ (p.discardBefore n)
  own : ∀ {id p rc}, P id p → rc.round = id → KeptBy E C P rc
  justified : ∀ {id p rc j}, P id (RoundChanges.append E.scheme C rc p).state →
    (RoundChanges.append E.scheme C rc p).result = .ok (some j) → Ok j.round.number
  early : ∀ {id p current n}, P id p → p.earlyTarget? C current = some n → Ok n

variable {E C P Ok} (ext : Collaborators)

theorem Has.height {i : Instance} (hi : i.Has C P) : i.height = C.height := by
  rw [Instance.height, hi.committee]

/-- A property that does not depend on what a round holds beside its number, nor on the lock, nor on
whether the node is changing rounds. -/
def Overlooks (K : Instance → Prop) : Prop :=
  ∀ i r changing lock, r.id = i.round.id → K i → K { i with round := r, changing, lock }

theorem has_overlooks : Overlooks (Has C P) :=
  fun _ _ _ _ hr hi => ⟨hi.committee, hr ▸ hi.holds⟩

theorem makeBlock_keeps {K : Instance → Prop} (round : RoundId) :
    Keeps K Anything (makeBlock ext round) :=
  .bind (.ask _) fun _ _ => .ofExcept fun _ _ => trivial

namespace Overlooks

variable {K : Instance → Prop} (hK : Overlooks K)
include hK

theorem onRound {α : Type} {h : Handler Round α} (hh : ∀ id, Keeps (fun r => r.id = id) Anything h) :
    Keeps K Anything (onRound h) :=
  fun i hi => ⟨hK i _ i.changing i.lock (hh i.round.id i.round rfl).1 hi, fun _ _ => trivial⟩

theorem noteProgress : Keeps K Anything noteProgress := by
  refine .get_bind fun i hi => ?_
  have hcancel : Keeps K Anything
      (if i.isCommitted then .ask (.cancelTimer i.round.id) else pure () :
        Handler Instance Unit) := by
    split
    · exact .ask _
    · exact .done
  dsimp only
  split
  · exact .bind (.set (hK i i.round i.changing _ rfl hi)) fun _ _ => hcancel
  · exact hcancel

theorem mark (changing : Bool) :
    Keeps K Anything (modify fun i => { i with changing } : Handler Instance PUnit) :=
  .modify fun i hi => hK i i.round changing i.lock rfl hi

/-- A vote for the current round. -/
theorem handleVote {m : Message} {i : Instance} (hi : K i)
    (hm : ¬ i.round.id.number < m.round.number) : K (handleVote E ext m i).state := by
  rw [Instance.handleVote, Handler.get_bind, if_neg hm]
  split
  · cases m with
    | prepare v =>
      exact (Keeps.bind (hK.onRound fun _ => Round.handlePrepare_keeps ext v)
        (fun _ _ => hK.noteProgress) i hi).1
    | commit v =>
      exact (Keeps.bind (hK.onRound fun _ => Round.handleCommit_keeps ext v)
        (fun _ _ => hK.noteProgress) i hi).1
    | proposal | roundChange => exact (hK.noteProgress i hi).1
  · exact hi

theorem propose (b : Block) (rcs : List (Signed RoundChangeStatement)) (prepares : List Prepare) :
    Keeps K Anything (propose E ext b rcs prepares) :=
  .get_bind fun _ _ => .bind (hK.onRound fun _ => Round.propose_keeps ext b rcs prepares)
    fun _ _ => .bind (hK.mark false) fun _ _ => hK.noteProgress

theorem proposeIfProposer (j? : Option Justification) :
    Keeps K Anything (proposeIfProposer E ext j?) := by
  refine .get_bind fun i hi => ?_
  split
  · refine .ofExcept_bind fun proposer _ => ?_
    split
    · split
      · exact .bind (makeBlock_keeps ext _) fun b _ => hK.propose ext b [] []
      · split
        · exact .done
        · next j =>
          have hpropose : ∀ b, Keeps K Anything
              (Instance.propose E ext b j.roundChanges j.prepares) :=
            fun b => hK.propose ext b _ _
          dsimp only
          split
          · exact .bind .done fun b _ => hpropose b
          · exact .bind (makeBlock_keeps ext _) fun b _ => hpropose b
    · exact .done
  · exact .done

theorem start : Keeps K Anything (start E ext) :=
  .get_bind fun _ _ => .bind (.ask _) fun _ _ => .absorb (hK.proposeIfProposer ext none)

/-- The proposal of the current round is taken. -/
theorem acceptProposal (C : Committee) (p : Proposal) : Keeps K Anything (do
    Instance.onRound (Round.acceptProposal E C ext p)
    modify fun i => { i with changing := false }
    Instance.noteProgress : Handler Instance Unit) :=
  .bind (hK.onRound fun _ => Round.acceptProposal_keeps ext p) fun _ _ =>
    .bind (hK.mark false) fun _ _ => hK.noteProgress

/-- The current round is justified. -/
theorem justified (j : Justification) : Keeps K Anything (do
    modify fun i => { i with changing := false }
    Instance.proposeIfProposer E ext (some j) : Handler Instance Unit) :=
  .bind (hK.mark false) fun _ _ => hK.proposeIfProposer ext _

variable {i : Instance}

/-- A justification leads to its round, if this is a later one. -/
theorem enter {j : Justification}
    (hnext : i.round.id.number < j.round.number → K (advance E ext j.round.number i).state)
    (hstay : ¬ i.round.id.number < j.round.number → K i) : K (enter E ext j i).state := by
  rw [Instance.enter, Handler.get_bind]
  split
  · split
    · next hlt => exact Keeps.after (hnext hlt) fun _ => hK.justified ext j
    · next hge => exact (hK.justified ext j i (hstay hge)).1
  · next hpast => exact hstay fun hlt => hpast (UInt32.le_of_lt hlt)

/-- A proposal leads to a later round at most. -/
theorem handleProposal (hi : K i)
    (hnext : ∀ n, i.round.id.number < n → K (advance E ext n i).state) (p : Proposal) :
    K (handleProposal E ext p i).state := by
  rw [Instance.handleProposal, Handler.get_bind]
  split
  · cases hcheck : i.committee.checkProposal E.scheme p with
    | error e => exact hi
    | ok a =>
      rw [Handler.bind_of_ok _ (show discard (Handler.ofExcept (.ok a)) i = ⟨.ok (), i, []⟩ from rfl)]
      show K (Outcome.state _)
      split
      · next hlt => exact Keeps.after (hnext _ hlt) fun _ => hK.acceptProposal ext _ p
      · exact (hK.acceptProposal ext _ p i hi).1
  · exact hi

end Overlooks

theorem hold_keeps (m : Message) : Keeps (Has C P) Anything (hold E m) := by
  refine .get_bind fun i hi => .ofExcept_bind fun a _ => ?_
  split
  · exact .set { hi with }
  · exact .ofExcept fun _ _ => trivial

theorem handleVote_keeps (m : Message) : Keeps (Has C P) Anything (handleVote E ext m) := by
  intro i hi
  by_cases hlater : i.round.id.number < m.round.number
  · rw [handleVote, Handler.get_bind, if_pos hlater]
    exact hold_keeps m i hi
  · exact ⟨has_overlooks.handleVote ext hi hlater, fun _ _ => trivial⟩

theorem replay_keeps (n : UInt32) : Keeps (Has C P) Anything (replay E ext n) :=
  .get_bind fun _ hi => .bind (.set { hi with }) fun _ _ => .forM fun m _ =>
    .absorb (handleVote_keeps ext m)

section

variable (hs : Steady E C P Ok)
include hs

theorem advance_keeps {n : UInt32} (hn : Ok n) : Keeps (Has C P) Anything (advance E ext n) := by
  refine .get_bind fun i hi => .bind (.ask _) fun _ _ => .bind (.set ⟨hi.committee, ?_⟩)
    fun _ _ => .bind (.ask _) fun _ _ => replay_keeps ext n
  rw [hi.committee]
  exact hs.enter hi.holds hn

theorem enter_keeps {j : Justification} (hj : Ok j.round.number) :
    Keeps (Has C P) Anything (enter E ext j) := by
  refine .get_bind fun i hi => ?_
  split
  · split
    · exact .bind (advance_keeps ext hs hj) fun _ _ => has_overlooks.justified ext j
    · exact has_overlooks.justified ext j
  · exact .done

/-- What comes of gathering is a justification of an allowed round, if it is one. -/
theorem append_keeps {rc : RoundChange} (hrc : KeptBy E C P rc) :
    Keeps (Has C P) (fun j? => ∀ j, j? = some j → Ok j.round.number)
      (onRoundChanges (RoundChanges.append E.scheme C rc)) := by
  intro i hi
  have hholds := hrc _ _ hi.holds
  refine ⟨⟨hi.committee, hholds⟩, ?_⟩
  rintro _ hresult j rfl
  exact hs.justified hholds hresult

theorem changeRound_keeps {n : UInt32} (hn : Ok n) :
    Keeps (Has C P) Anything (changeRound E ext n) := by
  refine .bind (advance_keeps ext hs hn) fun _ _ =>
    .bind (.modify fun _ hi => { hi with }) fun _ _ => .get_bind fun i hi => ?_
  split
  · refine .ofExcept_bind fun rc hrc => .bind (.ask _) fun _ _ => ?_
    rw [hi.committee]
    have hkept := hs.own hi.holds (Signer.changeRound_eq_ok hrc).1
    refine .bind (append_keeps hs hkept) fun j? hj => ?_
    cases j? with
    | none => exact .done
    | some j => exact enter_keeps ext hs (hj j rfl)
  · exact .done

theorem handleProposal_keeps {p : Proposal}
    (hp : ∀ a, C.checkProposal E.scheme p = .ok a → Ok p.round.number) :
    Keeps (Has C P) Anything (handleProposal E ext p) := by
  refine .get_bind fun i hi => ?_
  split
  · rw [hi.committee]
    cases hcheck : C.checkProposal E.scheme p with
    | error e => exact .bind (.ofExcept (Q := fun _ => False) nofun) nofun
    | ok a =>
      refine .bind .done fun _ _ => ?_
      split
      · exact .bind (advance_keeps ext hs (hp a hcheck)) fun _ _ =>
          has_overlooks.acceptProposal ext C p
      · exact has_overlooks.acceptProposal ext C p
  · exact .done

theorem handleRoundChange_keeps {rc : RoundChange} (hrc : KeptBy E C P rc) :
    Keeps (Has C P) Anything (handleRoundChange E ext rc) := by
  refine .get_bind fun i hi => ?_
  split
  · rw [hi.committee]
    refine .bind (append_keeps hs hrc) fun j? hj => ?_
    cases j? with
    | some j => exact enter_keeps ext hs (hj j rfl)
    | none =>
      have hpool : Keeps (Has C P) (fun q => ∃ id, P id q)
          (Instance.roundChanges <$> get : Handler Instance RoundChanges) :=
        .get_bind fun _ hi => .pure ⟨_, hi.holds⟩
      refine .bind hpool fun q hq => ?_
      obtain ⟨id, hq⟩ := hq
      split
      · split
        · next n hn => exact changeRound_keeps ext hs (hs.early hq hn)
        · exact .done
      · exact .done
  · exact .done

theorem handleMessage_keeps {m : Message}
    (hp : ∀ p, m = .proposal p → ∀ a, C.checkProposal E.scheme p = .ok a → Ok p.round.number)
    (hrc : ∀ rc, m = .roundChange rc → KeptBy E C P rc) :
    Keeps (Has C P) Anything (handleMessage E ext m) := by
  refine .get_bind fun i hi => ?_
  split
  · refine .absorb ?_
    cases m with
    | proposal p => exact handleProposal_keeps ext hs (hp p rfl)
    | roundChange rc => exact handleRoundChange_keeps ext hs (hrc rc rfl)
    | prepare | commit => exact handleVote_keeps ext _
  · exact .done

/-- An expiry that counts leads to the next round. -/
theorem roundExpired_has {round : RoundId} {i : Instance} (hi : i.Has C P)
    (hnext : round = i.round.id → Ok (nextNumber round.number)) :
    (roundExpired E ext round i).state.Has C P := by
  rw [roundExpired, Handler.get_bind]
  split
  · next hguard =>
    simp only [Bool.and_eq_true, decide_eq_true_eq] at hguard
    exact (Keeps.absorb (changeRound_keeps ext hs (hnext hguard.1)) i hi).1
  · exact hi

end

end Instance

/-- A run keeps what the handlers keep. -/
theorem History.run_has {E : Setup} {C : Committee} {P : RoundId → RoundChanges → Prop}
    {Ok : UInt32 → Prop} (hs : Instance.Steady E C P Ok)
    (hnew : P ⟨C.height, 0⟩ (.new E.config.roundHorizon)) (first : Collaborators)
    (calls : List Call)
    (hproposals : ∀ c ∈ calls, ∀ p, c.input = .message (.proposal p) →
      ∀ a, C.checkProposal E.scheme p = .ok a → Ok p.round.number)
    (hroundChanges : ∀ c ∈ calls, ∀ rc, c.input = .message (.roundChange rc) →
      Instance.KeptBy E C P rc)
    (hexpiries : ∀ before c, before ++ [c] <+: calls → ∀ round, c.input = .roundExpiry round →
      round = (run E C first before).inst.round.id → Ok (nextNumber round.number)) :
    (run E C first calls).inst.Has C P := by
  induction calls using List.reverseRecOn with
  | nil =>
    have hinit : (Instance.new E C).Has C P := ⟨rfl, hnew⟩
    exact (Instance.has_overlooks.start first _ hinit).1
  | append_singleton calls c ih =>
    have hi := ih (fun d hd => hproposals d (List.mem_append_left _ hd))
      (fun d hd => hroundChanges d (List.mem_append_left _ hd))
      fun before d hd => hexpiries before d (hd.trans (List.prefix_append ..))
    have hc : c ∈ calls ++ [c] := by simp
    rw [run_append]
    show (Instance.handle E c (run E C first calls).inst).state.Has C P
    rw [Instance.handle]
    cases hinput : c.input with
    | message m =>
      refine (Instance.handleMessage_keeps c.ext hs ?_ ?_ _ hi).1
      · rintro p rfl
        exact hproposals c hc p hinput
      · rintro rc rfl
        exact hroundChanges c hc rc hinput
    | roundExpiry round =>
      exact Instance.roundExpired_has c.ext hs hi
        (hexpiries calls c (List.prefix_refl _) round hinput)

end BlockAgreement
