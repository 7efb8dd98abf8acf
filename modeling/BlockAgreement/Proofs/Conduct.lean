import BlockAgreement.Engine.Node
import BlockAgreement.Proofs.Failures
import BlockAgreement.Proofs.Moves

/-! How the handlers of a height behave, whatever state they are in: what they never ask for, and
what they fail for. The timer of a first round is started when a height is, and at no other time. A
handler that goes through a message or an expiry fails for the node's own key, or for those who make
and take blocks, and then in a way that the node does not survive. -/

namespace BlockAgreement

namespace Handler

variable {σ τ α β : Type}

/-- Wherever it starts, the handler asks for such things only and fails for such reasons only. -/
structure Behaves (P : Effect → Prop) (Q : Error → Prop) (h : Handler σ α) : Prop where
  asks : ∀ s, ∀ e ∈ (h s).effects, P e
  fails : ∀ s, Fails Q (h s).result

namespace Behaves

variable {P : Effect → Prop} {Q Q' : Error → Prop} {h : Handler σ α} {f : α → Handler σ β}

protected theorem pure (a : α) : Behaves P Q (pure a : Handler σ α) :=
  ⟨fun _ => nofun, fun _ => .pure a⟩

protected theorem get : Behaves P Q (get : Handler σ σ) := ⟨fun _ => nofun, fun s => .pure s⟩

protected theorem set (t : σ) : Behaves P Q (set t : Handler σ PUnit) :=
  ⟨fun _ => nofun, fun _ => .pure _⟩

protected theorem modify (g : σ → σ) : Behaves P Q (modify g : Handler σ PUnit) :=
  ⟨fun _ => nofun, fun _ => .pure _⟩

protected theorem ofExcept {r : Except Error α} (hr : Fails Q r) :
    Behaves P Q (ofExcept r : Handler σ α) :=
  ⟨fun _ => nofun, fun _ => hr⟩

protected theorem ask {e : Effect} (he : P e) : Behaves P Q (ask e : Handler σ Unit) :=
  ⟨fun _ _ hm => List.mem_singleton.1 hm ▸ he, fun _ => .pure ()⟩

protected theorem bind (hh : Behaves P Q h) (hf : ∀ a, Behaves P Q (f a)) :
    Behaves P Q (h >>= f) := by
  have hboth : ∀ s, (∀ e ∈ ((h >>= f) s).effects, P e) ∧ Fails Q ((h >>= f) s).result := by
    intro s
    have hes := hh.asks s
    have hx := hh.fails s
    rcases ho : h s with ⟨x, t, es⟩
    rw [ho] at hes hx
    cases x with
    | error x =>
      rw [bind_of_error f ho]
      exact ⟨hes, .throw (hx x rfl)⟩
    | ok a =>
      rw [bind_of_ok f ho]
      exact ⟨fun e he => (List.mem_append.1 he).elim (hes e) ((hf a).asks t e), (hf a).fails t⟩
  exact ⟨fun s => (hboth s).1, fun s => (hboth s).2⟩

protected theorem get_bind {f : σ → Handler σ β} (hf : ∀ s, Behaves P Q (f s)) :
    Behaves P Q (get >>= f) :=
  .bind .get hf

/-- What is absorbed goes no further. -/
protected theorem absorb {h : Handler σ Unit} {ok : Error → Bool} (hh : Behaves P Q h)
    (hq : ∀ e, Q e → ok e = false → Q' e) : Behaves P Q' (absorb ok h) where
  asks s := by
    rw [absorb_effects]
    exact hh.asks s
  fails s := by
    have hx := hh.fails s
    rcases ho : h s with ⟨x, t, es⟩
    rw [ho] at hx
    rw [Handler.absorb, ho]
    cases x with
    | ok => exact .pure ()
    | error x =>
      dsimp only
      split
      · exact .pure ()
      · next hok => exact .throw (hq x (hx x rfl) (Bool.eq_false_iff.2 hok))

protected theorem focus {get : σ → τ} {set : τ → σ → σ} {h : Handler τ α} (hh : Behaves P Q h) :
    Behaves P Q (focus get set h) :=
  ⟨fun s => hh.asks (get s), fun s => hh.fails (get s)⟩

protected theorem forM {ms : List β} {f : β → Handler σ PUnit} (hf : ∀ m, Behaves P Q (f m)) :
    Behaves P Q (ms.forM f) := by
  induction ms with
  | nil => exact .pure _
  | cons m ms ih => exact .bind (hf m) fun _ => ih

end Behaves

end Handler

open Handler (Behaves)

/-- The height whose first round the request starts the timer of. -/
def Effect.started? : Effect → Option UInt64
  | .startTimer round _ => if round.number = 0 then some round.height else none
  | _ => none

/-- The request starts no height. -/
def Effect.Within (e : Effect) : Prop := e.started? = none

variable (E : Setup) (C : Committee) (ext : Collaborators)

namespace Round

theorem addPrepare_behaves (m : Prepare) :
    Behaves Effect.Within (E.Foresees ext) (addPrepare E C m) :=
  .get_bind fun r => .bind (.ofExcept (r.tally.addPrepare_fails m).blames) fun _ => .set _

theorem addCommit_behaves (m : Commit) :
    Behaves Effect.Within (E.Foresees ext) (addCommit E C m) :=
  .get_bind fun r => .bind (.ofExcept (r.tally.addCommit_fails m).blames) fun _ => .set _

theorem commitIfPrepared_behaves :
    Behaves Effect.Within (E.Foresees ext) (commitIfPrepared E C) := by
  refine .get_bind fun r => ?_
  split
  · split
    · exact .bind (.ofExcept (E.signer.commit_fails _ _).refuses) fun _ => .bind (.set _) fun _ =>
        .bind (.ask rfl) fun _ => addCommit_behaves E C ext _
    · exact .pure _
  · exact .pure _

theorem deliverIfCommitted_behaves :
    Behaves Effect.Within (E.Foresees ext) (deliverIfCommitted ext) := by
  refine .get_bind fun r => ?_
  split
  · split
    · exact .bind (.set _) fun _ => .bind (.ask rfl) fun _ =>
        .ofExcept (ext.importBlock_fails _ _).raises
    · exact .pure _
  · exact .pure _

theorem progress_behaves : Behaves Effect.Within (E.Foresees ext) (progress E C ext) :=
  .bind (commitIfPrepared_behaves E C ext) fun _ => deliverIfCommitted_behaves E ext

theorem acceptProposal_behaves (p : Proposal) :
    Behaves Effect.Within (E.Foresees ext) (acceptProposal E C ext p) := by
  refine .get_bind fun r => ?_
  split
  · exact .pure _
  · refine .bind (.set _) fun _ => ?_
    split
    · exact .bind (.ofExcept (E.signer.prepare_fails _ _).refuses) fun _ =>
        .bind (.ask rfl) fun _ => .bind (addPrepare_behaves E C ext _) fun _ =>
          progress_behaves E C ext
    · exact progress_behaves E C ext

theorem propose_behaves (b : Block) (rcs : List (Signed RoundChangeStatement))
    (prepares : List Prepare) :
    Behaves Effect.Within (E.Foresees ext) (propose E C ext b rcs prepares) :=
  .get_bind fun _ => .bind (.ofExcept (Signer.propose_fails E ext _ b rcs prepares)) fun _ =>
    .bind (.ask rfl) fun _ => acceptProposal_behaves E C ext _

theorem handlePrepare_behaves (m : Prepare) :
    Behaves Effect.Within (E.Foresees ext) (handlePrepare E C ext m) :=
  .bind (addPrepare_behaves E C ext m) fun _ => progress_behaves E C ext

theorem handleCommit_behaves (m : Commit) :
    Behaves Effect.Within (E.Foresees ext) (handleCommit E C ext m) :=
  .bind (addCommit_behaves E C ext m) fun _ => progress_behaves E C ext

end Round

theorem RoundChanges.append_behaves {P : Effect → Prop} {S : Scheme} (rc : RoundChange) :
    Behaves P (E.Foresees ext) (append S C rc) := by
  refine .bind (.ofExcept (Committee.checkRoundChange_fails rc).blames) fun a =>
    .bind (.modify _) fun _ => .get_bind fun p => ?_
  split
  · exact .pure _
  dsimp only
  split
  · exact .bind (.set _) fun _ => .pure _
  refine .bind (.set _) fun _ => ?_
  split
  · exact .pure _
  refine .bind (.ofExcept (Justification.assemble?_fails _ _ _).survived) fun j? => ?_
  split
  · exact .bind (.set _) fun _ => .pure _
  · exact .pure _

namespace Instance

theorem noteProgress_behaves : Behaves Effect.Within (E.Foresees ext) noteProgress := by
  refine .get_bind fun i => ?_
  have hcancel : Behaves Effect.Within (E.Foresees ext)
      (if i.isCommitted then .ask (.cancelTimer i.round.id) else pure () :
        Handler Instance Unit) := by
    split
    · exact .ask rfl
    · exact .pure _
  dsimp only
  split
  · exact .bind (.set _) fun _ => hcancel
  · exact hcancel

theorem hold_behaves (m : Message) : Behaves Effect.Within (E.Foresees ext) (hold E m) := by
  refine .get_bind fun i => .bind (.ofExcept (Message.author_fails m).blames) fun a => ?_
  split
  · exact .set _
  · exact .ofExcept (.throw (.inl rfl))

theorem handleVote_behaves (m : Message) :
    Behaves Effect.Within (E.Foresees ext) (handleVote E ext m) := by
  refine .get_bind fun i => ?_
  split
  · exact hold_behaves E ext m
  split
  · cases m with
    | prepare v =>
      exact .bind (.focus (Round.handlePrepare_behaves E _ ext v)) fun _ =>
        noteProgress_behaves E ext
    | commit v =>
      exact .bind (.focus (Round.handleCommit_behaves E _ ext v)) fun _ =>
        noteProgress_behaves E ext
    | proposal | roundChange => exact noteProgress_behaves E ext
  · exact .pure _

theorem replay_behaves (n : UInt32) : Behaves Effect.Within (E.Foresees ext) (replay E ext n) :=
  .get_bind fun _ => .bind (.set _) fun _ => .forM fun m =>
    .absorb (handleVote_behaves E ext m) fun _ he _ => he

theorem advance_behaves {n : UInt32} (hn : n ≠ 0) :
    Behaves Effect.Within (E.Foresees ext) (advance E ext n) :=
  .get_bind fun _ => .bind (.ask rfl) fun _ => .bind (.set _) fun _ =>
    .bind (.ask (if_neg hn)) fun _ => replay_behaves E ext n

theorem makeBlock_behaves (round : RoundId) :
    Behaves Effect.Within (E.Foresees ext) (makeBlock ext round) :=
  .bind (.ask rfl) fun _ => .ofExcept (ext.createBlock_fails round).raises

theorem propose_behaves (b : Block) (rcs : List (Signed RoundChangeStatement))
    (prepares : List Prepare) :
    Behaves Effect.Within (E.Foresees ext) (propose E ext b rcs prepares) :=
  .get_bind fun _ => .bind (.focus (Round.propose_behaves E _ ext b rcs prepares)) fun _ =>
    .bind (.modify _) fun _ => noteProgress_behaves E ext

theorem proposeIfProposer_behaves (j? : Option Justification) :
    Behaves Effect.Within (E.Foresees ext) (proposeIfProposer E ext j?) := by
  refine .get_bind fun i => ?_
  split
  · refine .bind (.ofExcept (Committee.proposer_fails _)) fun proposer => ?_
    split
    · split
      · exact .bind (makeBlock_behaves E ext _) fun b => propose_behaves E ext b [] []
      · split
        · exact .pure _
        · next j =>
          have hpropose : ∀ b, Behaves Effect.Within (E.Foresees ext)
              (propose E ext b j.roundChanges j.prepares) :=
            fun b => propose_behaves E ext b _ _
          dsimp only
          split
          · exact .bind (.pure _) hpropose
          · exact .bind (makeBlock_behaves E ext _) hpropose
    · exact .pure _
  · exact .pure _

theorem ne_zero_of_lt {m n : UInt32} (h : m < n) : n ≠ 0 := by
  rintro rfl
  exact absurd h (Nat.not_lt_zero _)

theorem enter_behaves (j : Justification) :
    Behaves Effect.Within (E.Foresees ext) (enter E ext j) := by
  refine .get_bind fun i => ?_
  have hpropose : Behaves Effect.Within (E.Foresees ext) (do
      modify fun i => { i with changing := false }
      proposeIfProposer E ext (some j) : Handler Instance Unit) :=
    .bind (.modify _) fun _ => proposeIfProposer_behaves E ext _
  split
  · split
    · next hlt => exact .bind (advance_behaves E ext (ne_zero_of_lt hlt)) fun _ => hpropose
    · exact hpropose
  · exact .pure _

theorem changeRound_behaves {n : UInt32} (hn : n ≠ 0) :
    Behaves Effect.Within (E.Foresees ext) (changeRound E ext n) := by
  refine .bind (advance_behaves E ext hn) fun _ => .bind (.modify _) fun _ => .get_bind fun i => ?_
  split
  · refine .bind (.ofExcept (Signer.changeRound_fails E ext _ _)) fun rc =>
      .bind (.ask rfl) fun _ => .bind (.focus (RoundChanges.append_behaves E _ ext rc)) fun j? => ?_
    cases j? with
    | none => exact .pure _
    | some j => exact enter_behaves E ext j
  · exact .pure _

theorem handleProposal_behaves (p : Proposal) :
    Behaves Effect.Within (E.Foresees ext) (handleProposal E ext p) := by
  refine .get_bind fun i => ?_
  have htake : Behaves Effect.Within (E.Foresees ext) (do
      onRound (Round.acceptProposal E i.committee ext p)
      modify fun i => { i with changing := false }
      noteProgress : Handler Instance Unit) :=
    .bind (.focus (Round.acceptProposal_behaves E _ ext p)) fun _ => .bind (.modify _) fun _ =>
      noteProgress_behaves E ext
  split
  · refine .bind (.bind (.ofExcept (Committee.checkProposal_fails p).survived) fun _ => .pure _)
      fun _ => ?_
    split
    · next hlt => exact .bind (advance_behaves E ext (ne_zero_of_lt hlt)) fun _ => htake
    · exact htake
  · exact .pure _

theorem handleRoundChange_behaves (rc : RoundChange) :
    Behaves Effect.Within (E.Foresees ext) (handleRoundChange E ext rc) := by
  refine .get_bind fun i => ?_
  split
  · refine .bind (.focus (RoundChanges.append_behaves E _ ext rc)) fun j? => ?_
    cases j? with
    | some j => exact enter_behaves E ext j
    | none =>
      refine .bind (.bind .get fun _ => .pure _) fun q => ?_
      split
      · split
        · next n hn =>
          exact changeRound_behaves E ext (ne_zero_of_lt (RoundChanges.lt_of_earlyTarget hn))
        · exact .pure _
      · exact .pure _
  · exact .pure _

theorem start_fails (i : Instance) : Fails (E.Escapes ext) (start E ext i).result := by
  rw [start, Handler.get_bind, Handler.ask_bind]
  have habsorbed := Behaves.absorb (proposeIfProposer_behaves E ext none)
    fun _ => Setup.escapes_of_foreseen
  exact habsorbed.fails i

theorem handleMessage_behaves (m : Message) :
    Behaves Effect.Within (E.Escapes ext) (handleMessage E ext m) := by
  refine .get_bind fun i => ?_
  split
  · refine .absorb ?_ fun _ => Setup.escapes_of_foreseen
    cases m with
    | proposal p => exact handleProposal_behaves E ext p
    | roundChange rc => exact handleRoundChange_behaves E ext rc
    | prepare | commit => exact handleVote_behaves E ext _
  · exact .pure _

theorem nextNumber_ne_zero (n : UInt32) : nextNumber n ≠ 0 := by
  by_cases hn : n = lastNumber
  · rw [hn, nextNumber_lastNumber]
    decide
  · exact ne_zero_of_lt (lt_nextNumber n hn)

theorem roundExpired_behaves (round : RoundId) :
    Behaves Effect.Within (E.Escapes ext) (roundExpired E ext round) := by
  refine .get_bind fun i => ?_
  split
  · exact .absorb (changeRound_behaves E ext (nextNumber_ne_zero _)) fun _ =>
      Setup.escapes_of_foreseen
  · exact .pure _

end Instance

namespace Node

theorem hold_behaves (height : UInt64) (m : Message) :
    Behaves Effect.Within (E.Escapes ext) (hold E height m) := by
  rw [hold]
  split
  · split
    · split
      · exact .modify _
      · exact .pure _
    · exact .pure _
  · exact .pure _

theorem handleRoundExpiry_behaves (round : RoundId) :
    Behaves Effect.Within (E.Escapes ext) (handleRoundExpiry E ext round) := by
  refine .get_bind fun n => ?_
  split
  · exact .pure _
  · split
    · exact .focus (Instance.roundExpired_behaves E ext round)
    · exact .pure _

end Node

end BlockAgreement
