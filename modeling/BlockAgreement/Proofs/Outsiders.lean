import BlockAgreement.Proofs.Run

/-! Messages of those who are no members. Whatever such a message is and carries, its author is
asked for before anything is written or said, so that it fails where it came in and no trace is
left. A run is then the same with such messages anywhere in it as without them. -/

namespace BlockAgreement

/-- The message has no author, or one who is no member. -/
def Message.Foreign (S : Scheme) (C : Committee) (m : Message) : Prop :=
  ∀ a, m.author S = .ok a → C.contains a = false

instance (S : Scheme) (C : Committee) (m : Message) : Decidable (m.Foreign S C) :=
  match h : m.author S with
  | .ok a => decidable_of_iff (C.contains a = false)
      ⟨fun hc _ hb => by cases h.symm.trans hb; exact hc, fun hm => hm a h⟩
  | .error _ => isTrue fun _ ha => nomatch h.symm.trans ha

namespace Committee

variable {S : Scheme} {C : Committee}

theorem author_of_foreign {P : Type} [Statement P] {m : Signed P}
    (hm : ∀ a, m.author S = .ok a → C.contains a = false) :
    ∃ e, C.author S m = .error e ∧ e.Survived := by
  cases ha : C.author S m with
  | ok a =>
    obtain ⟨hauthor, hmember⟩ := author_eq_ok_iff.1 ha
    cases (hm a hauthor).symm.trans hmember
  | error e => exact ⟨e, rfl, (author_fails m e ha).survived⟩

variable {e : Error}

theorem checkProposal_of_author {p : Proposal} (h : C.author S p.signed = .error e) :
    C.checkProposal S p = .error e := by
  rw [checkProposal, h]
  rfl

theorem checkRoundChange_of_author {rc : RoundChange} (h : C.author S rc.signed = .error e) :
    C.checkRoundChange S rc = .error e := by
  rw [checkRoundChange, h]
  rfl

theorem voter_of_author {P : Type} [Statement P] {m : Signed P} (round : RoundId)
    (h : C.author S m = .error e) : C.voter S round m = .error e := by
  rw [voter, h]
  rfl

end Committee

namespace Tally

variable {S : Scheme} {C : Committee} {e : Error} (t : Tally)

theorem addPrepare_of_author {m : Prepare} (h : C.author S m = .error e) :
    t.addPrepare S C m = .error e := by
  have hv := Committee.voter_of_author t.round h
  rw [addPrepare]
  split
  · rw [Committee.checkPrepare, hv]
    rfl
  · rw [hv]
    rfl

theorem addCommit_of_author {m : Commit} (h : C.author S m = .error e) :
    t.addCommit S C m = .error e := by
  have hv := Committee.voter_of_author t.round h
  rw [addCommit]
  split
  · rw [Committee.checkCommit, hv]
    rfl
  · rw [hv]
    rfl

end Tally

namespace Instance

variable {E : Setup} {i : Instance} {m : Message} {e : Error} (ext : Collaborators)

/-- The handler leaves no trace, and fails in no way that stops the node. -/
def Ignores (h : Handler Instance Unit) (i : Instance) : Prop :=
  ∃ x, h i = ⟨x, i, []⟩ ∧ Fails Error.Survived x

/-- What fails at once and without a trace is not gone on from. -/
theorem ignores_bind {α : Type} {h : Handler Instance α} (f : α → Handler Instance Unit)
    (ho : h i = ⟨.error e, i, []⟩) (he : e.Survived) : Ignores (h >>= f) i := by
  refine ⟨_, Handler.bind_of_error f ho, ?_⟩
  rintro _ ⟨⟩
  exact he

theorem ignores_pure (i : Instance) : Ignores (pure ()) i := ⟨_, rfl, .pure ()⟩

/-- A vote for a later round is not held, as its author is asked for before. -/
theorem hold_ignores (hm : m.Foreign E.scheme i.committee) : Ignores (hold E m) i := by
  have hfails : Fails Error.Survived (m.author E.scheme) :=
    (Message.author_fails m).mono fun _ => Error.Blames.survived
  unfold Ignores
  rw [hold, Handler.get_bind]
  cases ha : m.author E.scheme with
  | error e => exact ignores_bind _ rfl (hfails e ha)
  | ok a =>
    rw [Handler.ofExcept_ok_bind, if_neg (by simp [hm a ha])]
    refine ⟨_, rfl, ?_⟩
    rintro _ ⟨⟩
    rfl

theorem handleVote_ignores (hm : m.Foreign E.scheme i.committee)
    (hkind : m.kind = .prepare ∨ m.kind = .commit) :
    Ignores (handleVote E ext m) i := by
  unfold Ignores
  rw [handleVote, Handler.get_bind]
  split
  · exact hold_ignores hm
  split
  · cases m with
    | prepare v =>
      obtain ⟨e, ha, he⟩ := Committee.author_of_foreign hm
      have ho : Round.handlePrepare E i.committee ext v i.round = ⟨.error e, i.round, []⟩ := by
        refine Handler.bind_of_error _ ?_
        rw [Round.addPrepare_apply, Tally.addPrepare_of_author _ ha]
        rfl
      exact ignores_bind _ (onRound_apply ho) he
    | commit v =>
      obtain ⟨e, ha, he⟩ := Committee.author_of_foreign hm
      have ho : Round.handleCommit E i.committee ext v i.round = ⟨.error e, i.round, []⟩ := by
        refine Handler.bind_of_error _ ?_
        rw [Round.addCommit_apply, Tally.addCommit_of_author _ ha]
        rfl
      exact ignores_bind _ (onRound_apply ho) he
    | proposal p => simp [Message.kind] at hkind
    | roundChange rc => simp [Message.kind] at hkind
  · exact ignores_pure i

theorem handleProposal_ignores {p : Proposal}
    (hp : (Message.proposal p).Foreign E.scheme i.committee) :
    Ignores (handleProposal E ext p) i := by
  unfold Ignores
  rw [handleProposal, Handler.get_bind]
  split
  · obtain ⟨e, ha, he⟩ := Committee.author_of_foreign (m := p.signed) hp
    rw [Committee.checkProposal_of_author ha]
    exact ignores_bind _ rfl he
  · exact ignores_pure i

theorem handleRoundChange_ignores {rc : RoundChange}
    (hrc : (Message.roundChange rc).Foreign E.scheme i.committee) :
    Ignores (handleRoundChange E ext rc) i := by
  unfold Ignores
  rw [handleRoundChange, Handler.get_bind]
  split
  · obtain ⟨e, ha, he⟩ := Committee.author_of_foreign (m := rc.signed) hrc
    have ho : RoundChanges.append E.scheme i.committee rc i.roundChanges =
        ⟨.error e, i.roundChanges, []⟩ := by
      rw [RoundChanges.append, Committee.checkRoundChange_of_author ha]
      rfl
    exact ignores_bind _ (onRoundChanges_apply ho) he
  · exact ignores_pure i

/-- The message of an outsider changes nothing and asks for nothing, in any state. -/
theorem handleMessage_of_foreign (hm : m.Foreign E.scheme i.committee) :
    handleMessage E ext m i = ⟨.ok (), i, []⟩ := by
  unfold handleMessage
  rw [Handler.get_bind]
  split
  · cases m with
    | proposal p =>
      obtain ⟨x, ho, hx⟩ := handleProposal_ignores ext hm
      exact absorb_of_survived ho hx
    | roundChange rc =>
      obtain ⟨x, ho, hx⟩ := handleRoundChange_ignores ext hm
      exact absorb_of_survived ho hx
    | prepare v =>
      obtain ⟨x, ho, hx⟩ := handleVote_ignores ext hm (.inl rfl)
      exact absorb_of_survived ho hx
    | commit v =>
      obtain ⟨x, ho, hx⟩ := handleVote_ignores ext hm (.inr rfl)
      exact absorb_of_survived ho hx
  · rfl

end Instance

/-! ### Runs with such messages in them -/

/-- A list with entries of this kind put in anywhere. -/
inductive Padded {α : Type} (P : α → Prop) : List α → List α → Prop
  | nil : Padded P [] []
  | keep (a : α) {l m : List α} : Padded P l m → Padded P (a :: l) (a :: m)
  | insert {a : α} {l m : List α} (ha : P a) : Padded P l m → Padded P l (a :: m)

/-- The call hands over the message of an outsider. -/
def Call.Foreign (S : Scheme) (C : Committee) : Call → Prop
  | ⟨_, .message m⟩ => m.Foreign S C
  | ⟨_, .roundExpiry _⟩ => False

instance (S : Scheme) (C : Committee) : (c : Call) → Decidable (c.Foreign S C)
  | ⟨_, .message m⟩ => inferInstanceAs (Decidable (m.Foreign S C))
  | ⟨_, .roundExpiry _⟩ => isFalse id

theorem Padded.append {α : Type} {P : α → Prop} {l more : List α} (h : ∀ a ∈ more, P a) :
    Padded P l (more ++ l) := by
  induction more with
  | nil => exact l.rec .nil fun a _ => .keep a
  | cons a more ih =>
    obtain ⟨ha, hmore⟩ := List.forall_mem_cons.1 h
    exact .insert ha (ih hmore)

namespace History

variable {E : Setup} {C : Committee} {first : Collaborators} {h : History} {calls padded : List Call}

theorem handle_of_foreign {c : Call} (hc : c.Foreign E.scheme C) (hh : h.inst.committee = C) :
    Instance.handle E c h.inst = ⟨.ok (), h.inst, []⟩ := by
  subst hh
  obtain ⟨ext, m | round⟩ := c
  · exact Instance.handleMessage_of_foreign ext hc
  · exact hc.elim

theorem after_of_foreign {c : Call} (hc : c.Foreign E.scheme C) (hh : h.inst.committee = C) :
    h.after E c = h := by
  rw [after, handle_of_foreign hc hh, List.append_nil]

theorem foldl_of_foreign (hc : ∀ c ∈ calls, c.Foreign E.scheme C) (hh : h.inst.committee = C) :
    calls.foldl (after E) h = h := by
  induction calls with
  | nil => rfl
  | cons c calls ih =>
    obtain ⟨hc, hcs⟩ := List.forall_mem_cons.1 hc
    rw [List.foldl_cons, after_of_foreign hc hh, ih hcs]

/-- Calls with messages of outsiders among them, after a run. -/
theorem foldl_of_padded (hp : Padded (Call.Foreign E.scheme C) calls padded) :
    ∀ before, padded.foldl (after E) (run E C first before) =
      calls.foldl (after E) (run E C first before) := by
  induction hp with
  | nil => exact fun _ => rfl
  | keep c hp ih =>
    intro before
    have hnext : (run E C first before).after E c = run E C first (before ++ [c]) := by
      rw [run_append]
      rfl
    rw [List.foldl_cons, List.foldl_cons, hnext, ih]
  | insert hc hp ih =>
    intro before
    rw [List.foldl_cons, after_of_foreign hc (run_committee ..), ih]

/-- Messages of outsiders, before the start and anywhere after it, leave a run with the same state
and with the same requests in the same order, and none of them fails, whatever run it comes after. -/
theorem run_of_padded (hp : Padded (Call.Foreign E.scheme C) calls padded) {early : List Call}
    (hearly : ∀ c ∈ early, c.Foreign E.scheme C) :
    early.foldl (after E) ⟨Instance.new E C, []⟩ = ⟨Instance.new E C, []⟩ ∧
      run E C first padded = run E C first calls ∧
      (∀ c ∈ early, (Instance.handle E c (Instance.new E C)).result = .ok ()) ∧
      ∀ before c, c.Foreign E.scheme C →
        (Instance.handle E c (run E C first before).inst).result = .ok () := by
  refine ⟨foldl_of_foreign hearly rfl, foldl_of_padded hp [], fun c hc => ?_, ?_⟩
  · rw [handle_of_foreign (h := ⟨Instance.new E C, []⟩) (hearly c hc) rfl]
  · intro before c hc
    rw [handle_of_foreign hc (run_committee ..)]

/-- Votes of the first round: the address 9 sent the one, and the others have no author. -/
def strayCalls : List Call :=
  let digest := Scheme.plain.digest (.plain 1 [])
  Call.plain [.prepare <$> (Signer.plain (.ofNat 9)).prepare .plain ⟨1, 0⟩ digest,
    .ok (.prepare ⟨⟨⟨1, 0⟩, digest⟩, ⟨.ofNat 2, .zero, false⟩⟩),
    .ok (.commit ⟨⟨⟨1, 0⟩, digest, ⟨.zero, .zero, false⟩⟩, ⟨.zero, .zero, false⟩⟩)]

theorem run_of_padded_stray :
    Padded (Call.Foreign .plain (.plain 3)) preparedCalls (strayCalls ++ preparedCalls) ∧
      (∀ c ∈ strayCalls, c.Foreign .plain (.plain 3)) ∧ strayCalls.length = 3 ∧
      run (.plain (.ofNat 3)) (.plain 3) .plain (strayCalls ++ preparedCalls) =
        run (.plain (.ofNat 3)) (.plain 3) .plain preparedCalls := by
  have hstray : ∀ c ∈ strayCalls, c.Foreign .plain (.plain 3) := by decide +kernel
  exact ⟨.append hstray, hstray, by decide +kernel,
    (run_of_padded (E := .plain (.ofNat 3)) (.append hstray) hstray).2.1⟩

end History

end BlockAgreement
