import BlockAgreement.Engine.Instance
import BlockAgreement.Proofs.Ballots

/-! Why the checks of messages fail, and the making of them. A check blames the message, or finds
two prepared blocks in conflict; a statement fails for a signature that the key does not make. The
members of a height are never what is missing. -/

namespace BlockAgreement

/-- Every failure is of this kind. -/
def Fails {α : Type} (Q : Error → Prop) (r : Except Error α) : Prop := ∀ e, r = .error e → Q e

namespace Fails

variable {α β : Type} {Q Q' : Error → Prop} {r : Except Error α} {f : α → Except Error β}

theorem mono (h : Fails Q r) (hq : ∀ e, Q e → Q' e) : Fails Q' r := fun e he => hq e (h e he)

protected theorem pure (a : α) : Fails Q (pure a) := fun _ => nofun

protected theorem throw {e : Error} (he : Q e) : Fails Q (throw e : Except Error α) :=
  fun _ h => Except.error.inj h ▸ he

protected theorem bind (hr : Fails Q r) (hf : ∀ a, Fails Q (f a)) : Fails Q (r >>= f) := by
  intro e he
  rcases bind_eq_error_iff.1 he with h | ⟨a, -, h⟩
  · exact hr e h
  · exact hf a e h

protected theorem ite {c : Prop} [Decidable c] {s : Except Error α} (hr : Fails Q r)
    (hs : Fails Q s) : Fails Q (if c then r else s) := by
  split
  · exact hr
  · exact hs

/-- A test that fails with `e`, before the rest. -/
protected theorem guard {c : Prop} [Decidable c] {e : Error} {f : PUnit → Except Error β}
    (he : Q e) (hf : Fails Q (f ⟨⟩)) : Fails Q (if c then throw e >>= f else f ⟨⟩) :=
  .ite (.bind (.throw he) fun _ => hf) hf

protected theorem mapError {ε : Type} {x : Except ε α} {g : ε → Error}
    (h : ∀ e, x = .error e → Q (g e)) : Fails Q (x.mapError g) := by
  intro e he
  cases x with
  | error d => exact Except.error.inj he ▸ h d rfl
  | ok => cases he

protected theorem foldlM {μ : Type} {f : β → μ → Except Error β} (hf : ∀ b m, Fails Q (f b m))
    (ms : List μ) (b : β) : Fails Q (ms.foldlM f b) := by
  induction ms generalizing b with
  | nil => exact .pure b
  | cons m ms ih => exact .bind (hf b m) ih

end Fails

/-- A single message is to blame. -/
def Error.Blames (e : Error) : Prop := e.isMessageFault = true

/-- A failure that a node survives. -/
def Error.Survived (e : Error) : Prop := Instance.survives e = true

theorem Error.Blames.survived {e : Error} (h : e.Blames) : e.Survived := by
  cases e with
  | malformed | invalidSignature | unauthorizedAuthor | invalid | unknownCode => rfl
  | conflictingClaims | emptyValidatorSet | signing | blockCreation | blockImport | overflow =>
    cases h

/-- A failure that the node survives ends at the handler of the message. -/
theorem Instance.absorb_of_survived {h : Handler Instance Unit} {i j : Instance}
    {x : Except Error Unit} {es : List Effect} (ho : h i = ⟨x, j, es⟩)
    (hx : Fails Error.Survived x) : Handler.absorb survives h i = ⟨.ok (), j, es⟩ := by
  rw [Handler.absorb, ho]
  cases x with
  | ok => rfl
  | error e =>
    have hsurvived : survives e = true := hx e rfl
    simp [hsurvived]

/-- The failure of a signature that the key does not make. -/
def Signer.Refuses (K : Signer) (e : Error) : Prop :=
  ∃ h text, K.sign h = .error text ∧ e = .signing text

variable {S : Scheme} {C : Committee}

namespace Committee

theorem proposer_fails (round : RoundId) {Q : Error → Prop} : Fails Q (C.proposer round) := by
  have hlt : (C.rotation.start round.height C.validators + round.number.toNat) %
      C.validators.length < C.validators.length :=
    Nat.mod_lt _ (List.length_pos_iff.2 C.validators_ne_nil)
  intro e he
  rw [proposer, Rotation.proposer, List.getElem?_eq_getElem hlt] at he
  cases he

section Statements

variable {P : Type} [Statement P] (m : Signed P)

theorem author_fails : Fails Error.Blames (C.author S m) :=
  .bind (.mapError fun _ _ => rfl) fun _ => .ite (.pure _) (.throw rfl)

theorem voter_fails (round : RoundId) : Fails Error.Blames (C.voter S round m) :=
  .bind (author_fails m) fun _ => .ite (.pure _) (.throw rfl)

end Statements

variable (round : RoundId) (digest : Digest)

theorem checkPrepare_fails (m : Prepare) : Fails Error.Blames (C.checkPrepare S round digest m) :=
  .bind (voter_fails m round) fun _ => .ite (.pure _) (.throw rfl)

theorem checkCommit_fails (m : Commit) : Fails Error.Blames (C.checkCommit S round digest m) :=
  .bind (voter_fails m round) fun _ => .guard rfl <|
    .bind (.mapError fun _ _ => rfl) fun _ => .ite (.pure _) (.throw rfl)

theorem admitPrepare_fails (as : List Address) (m : Prepare) :
    Fails Error.Blames (C.admitPrepare S round digest as m) := by
  rw [admitPrepare]
  exact .guard rfl <| .guard rfl <| .bind (author_fails m) fun _ => .guard rfl <| .pure _

theorem checkPrepares_fails (prepares : List Prepare) :
    Fails Error.Blames (C.checkPrepares S prepares round digest) :=
  .bind (.foldlM (admitPrepare_fails round digest) _ _) fun _ => .ite (.throw rfl) (.pure _)

theorem admitRoundChange_fails (as : List Address) (m : Signed RoundChangeStatement) :
    Fails Error.Blames (C.admitRoundChange S round as m) := by
  have hauthor : Fails Error.Blames (do
      let a ← C.author S m
      if as.contains a then throw (Error.invalid (.repeatedRoundChange a))
      return a :: as) :=
    .bind (author_fails m) fun _ => .guard rfl <| .pure _
  rw [admitRoundChange]
  refine .guard rfl ?_
  split
  · exact .guard rfl hauthor
  · exact hauthor

end Committee

theorem Claim.highest?_fails (claims : List Claim) :
    Fails Error.Survived (Claim.highest? claims) := by
  rw [Claim.highest?]
  split
  · exact .pure _
  · split
    · exact .throw rfl
    · exact .pure _

namespace Committee

theorem checkClaims_fails (p : Proposal) : Fails Error.Survived (C.checkClaims S p) := by
  refine .bind (Claim.highest?_fails _) fun c? => ?_
  split
  · exact .guard rfl <| (checkPrepares_fails _ _ _).mono fun _ => Error.Blames.survived
  · exact .ite (.throw rfl) (.pure _)

theorem checkJustification_fails (p : Proposal) :
    Fails Error.Survived (C.checkJustification S p) := by
  refine .ite (.ite (.throw rfl) (.pure _)) ?_
  have hvoted := Fails.foldlM (admitRoundChange_fails (S := S) (C := C) p.round) p.roundChanges []
  exact .bind (hvoted.mono fun _ => Error.Blames.survived) fun _ => .guard rfl <|
    checkClaims_fails p

theorem checkProposal_fails (p : Proposal) : Fails Error.Survived (C.checkProposal S p) :=
  .bind ((author_fails p.signed).mono fun _ => Error.Blames.survived) fun _ => .guard rfl <|
    .bind (proposer_fails p.round) fun _ => .guard rfl <| .guard rfl <| .guard rfl <|
      .bind (checkJustification_fails p) fun _ => .pure _

theorem checkClaim_fails (rc : RoundChange) (c : Claim) (block : Block) :
    Fails Error.Blames (C.checkClaim S rc c block) := by
  rw [checkClaim]
  exact .guard rfl <| .guard rfl <| .guard rfl <| checkPrepares_fails _ _ _

theorem checkRoundChange_fails (rc : RoundChange) :
    Fails Error.Blames (C.checkRoundChange S rc) := by
  refine .bind (author_fails rc.signed) fun a => .guard rfl ?_
  split
  · exact .bind (checkClaim_fails rc _ _) fun _ => .pure _
  · exact .pure _

end Committee

theorem Justification.assemble?_fails (round : RoundId) (rcs : List RoundChange) (quorum : Nat) :
    Fails Error.Survived (assemble? S round rcs quorum) :=
  .ite (.pure _) (.bind (Claim.highest?_fails _) fun _ => .pure _)

namespace Tally

variable (t : Tally)

theorem addPrepare_fails (m : Prepare) : Fails Error.Blames (t.addPrepare S C m) := by
  rw [addPrepare]
  split
  · exact .bind (Committee.checkPrepare_fails _ _ m) fun _ => .pure _
  · exact .bind (Committee.voter_fails m _) fun _ => .pure _

theorem addCommit_fails (m : Commit) : Fails Error.Blames (t.addCommit S C m) := by
  rw [addCommit]
  split
  · exact .bind (Committee.checkCommit_fails _ _ m) fun _ => .pure _
  · exact .bind (Committee.voter_fails m _) fun _ => .pure _

end Tally

theorem Proposal.new?_fails (signed : Signed ProposalStatement) (block : Block)
    (rcs : List (Signed RoundChangeStatement)) (prepares : List Prepare) :
    Fails Error.Blames (new? signed block rcs prepares) := by
  rw [new?]
  split
  · exact .pure _
  · exact .throw rfl

theorem RoundChange.new?_fails (signed : Signed RoundChangeStatement) (block : Option Block)
    (prepares : List Prepare) : Fails Error.Blames (new? signed block prepares) := by
  rw [new?]
  split
  · exact .pure _
  · exact .throw rfl

theorem Message.author_fails (m : Message) : Fails Error.Blames (m.author S) := by
  cases m <;> exact .mapError fun _ _ => rfl

/-- A failure that those who make and take blocks answer with. -/
def Collaborators.Raises (ext : Collaborators) (e : Error) : Prop :=
  (∃ round, ext.createBlock round = .error e) ∨ ∃ b seals, ext.importBlock b seals = .error e

theorem Collaborators.createBlock_fails (ext : Collaborators) (round : RoundId) :
    Fails ext.Raises (ext.createBlock round) :=
  fun _ he => .inl ⟨round, he⟩

theorem Collaborators.importBlock_fails (ext : Collaborators) (b : Block)
    (seals : List Signature) : Fails ext.Raises (ext.importBlock b seals) :=
  fun _ he => .inr ⟨b, seals, he⟩

/-- Those who make and take blocks fail in ways only that a node survives. -/
def Collaborators.Mild (ext : Collaborators) : Prop := ∀ e, ext.Raises e → e.Survived

/-- The failures that a node with this setup may meet at a height: those it survives, those of its
own key, and those of who make and take its blocks. -/
def Setup.Foresees (E : Setup) (ext : Collaborators) (e : Error) : Prop :=
  e.Survived ∨ E.signer.Refuses e ∨ ext.Raises e

/-- Those among them that do not end at the handler of the message. -/
def Setup.Escapes (E : Setup) (ext : Collaborators) (e : Error) : Prop :=
  (E.signer.Refuses e ∨ ext.Raises e) ∧ ¬ e.Survived

section Foreseen

variable {E : Setup} {ext : Collaborators} {e : Error} {α : Type} {r : Except Error α}

theorem Fails.survived (h : Fails Error.Survived r) : Fails (E.Foresees ext) r :=
  h.mono fun _ => .inl

theorem Fails.blames (h : Fails Error.Blames r) : Fails (E.Foresees ext) r :=
  (h.mono fun _ => Error.Blames.survived).survived

theorem Fails.refuses (h : Fails E.signer.Refuses r) : Fails (E.Foresees ext) r :=
  h.mono fun _ => .inr ∘ .inl

theorem Fails.raises (h : Fails ext.Raises r) : Fails (E.Foresees ext) r :=
  h.mono fun _ => .inr ∘ .inr

theorem Setup.escapes_of_foreseen (he : E.Foresees ext e) (hstops : Instance.survives e = false) :
    E.Escapes ext e := by
  have hnot : ¬ e.Survived := Bool.eq_false_iff.1 hstops
  exact ⟨he.resolve_left hnot, hnot⟩

/-- Where those who make and take blocks fail mildly, nothing escapes but what the key refuses. -/
theorem Setup.Escapes.refuses (he : E.Escapes ext e) (hext : ext.Mild) : E.signer.Refuses e :=
  he.1.resolve_right fun h => he.2 (hext e h)

end Foreseen

namespace Signer

variable (E : Setup) (ext : Collaborators)

theorem signHash_fails (K : Signer) (h : Digest) : Fails K.Refuses (K.signHash h) :=
  .mapError fun text ht => ⟨h, text, ht, rfl⟩

theorem attest_fails (K : Signer) {P : Type} [Statement P] (p : P) :
    Fails K.Refuses (K.attest S p) :=
  .bind (signHash_fails K _) fun _ => .pure _

theorem prepare_fails (K : Signer) (round : RoundId) (digest : Digest) :
    Fails K.Refuses (K.prepare S round digest) :=
  attest_fails K _

theorem commit_fails (K : Signer) (round : RoundId) (digest : Digest) :
    Fails K.Refuses (K.commit S round digest) :=
  .bind (signHash_fails K digest) fun _ => attest_fails K _

theorem propose_fails (round : RoundId) (block : Block) (rcs : List (Signed RoundChangeStatement))
    (prepares : List Prepare) :
    Fails (E.Foresees ext) (E.signer.propose S round block rcs prepares) :=
  .bind (attest_fails _ _).refuses fun signed =>
    (Proposal.new?_fails signed block rcs prepares).blames

theorem changeRound_fails (target : RoundId) (lock : Option Lock) :
    Fails (E.Foresees ext) (E.signer.changeRound S target lock) :=
  .bind (attest_fails _ _).refuses fun signed => (RoundChange.new?_fails signed _ _).blames

end Signer

end BlockAgreement
