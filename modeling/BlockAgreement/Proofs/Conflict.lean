import BlockAgreement.Proofs.Overlap
import BlockAgreement.Proofs.Steady

/-! What it takes for a node to find two prepared blocks in conflict. All round changes that it
gathers carry the prepares for what they claim, so two claims of one round that name different
blocks come with two quorums of prepares, and those who are in both have prepared two blocks in
one round. -/

namespace BlockAgreement

/-- Among what is gathered is a prepare of `a` for this block in round `n`. -/
def Gathering.Tells (S : Scheme) (C : Committee) (g : Gathering) (n : UInt32) (digest : Digest)
    (a : Address) : Prop :=
  ∃ v ∈ g.votes, ∃ m ∈ v.2.prepares,
    m.statement = ⟨⟨C.height, n⟩, digest⟩ ∧ m.author S = .ok a

section

variable {S : Scheme} {C : Committee} {round : RoundId} {n : UInt32} {d e : Digest}

namespace Gathering.Checked

variable {g : Gathering}

/-- Claims of one round that name different blocks, where the gathered claims are in conflict. -/
theorem exists_claims (hg : g.Checked S C round)
    (h : Justification.assemble? S round (g.votes.map (·.2)) C.quorum =
      .error (.conflictingClaims n d e)) :
    d ≠ e ∧ (∃ v ∈ g.votes, v.2.claim = some ⟨d, n⟩) ∧ ∃ v ∈ g.votes, v.2.claim = some ⟨e, n⟩ := by
  have hclaims := Justification.assemble?_eq_error h
  rw [hg.contributing_eq, List.filterMap_map] at hclaims
  obtain ⟨⟨cd, cn⟩, hc, -, ⟨dd, dn⟩, hd, hround, hdigest, hconflict⟩ :=
    Claim.highest?_eq_error hclaims
  cases hconflict
  cases hround
  exact ⟨fun heq => hdigest heq.symm, List.mem_filterMap.1 hc, List.mem_filterMap.1 hd⟩

/-- Those who prepared either block. -/
theorem exists_double (hg : g.Checked S C round) {v w : Address × RoundChange}
    (hv : v ∈ g.votes) (hd : v.2.claim = some ⟨d, n⟩) (hw : w ∈ g.votes)
    (he : w.2.claim = some ⟨e, n⟩) : ∃ s ⊆ C.validators.toFinset, C.faultTolerance + 1 ≤ s.card ∧
      ∀ a ∈ s, g.Tells S C n d a ∧ g.Tells S C n e a := by
  have htells : ∀ {u : Address × RoundChange} {digest : Digest}, u ∈ g.votes →
      u.2.claim = some ⟨digest, n⟩ → C.Quorate S u.2.prepares ∧
        ∀ a, (∃ m ∈ u.2.prepares, C.author S m = .ok a) → g.Tells S C n digest a := by
    intro u digest hu hclaim
    obtain ⟨_, -, -, -, -, hproof⟩ := Committee.exists_evidence (hg.check u hu) hclaim
    obtain ⟨hfor, hquorate⟩ := Committee.checkPrepares_eq_ok_iff.1 hproof
    refine ⟨hquorate, ?_⟩
    rintro a ⟨m, hm, ha⟩
    exact ⟨u, hu, m, hm, hfor m hm, (Committee.author_eq_ok_iff.1 ha).1⟩
  obtain ⟨hquorate, hsaid⟩ := htells hv hd
  obtain ⟨hquorate', hsaid'⟩ := htells hw he
  obtain ⟨s, hs, hcard, hboth⟩ := hquorate.exists_overlap hquorate'
  exact ⟨s, hs, hcard, fun a ha => ⟨hsaid a (hboth a ha).1, hsaid' a (hboth a ha).2⟩⟩

end Gathering.Checked

namespace RoundChanges

variable {p q : RoundChanges} {rc : RoundChange}

/-- A single round change that is refused is to blame itself, so a conflict comes of the claims. -/
theorem Appends.assembled_of_conflict
    (h : Appends S C rc p (.error (.conflictingClaims n d e)) q) :
    (∃ a, C.checkRoundChange S rc = .ok a) ∧
      Justification.assemble? S rc.round ((q.gathering rc.round.number).votes.map (·.2))
        C.quorum = .error (.conflictingClaims n d e) := by
  cases h with
  | refused hrc => exact absurd (Committee.checkRoundChange_fails rc _ hrc) nofun
  | gathered ha _ _ _ hx => exact ⟨⟨_, ha⟩, (hx.resolve_left nofun).symm⟩

variable (S C) in
/-- What may become of gathered round changes within a call and later. -/
inductive Later (p : RoundChanges) : RoundChanges → Prop
  | refl : Later p p
  | append {q : RoundChanges} (rc : RoundChange) (h : Later p q) : Later p (append S C rc q).state
  | discardBefore {q : RoundChanges} (n : UInt32) (h : Later p q) : Later p (q.discardBefore n)

theorem Checked.append (hp : p.Checked S C) (rc : RoundChange) :
    (append S C rc p).state.Checked S C := by
  obtain ⟨x, q, ho, h⟩ := append_appends (S := S) (C := C) rc p
  rw [ho]
  exact h.gathers.checked hp

theorem Later.checked (h : Later S C p q) (hp : p.Checked S C) : q.Checked S C := by
  induction h with
  | refl => exact hp
  | append rc _ ih => exact ih.append rc
  | discardBefore n _ ih => exact ih.discardBefore n

/-- A conflict convicts more validators than may be faulty. -/
theorem Checked.conflict (hp : p.Checked S C)
    (h : (RoundChanges.append S C rc p).result = .error (.conflictingClaims n d e)) :
    let g := (RoundChanges.append S C rc p).state.gathering rc.round.number
    d ≠ e ∧ ∃ s ⊆ C.validators.toFinset, C.faultTolerance + 1 ≤ s.card ∧
      ∀ a ∈ s, g.Tells S C n d a ∧ g.Tells S C n e a := by
  have hq := hp.append rc
  obtain ⟨x, q, ho, ha⟩ := append_appends (S := S) (C := C) rc p
  rw [ho] at h hq ⊢
  cases h
  obtain ⟨⟨b, hb⟩, hconflict⟩ := ha.assembled_of_conflict
  have hg := hq rc.round.number
  rw [← (Committee.checkRoundChange_eq_ok_iff.1 hb).2.1] at hg
  obtain ⟨hne, ⟨v, hv, hd⟩, w, hw, he⟩ := hg.exists_claims hconflict
  exact ⟨hne, hg.exists_double hv hd hw he⟩

end RoundChanges

end

/-- Within a call, too, round changes are only gathered or dropped. -/
theorem Instance.steady_later (E : Setup) (C : Committee) (p : RoundChanges) :
    Steady E C (fun _ q => p.Later E.scheme C q) fun _ => True where
  enter hp _ := hp.discardBefore _
  own _ _ := fun _ _ hp => hp.append _
  justified _ _ := trivial
  early _ _ := trivial

namespace History

theorem run_later (E : Setup) (C : Committee) (first : Collaborators) (calls : List Call) :
    (RoundChanges.new E.config.roundHorizon).Later E.scheme C
      (run E C first calls).inst.roundChanges :=
  (run_has (Instance.steady_later E C _) .refl first calls (fun _ _ _ _ _ _ => trivial)
    (fun _ _ _ _ => fun _ _ hp => hp.append _) fun _ _ _ _ _ _ => trivial).holds

/-- Whenever a node finds two prepared blocks in conflict, at whatever point of a run, the round
changes that it gathered for that round prove more than the tolerated number of validators faulty:
each of these prepared both blocks in one round. -/
theorem conflict_convicts (E : Setup) (C : Committee) (first : Collaborators) (calls : List Call)
    {p : RoundChanges} (hp : (run E C first calls).inst.roundChanges.Later E.scheme C p)
    (rc : RoundChange) {n : UInt32} {d e : Digest}
    (h : (RoundChanges.append E.scheme C rc p).result = .error (.conflictingClaims n d e)) :
    d ≠ e ∧ ∃ s ⊆ C.validators.toFinset, C.faultTolerance + 1 ≤ s.card ∧ ∀ a ∈ s,
      ((RoundChanges.append E.scheme C rc p).state.gathering rc.round.number).Tells
        E.scheme C n d a ∧
      ((RoundChanges.append E.scheme C rc p).state.gathering rc.round.number).Tells
        E.scheme C n e a :=
  (hp.checked ((run_later E C first calls).checked (RoundChanges.checked_new _))).conflict h

/-- A lock of round 1, with the prepares of these. -/
def lockOf (block : Block) (voters : List Nat) : Lock :=
  let digest := Scheme.plain.digest block
  let prepares := voters.filterMap fun k =>
    ((Signer.plain (.ofNat k)).prepare .plain ⟨1, 1⟩ digest).toOption
  ⟨block, digest, prepares, 1⟩

/-- Two of four validators move on to round 2, each with a block of its own. -/
def disputedCalls : List Call := Call.plain [
  .roundChange <$> (Signer.plain (.ofNat 1)).changeRound .plain ⟨1, 2⟩
    (some (lockOf (.plain 1 []) [1, 2, 3])),
  .roundChange <$> (Signer.plain (.ofNat 2)).changeRound .plain ⟨1, 2⟩
    (some (lockOf (.plain 1 [7]) [2, 3, 4]))]

/-- The third moves on without a lock. -/
def settling : RoundChange :=
  let statement : RoundChangeStatement := ⟨⟨1, 2⟩, none⟩
  ⟨⟨statement, ⟨.ofNat 3, Statement.hash .plain statement, false⟩⟩, none, [], rfl⟩

theorem conflict_convicts_disputed :
    let E := { Setup.plain (.ofNat 9) with config := { earlyRoundChange := false } }
    let C := Committee.plain 3
    let p := (run E C .plain disputedCalls).inst.roundChanges
    let o := RoundChanges.append E.scheme C settling p
    let d := Scheme.plain.digest (.plain 1 [7])
    let e := Scheme.plain.digest (.plain 1 [])
    p.Later E.scheme C p ∧ o.result = .error (.conflictingClaims 1 d e) ∧
      d ≠ e ∧ ∃ s ⊆ C.validators.toFinset, C.faultTolerance + 1 ≤ s.card ∧ ∀ a ∈ s,
        (o.state.gathering settling.round.number).Tells E.scheme C 1 d a ∧
        (o.state.gathering settling.round.number).Tells E.scheme C 1 e a := by
  intro E C p o d e
  have hconflict : o.result = .error (.conflictingClaims 1 d e) := by decide +kernel
  exact ⟨.refl, hconflict, conflict_convicts E C .plain disputedCalls .refl settling hconflict⟩

end History

end BlockAgreement
