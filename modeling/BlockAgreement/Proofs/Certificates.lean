import BlockAgreement.Engine.RoundChanges
import BlockAgreement.Proofs.Ballots
import BlockAgreement.Validity.Proposal
import Mathlib.Data.List.Induction

/-! What the checks of certificates accept: the claims of a quorum of round changes, the proposal
that answers them, and the single round change. A proposal made from a justification that was
assembled from checked round changes passes the check that others apply to it. -/

namespace BlockAgreement

namespace Claim

variable {claims : List Claim} {c : Claim}

/-- The claim with the highest round, and the only one with that round. -/
def IsHighest (claims : List Claim) (c : Claim) : Prop :=
  c ∈ claims ∧ ∀ d ∈ claims, d.round ≤ c.round ∧ (d.round = c.round → d = c)

/-- The step of `latest?` from one claim to the next. -/
theorem latest?_append (claims : List Claim) (c : Claim) :
    latest? (claims ++ [c]) = match latest? claims with
      | none => some c
      | some b => if c.round < b.round then some b else some c := by
  unfold latest?
  rw [List.foldl_append]
  rfl

theorem latest?_spec (claims : List Claim) :
    (latest? claims = none ∧ claims = []) ∨
      ∃ c, latest? claims = some c ∧ c ∈ claims ∧ ∀ d ∈ claims, d.round ≤ c.round := by
  induction claims using List.reverseRecOn with
  | nil => exact .inl ⟨rfl, rfl⟩
  | append_singleton claims c ih =>
    right
    rw [latest?_append]
    rcases ih with ⟨hn, rfl⟩ | ⟨b, hb, hm, hle⟩
    · exact ⟨c, by simp [hn], by simp, by simp⟩
    · rw [hb]
      by_cases hc : c.round < b.round
      · refine ⟨b, by simp [hc], by simp [hm], fun d hd => ?_⟩
        rcases List.mem_append.1 hd with hd | hd
        · exact hle d hd
        · rw [List.mem_singleton.1 hd]
          exact UInt32.le_of_lt hc
      · refine ⟨c, by simp [hc], by simp, fun d hd => ?_⟩
        rcases List.mem_append.1 hd with hd | hd
        · exact UInt32.le_trans (hle d hd) (UInt32.not_lt.1 hc)
        · rw [List.mem_singleton.1 hd]
          exact UInt32.le_refl _

theorem highest?_eq_ok_none_iff : highest? claims = .ok none ↔ claims = [] := by
  rw [highest?]
  rcases latest?_spec claims with ⟨hn, rfl⟩ | ⟨b, hb, hm, -⟩
  · simp [hn]
  · rw [hb]
    refine ⟨fun h => ?_, fun h => by simp [h] at hm⟩
    simp only at h
    split at h <;> cases h

theorem highest?_eq_ok_some_iff : highest? claims = .ok (some c) ↔ IsHighest claims c := by
  rw [highest?]
  rcases latest?_spec claims with ⟨hn, rfl⟩ | ⟨b, hb, hm, hle⟩
  · simp [hn, IsHighest]
  · rw [hb]
    simp only
    cases hf : claims.find? fun d => decide (d.round = b.round ∧ d.digest ≠ b.digest) with
    | none =>
      have hsame : ∀ d ∈ claims, d.round = b.round → d = b := by
        intro d hd hr
        have hdig := List.find?_eq_none.1 hf d hd
        simp only [hr, true_and, decide_eq_true_eq, not_not] at hdig
        obtain ⟨dd, dr⟩ := d
        obtain ⟨bd, br⟩ := b
        simp_all
      refine ⟨fun h => ?_, fun h => ?_⟩
      · cases h
        exact ⟨hm, fun d hd => ⟨hle d hd, hsame d hd⟩⟩
      · have hbc := (h.2 b hm).1
        have hr : c.round = b.round := UInt32.le_antisymm (hle c h.1) hbc
        rw [hsame c h.1 hr]
    | some d =>
      refine ⟨nofun, fun h => ?_⟩
      obtain ⟨hr, hdig⟩ : d.round = b.round ∧ d.digest ≠ b.digest := by
        simpa using List.find?_some hf
      have hd := List.mem_of_find?_eq_some hf
      have hbc : b.round = c.round := UInt32.le_antisymm (h.2 b hm).1 (hle c h.1)
      have hbe : b = c := (h.2 b hm).2 hbc
      have hde : d = c := (h.2 d hd).2 (hr.trans hbc)
      exact absurd (by rw [hbe, hde]) hdig

/-- Two claims of the highest round that name different blocks. -/
theorem highest?_eq_error {e : Error} (h : highest? claims = .error e) :
    ∃ c ∈ claims, (∀ d ∈ claims, d.round ≤ c.round) ∧ ∃ d ∈ claims, d.round = c.round ∧
      d.digest ≠ c.digest ∧ e = .conflictingClaims c.round c.digest d.digest := by
  rw [highest?] at h
  rcases latest?_spec claims with ⟨hn, -⟩ | ⟨c, hc, hm, hle⟩
  · rw [hn] at h
    cases h
  · rw [hc] at h
    dsimp only at h
    split at h
    · next d hd =>
      cases h
      obtain ⟨hround, hdigest⟩ : d.round = c.round ∧ d.digest ≠ c.digest := by
        simpa using List.find?_some hd
      exact ⟨c, hm, hle, d, List.mem_of_find?_eq_some hd, hround, hdigest, rfl⟩
    · cases h

end Claim

namespace RoundChange

theorem exists_block_of_claim {rc : RoundChange} {c : Claim} (h : rc.claim = some c) :
    ∃ b, rc.block = some b := by
  have hm := rc.matched
  rw [claim] at h
  rw [h] at hm
  cases hb : rc.block with
  | none => simp [hb, mismatch?] at hm
  | some b => exact ⟨b, rfl⟩

end RoundChange

namespace Committee

variable {S : Scheme} {C : Committee} {round : RoundId} {a : Address}

theorem admitRoundChange_eq_ok_iff {as bs : List Address} {m : Signed RoundChangeStatement} :
    C.admitRoundChange S round as m = .ok bs ↔
      (m.statement.round = round ∧ ∀ c, m.statement.claim = some c → c.round < round.number) ∧
        ∃ a, C.author S m = .ok a ∧ a ∉ as ∧ bs = a :: as := by
  have hrest : (do
      let a ← C.author S m
      if as.contains a = true then throw (Error.invalid (.repeatedRoundChange a))
      return a :: as) = .ok bs ↔ ∃ a, C.author S m = .ok a ∧ a ∉ as ∧ bs = a :: as := by
    simp only [guard_eq_ok_iff, bind_eq_ok_iff, List.contains_iff_mem]
    refine exists_congr fun a => ?_
    simp [pure, Except.pure, eq_comm]
  obtain ⟨⟨r, claim⟩, g⟩ := m
  simp only [admitRoundChange, guard_eq_ok_iff, not_not, and_assoc]
  refine and_congr_right fun _ => ?_
  cases claim with
  | none => simpa using hrest
  | some c =>
    simp only [guard_eq_ok_iff, UInt32.not_le]
    simpa using and_congr_right fun _ => hrest

theorem checkClaims_eq_ok_iff {p : Proposal} : C.checkClaims S p = .ok () ↔
    (p.roundChanges.filterMap (·.statement.claim) = [] ∧ p.prepares = []) ∨
      ∃ c, Claim.IsHighest (p.roundChanges.filterMap (·.statement.claim)) c ∧
        p.digest = c.digest ∧
        C.checkPrepares S p.prepares ⟨p.round.height, c.round⟩ c.digest = .ok () := by
  rw [checkClaims, bind_eq_ok_iff]
  constructor
  · rintro ⟨_ | c, hc, h⟩
    · rw [Claim.highest?_eq_ok_none_iff] at hc
      refine .inl ⟨hc, ?_⟩
      by_contra hne
      simp [hne, throw, throwThe, MonadExceptOf.throw] at h
    · rw [Claim.highest?_eq_ok_some_iff] at hc
      simp only [guard_eq_ok_iff, not_not] at h
      exact .inr ⟨c, hc, h⟩
  · rintro (⟨hc, hp⟩ | ⟨c, hc, h⟩)
    · exact ⟨none, Claim.highest?_eq_ok_none_iff.2 hc, by simp [hp, pure, Except.pure]⟩
    · refine ⟨some c, Claim.highest?_eq_ok_some_iff.2 hc, ?_⟩
      simp only [guard_eq_ok_iff, not_not]
      exact h

/-- A proposal above round 0 is justified when a quorum of different members moved to its round
with claims of earlier rounds only, and it answers those claims. -/
theorem checkJustification_eq_ok_iff {p : Proposal} (h0 : p.round.number ≠ 0) :
    C.checkJustification S p = .ok () ↔
      ((∀ m ∈ p.roundChanges, m.statement.round = p.round ∧
        ∀ c, m.statement.claim = some c → c.round < p.round.number) ∧
      C.Quorate S p.roundChanges) ∧ C.checkClaims S p = .ok () := by
  rw [← exists_admitted_iff (C.admitRoundChange S p.round) _
    (fun _ _ _ => admitRoundChange_eq_ok_iff) p.roundChanges, checkJustification, if_neg h0]
  simp only [bind_eq_ok_iff, guard_eq_ok_iff]
  simp only [← and_assoc, exists_and_right]

theorem checkProposal_eq_ok_iff {p : Proposal} : C.checkProposal S p = .ok a ↔
    C.author S p.signed = .ok a ∧ p.round.height = C.height ∧ C.proposer p.round = .ok a ∧
      S.digest p.block = p.digest ∧ p.block.number = p.round.height ∧
        C.checkJustification S p = .ok () := by
  simp only [checkProposal, bind_eq_ok_iff, guard_eq_ok_iff, not_not]
  constructor
  · rintro ⟨b, ha, hh, c, hc, hbc, hd, hn, ⟨⟩, hj, h⟩
    cases h
    exact ⟨ha, hh, hbc ▸ hc, hd, hn, hj⟩
  · rintro ⟨ha, hh, hc, hd, hn, hj⟩
    exact ⟨a, ha, hh, a, hc, rfl, hd, hn, (), hj, rfl⟩

/-- What is known of a proposal that was checked. -/
theorem checkProposal_eq_ok {p : Proposal} (h : C.checkProposal S p = .ok a) :
    p.round.height = C.height ∧ S.digest p.block = p.digest ∧ p.block.number = C.height ∧
      C.checkJustification S p = .ok () := by
  obtain ⟨-, hh, -, hd, hn, hj⟩ := checkProposal_eq_ok_iff.1 h
  exact ⟨hh, hd, hn.trans hh, hj⟩

theorem checkClaim_eq_ok_iff {rc : RoundChange} {c : Claim} {block : Block} :
    C.checkClaim S rc c block = .ok () ↔ c.round < rc.round.number ∧
      S.digest block = c.digest ∧ block.number = rc.round.height ∧
        C.checkPrepares S rc.prepares ⟨rc.round.height, c.round⟩ c.digest = .ok () := by
  simp only [checkClaim, guard_eq_ok_iff, not_not, UInt32.not_le]

theorem checkRoundChange_eq_ok_iff {rc : RoundChange} :
    C.checkRoundChange S rc = .ok a ↔ C.author S rc.signed = .ok a ∧
      rc.round.height = C.height ∧
        ∀ c block, rc.claim = some c → rc.block = some block →
          C.checkClaim S rc c block = .ok () := by
  simp only [checkRoundChange, bind_eq_ok_iff, guard_eq_ok_iff, not_not]
  cases rc.claim with
  | none => simp [pure, Except.pure, and_comm]
  | some c =>
    cases rc.block with
    | none => simp [pure, Except.pure, and_comm]
    | some b =>
      simp only [bind_eq_ok_iff]
      constructor
      · rintro ⟨_, ha, hh, _, hcl, hx⟩
        cases hx
        refine ⟨ha, hh, ?_⟩
        rintro _ _ ⟨⟩ ⟨⟩
        exact hcl
      · rintro ⟨ha, hh, hc⟩
        exact ⟨a, ha, hh, (), hc c b rfl rfl, rfl⟩

/-- A round change that counts brings the evidence for what it claims. -/
theorem exists_evidence {rc : RoundChange} {c : Claim} (h : C.checkRoundChange S rc = .ok a)
    (hc : rc.claim = some c) :
    ∃ b, rc.block = some b ∧ c.round < rc.round.number ∧ S.digest b = c.digest ∧
      b.number = C.height ∧
        C.checkPrepares S rc.prepares ⟨C.height, c.round⟩ c.digest = .ok () := by
  obtain ⟨-, hh, hcl⟩ := checkRoundChange_eq_ok_iff.1 h
  obtain ⟨b, hb⟩ := RoundChange.exists_block_of_claim hc
  have := checkClaim_eq_ok_iff.1 (hcl c b hc hb)
  rw [hh] at this
  exact ⟨b, hb, this⟩

end Committee

/-- Checked round changes to one round, each with its author, no author twice. -/
structure Gathering.Checked (S : Scheme) (C : Committee) (round : RoundId) (g : Gathering) :
    Prop where
  check : ∀ v ∈ g.votes, C.checkRoundChange S v.2 = .ok v.1
  target : ∀ v ∈ g.votes, v.2.round = round
  nodup : (g.votes.map (·.1)).Nodup

namespace Justification

variable {S : Scheme} {round : RoundId} {rcs : List RoundChange} {authors : List Address}

/-- One step of `contributing`. -/
def contribute (S : Scheme) (round : RoundId) (seen : List Address × List RoundChange)
    (rc : RoundChange) : List Address × List RoundChange :=
  match rc.author S with
  | .ok a =>
    if rc.round = round && !seen.1.contains a then (a :: seen.1, seen.2 ++ [rc]) else seen
  | .error _ => seen

theorem contributing_def :
    contributing S round rcs = (rcs.foldl (contribute S round) ([], [])).2 :=
  rfl

/-- Nothing is left out where all round changes are to the round and no author comes twice. -/
theorem contributing_eq_self (hr : ∀ rc ∈ rcs, rc.round = round)
    (ha : rcs.map (RoundChange.author S) = authors.map .ok) (hn : authors.Nodup) :
    contributing S round rcs = rcs := by
  suffices ∀ seen : List Address × List RoundChange, (∀ a ∈ authors, a ∉ seen.1) →
      (rcs.foldl (contribute S round) seen).2 = seen.2 ++ rcs by
    rw [contributing_def, this _ (by simp), List.nil_append]
  induction rcs generalizing authors with
  | nil => simp
  | cons rc rcs ih =>
    intro seen hs
    obtain _ | ⟨a, authors⟩ := authors
    · simp at ha
    obtain ⟨hra, ha⟩ := List.cons.inj ha
    obtain ⟨hna, hn⟩ := List.nodup_cons.1 hn
    have hstep : contribute S round seen rc = (a :: seen.1, seen.2 ++ [rc]) := by
      have := hs a (List.mem_cons_self ..)
      simp [contribute, hra, hr rc (List.mem_cons_self ..), this]
    rw [List.foldl_cons, hstep, ih (fun x hx => hr x (List.mem_cons_of_mem _ hx)) ha hn]
    · simp
    · intro b hb hm
      rcases List.mem_cons.1 hm with rfl | hm
      · exact hna hb
      · exact hs b (List.mem_cons_of_mem _ hb) hm

theorem length_contributing_le (rcs : List RoundChange) :
    (contributing S round rcs).length ≤ rcs.length := by
  suffices ∀ seen : List Address × List RoundChange,
      (rcs.foldl (contribute S round) seen).2.length ≤ seen.2.length + rcs.length by
    simpa [contributing_def] using this ([], [])
  induction rcs with
  | nil => exact fun _ => Nat.le_refl _
  | cons rc rcs ih =>
    intro seen
    have hstep : (contribute S round seen rc).2.length ≤ seen.2.length + 1 := by
      rw [contribute]
      split
      · split <;> simp
      · exact Nat.le_succ _
    have := ih (contribute S round seen rc)
    rw [List.foldl_cons, List.length_cons]
    omega

/-- Fewer round changes than a quorum justify nothing. -/
theorem assemble?_of_few {q : Nat} (h : rcs.length < q) : assemble? S round rcs q = .ok none :=
  if_pos (Nat.lt_of_le_of_lt (length_contributing_le rcs) h)

theorem round_of_assemble {q : Nat} {j : Justification}
    (h : assemble? S round rcs q = .ok (some j)) : j.round = round := by
  rw [assemble?] at h
  split at h
  · cases h
  · obtain ⟨highest, -, hj⟩ := bind_eq_ok_iff.1 h
    cases hj
    rfl

theorem assemble?_eq_error {q : Nat} {x : Error} (h : assemble? S round rcs q = .error x) :
    Claim.highest? ((contributing S round rcs).filterMap RoundChange.claim) = .error x := by
  rw [assemble?] at h
  split at h
  · cases h
  · rcases bind_eq_error_iff.1 h with h | ⟨_, -, h⟩
    · exact h
    · cases h

theorem assemble?_eq_ok_some {q : Nat} {j : Justification}
    (h : assemble? S round rcs q = .ok (some j)) (hc : contributing S round rcs = rcs) :
    q ≤ rcs.length ∧ j.roundChanges = rcs.map RoundChange.signed ∧
      ((rcs.filterMap RoundChange.claim = [] ∧ j.block = none ∧ j.prepares = []) ∨
        ∃ c, Claim.IsHighest (rcs.filterMap RoundChange.claim) c ∧
          ∃ rc ∈ rcs, rc.claim = some c ∧ j.block = rc.block ∧ j.prepares = rc.prepares) := by
  simp only [assemble?, hc] at h
  by_cases hq : rcs.length < q
  · simp [hq, pure, Except.pure] at h
  · rw [if_neg hq, bind_eq_ok_iff] at h
    obtain ⟨highest, hh, hj⟩ := h
    cases hj
    refine ⟨Nat.not_lt.1 hq, rfl, ?_⟩
    cases highest with
    | none => exact .inl ⟨Claim.highest?_eq_ok_none_iff.1 hh, rfl, rfl⟩
    | some c =>
      rw [Claim.highest?_eq_ok_some_iff] at hh
      obtain ⟨rc, hrc, hcl⟩ := List.mem_filterMap.1 hh.1
      obtain ⟨rc', hf⟩ : ∃ rc', rcs.find? (fun rc => decide (rc.claim = some c)) = some rc' :=
        Option.isSome_iff_exists.1 (List.find?_isSome.2 ⟨rc, hrc, by simpa using hcl⟩)
      refine .inr ⟨c, hh, rc', List.mem_of_find?_eq_some hf, by simpa using List.find?_some hf, ?_⟩
      simp [hf]

end Justification

namespace Gathering.Checked

variable {S : Scheme} {C : Committee} {round : RoundId} {g : Gathering} {j : Justification}

theorem author_eq (hg : g.Checked S C round) {v : Address × RoundChange} (hv : v ∈ g.votes) :
    C.author S v.2.signed = .ok v.1 :=
  (Committee.checkRoundChange_eq_ok_iff.1 (hg.check v hv)).1

theorem contributing_eq (hg : g.Checked S C round) :
    Justification.contributing S round (g.votes.map (·.2)) = g.votes.map (·.2) := by
  have hauthors : (g.votes.map (·.2)).map (RoundChange.author S) =
      (g.votes.map (·.1)).map .ok := by
    simp only [List.map_map]
    exact List.map_congr_left fun v hv => (Committee.author_eq_ok_iff.1 (hg.author_eq hv)).1
  have htarget : ∀ rc ∈ g.votes.map (·.2), rc.round = round := by
    intro rc hrc
    obtain ⟨v, hv, rfl⟩ := List.mem_map.1 hrc
    exact hg.target v hv
  exact Justification.contributing_eq_self htarget hauthors hg.nodup

/-- All that was gathered goes into the justification. -/
theorem assembled (hg : g.Checked S C round)
    (hj : Justification.assemble? S round (g.votes.map (·.2)) C.quorum = .ok (some j)) :
    C.quorum ≤ g.votes.length ∧ j.roundChanges = g.votes.map (·.2.signed) ∧
      ((g.votes.filterMap (·.2.claim) = [] ∧ j.block = none ∧ j.prepares = []) ∨
        ∃ c, Claim.IsHighest (g.votes.filterMap (·.2.claim)) c ∧ ∃ v ∈ g.votes,
          v.2.claim = some c ∧ j.block = v.2.block ∧ j.prepares = v.2.prepares) := by
  obtain ⟨hq, hjr, hbound⟩ := Justification.assemble?_eq_ok_some hj hg.contributing_eq
  simp only [List.filterMap_map, List.mem_map, List.length_map, List.map_map] at hq hjr hbound
  refine ⟨hq, hjr, hbound.imp id ?_⟩
  rintro ⟨c, hc, _, ⟨v, hv, rfl⟩, h⟩
  exact ⟨c, hc, v, hv, h⟩

/-- What a justification assembled from checked round changes asks for is what others check: a
proposal that carries it, for the block it asks for if it asks for one, is justified. -/
theorem checkJustification {p : Proposal} (h0 : p.round.number ≠ 0) (hg : g.Checked S C p.round)
    (hj : Justification.assemble? S p.round (g.votes.map (·.2)) C.quorum = .ok (some j))
    (hrcs : p.roundChanges = j.roundChanges) (hprepares : p.prepares = j.prepares)
    (hdigest : S.digest p.block = p.digest) (hblock : ∀ b, j.block = some b → p.block = b) :
    C.checkJustification S p = .ok () := by
  obtain ⟨hq, hjr, hbound⟩ := hg.assembled hj
  rw [hjr] at hrcs
  have hclaims : p.roundChanges.filterMap (·.statement.claim) = g.votes.filterMap (·.2.claim) := by
    rw [hrcs, List.filterMap_map]
    rfl
  rw [Committee.checkJustification_eq_ok_iff h0, Committee.checkClaims_eq_ok_iff, hclaims]
  refine ⟨⟨?_, ?_⟩, ?_⟩
  · intro m hm
    obtain ⟨v, hv, rfl⟩ := List.mem_map.1 (hrcs ▸ hm)
    refine ⟨hg.target v hv, fun c hc => ?_⟩
    obtain ⟨-, -, hlt, -⟩ := Committee.exists_evidence (hg.check v hv) hc
    rwa [hg.target v hv] at hlt
  · refine ⟨g.votes.map (·.1), ?_, hg.nodup, by simpa using hq⟩
    simp only [hrcs, List.map_map]
    exact List.map_congr_left fun v hv => hg.author_eq hv
  · rcases hbound with ⟨hnone, -, hp⟩ | ⟨c, hc, v, hv, hcl, hjb, hjp⟩
    · exact .inl ⟨hnone, hprepares.trans hp⟩
    · obtain ⟨b, hb, -, hdig, -, hproof⟩ := Committee.exists_evidence (hg.check v hv) hcl
      obtain ⟨-, hh, -⟩ := Committee.checkRoundChange_eq_ok_iff.1 (hg.check v hv)
      rw [hg.target v hv] at hh
      refine .inr ⟨c, hc, ?_, ?_⟩
      · rw [← hdigest, hblock b (hjb.trans hb), hdig]
      · rw [hprepares, hjp, hh]
        exact hproof

end Gathering.Checked

end BlockAgreement
