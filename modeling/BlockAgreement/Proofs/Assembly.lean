import BlockAgreement.Proofs.Certificates
import BlockAgreement.Proofs.Run

/-! How round changes are put together to justify a round. Of each author the first one to the round
counts; below a quorum nothing comes of these, and otherwise the claims of the highest round among
them decide: there are none, they name one block, which is then taken from one of those who claim it,
or they are in conflict. -/

namespace BlockAgreement

namespace Justification

variable (S : Scheme) (round : RoundId)

/-- A round change to this round whose author is not heard to move there before. -/
def IsFirst (before : List RoundChange) (rc : RoundChange) : Prop :=
  rc.round = round ∧ (rc.author S).isOk ∧
    ∀ m ∈ before, m.round = round → m.author S ≠ rc.author S

instance (before : List RoundChange) : DecidablePred (IsFirst S round before) :=
  fun _ => inferInstanceAs (Decidable (_ ∧ _ ∧ _))

/-- The round changes that count for this round, in their order. -/
def firsts (rcs : List RoundChange) : List RoundChange :=
  (rcs.zipIdx.filter fun x => IsFirst S round (rcs.take x.2) x.1).map (·.1)

variable {S round} {rcs : List RoundChange} {rc : RoundChange} {a : Address} {q : Nat}

theorem firsts_concat (rcs : List RoundChange) (rc : RoundChange) :
    firsts S round (rcs ++ [rc]) =
      firsts S round rcs ++ if IsFirst S round rcs rc then [rc] else [] := by
  have hold : rcs.zipIdx.filter (fun x => IsFirst S round ((rcs ++ [rc]).take x.2) x.1) =
      rcs.zipIdx.filter fun x => IsFirst S round (rcs.take x.2) x.1 := by
    refine List.filter_congr fun x hx => ?_
    obtain ⟨hlt, -⟩ := List.getElem?_eq_some_iff.1 (List.mem_zipIdx_iff_getElem?.1 hx)
    rw [List.take_append_of_le_length (Nat.le_of_lt hlt)]
  rw [firsts, List.zipIdx_append, List.filter_append, hold, List.map_append, ← firsts]
  by_cases h : IsFirst S round rcs rc <;> simp [h]

/-- Those who are heard to move to the round. -/
def Heard (S : Scheme) (round : RoundId) (rcs : List RoundChange) (a : Address) : Prop :=
  ∃ m ∈ rcs, m.round = round ∧ m.author S = .ok a

theorem heard_concat : Heard S round (rcs ++ [rc]) a ↔
    Heard S round rcs a ∨ rc.round = round ∧ rc.author S = .ok a := by
  simp [Heard, or_and_right, exists_or]

theorem isFirst_iff : IsFirst S round rcs rc ↔
    rc.round = round ∧ ∃ a, rc.author S = .ok a ∧ ¬ Heard S round rcs a := by
  cases ha : rc.author S with
  | error e => simp [IsFirst, ha, Except.isOk, Except.toBool]
  | ok a => simp [IsFirst, ha, Except.isOk, Except.toBool, Heard]

/-- The first ones are gathered, and beside them their authors are noted. -/
theorem foldl_contribute (rcs : List RoundChange) :
    let seen := rcs.foldl (contribute S round) ([], [])
    (∀ a, a ∈ seen.1 ↔ Heard S round rcs a) ∧ seen.2 = firsts S round rcs := by
  induction rcs using List.reverseRecOn with
  | nil => simp [Heard, firsts]
  | append_singleton rcs rc ih =>
    obtain ⟨hheard, hfirsts⟩ := ih
    rw [List.foldl_append, List.foldl_cons, List.foldl_nil, firsts_concat, ← hfirsts]
    generalize rcs.foldl (contribute S round) ([], []) = seen at hheard ⊢
    have hfirst : IsFirst S round rcs rc ↔
        rc.round = round ∧ ∃ a, rc.author S = .ok a ∧ a ∉ seen.1 := by
      simp only [hheard]
      exact isFirst_iff
    simp only [heard_concat, ← hheard, contribute]
    cases ha : rc.author S with
    | error e => simp [show ¬ IsFirst S round rcs rc by simp [hfirst, ha]]
    | ok a =>
      by_cases h : rc.round = round ∧ a ∉ seen.1
      · have : IsFirst S round rcs rc := hfirst.2 ⟨h.1, a, ha, h.2⟩
        simp [this, h, or_comm, eq_comm]
      · have : ¬ IsFirst S round rcs rc := by simpa [hfirst, ha] using h
        have hsame : ∀ b, b ∈ seen.1 ∨ rc.round = round ∧ a = b ↔ b ∈ seen.1 := by
          refine fun b => or_iff_left_of_imp ?_
          rintro ⟨hround, rfl⟩
          exact not_not.1 fun hnew => h ⟨hround, hnew⟩
        simp [this, h, hsame]

theorem contributing_eq_firsts (rcs : List RoundChange) :
    contributing S round rcs = firsts S round rcs :=
  (foldl_contribute rcs).2

theorem round_of_mem_firsts (h : rc ∈ firsts S round rcs) : rc.round = round := by
  obtain ⟨x, hx, rfl⟩ := List.mem_map.1 h
  exact (of_decide_eq_true (List.mem_filter.1 hx).2).1

/-- Those that count are from different authors. -/
theorem exists_authors (S : Scheme) (round : RoundId) (rcs : List RoundChange) :
    ∃ authors : List Address, (firsts S round rcs).map (RoundChange.author S) = authors.map .ok ∧
      authors.Nodup ∧ ∀ a ∈ authors, Heard S round rcs a := by
  induction rcs using List.reverseRecOn with
  | nil => exact ⟨[], rfl, List.nodup_nil, nofun⟩
  | append_singleton rcs rc ih =>
    obtain ⟨authors, hauthors, hnodup, hheard⟩ := ih
    rw [firsts_concat]
    by_cases h : IsFirst S round rcs rc
    · obtain ⟨hround, a, ha, hnew⟩ := isFirst_iff.1 h
      refine ⟨authors ++ [a], by simp [h, hauthors, ha], ?_, ?_⟩
      · refine List.nodup_append.2 ⟨hnodup, List.nodup_singleton a, ?_⟩
        rintro b hb _ hm rfl
        exact hnew (List.mem_singleton.1 hm ▸ hheard b hb)
      · simp only [heard_concat, List.forall_mem_append, List.forall_mem_singleton]
        exact ⟨fun b hb => .inl (hheard b hb), .inr ⟨hround, ha⟩⟩
    · exact ⟨authors, by simp [h, hauthors], hnodup,
        fun b hb => heard_concat.2 (.inl (hheard b hb))⟩

/-- What does not count may as well be left out. -/
theorem contributing_firsts (rcs : List RoundChange) :
    contributing S round (firsts S round rcs) = firsts S round rcs := by
  obtain ⟨authors, hauthors, hnodup, -⟩ := exists_authors S round rcs
  exact contributing_eq_self (fun _ => round_of_mem_firsts) hauthors hnodup

theorem assemble?_firsts (rcs : List RoundChange) (q : Nat) :
    assemble? S round (firsts S round rcs) q = assemble? S round rcs q := by
  rw [assemble?, assemble?, contributing_firsts, contributing_eq_firsts]

theorem assemble?_eq_ok_none_iff :
    assemble? S round rcs q = .ok none ↔ (firsts S round rcs).length < q := by
  rw [assemble?, contributing_eq_firsts]
  split
  · next h => exact ⟨fun _ => h, fun _ => rfl⟩
  · next h =>
    refine ⟨fun hnone => ?_, fun hlt => absurd hlt h⟩
    obtain ⟨_, -, hnone⟩ := bind_eq_ok_iff.1 hnone
    cases hnone

/-! ### The claims that decide -/

/-- A claim of the highest round that any of these claims. -/
structure Tops (chosen : List RoundChange) (c : Claim) : Prop where
  claimed : ∃ rc ∈ chosen, rc.claim = some c
  highest : ∀ rc ∈ chosen, ∀ d, rc.claim = some d → d.round ≤ c.round

/-- Two claims of the highest round name different blocks. -/
def Disputed (chosen : List RoundChange) : Prop :=
  ∃ c d, Tops chosen c ∧ Tops chosen d ∧ c.digest ≠ d.digest

/-- The block and the prepares that these bind a proposer to: those of one that makes a claim of the
highest round, or none where nothing is claimed. -/
inductive Binds (chosen : List RoundChange) : Option Block → List Prepare → Prop
  | free (h : ∀ rc ∈ chosen, rc.claim = none) : Binds chosen none []
  | bound {rc : RoundChange} {c : Claim} {b : Block} (hrc : rc ∈ chosen) (hclaim : rc.claim = some c)
      (htops : Tops chosen c) (hblock : rc.block = some b) (hprepares : rc.prepares ≠ []) :
      Binds chosen (some b) rc.prepares

variable {chosen : List RoundChange} {c d : Claim}

theorem tops_iff : Tops chosen c ↔ c ∈ chosen.filterMap RoundChange.claim ∧
    ∀ d ∈ chosen.filterMap RoundChange.claim, d.round ≤ c.round := by
  simp only [List.mem_filterMap]
  refine ⟨fun h => ⟨h.claimed, ?_⟩, fun h => ⟨h.1, fun rc hrc d hd => h.2 d ⟨rc, hrc, hd⟩⟩⟩
  rintro d ⟨rc, hrc, hd⟩
  exact h.highest rc hrc d hd

theorem Tops.round_eq (hc : Tops chosen c) (hd : Tops chosen d) : d.round = c.round := by
  obtain ⟨rc, hrc, hclaim⟩ := hc.claimed
  obtain ⟨rc', hrc', hclaim'⟩ := hd.claimed
  exact UInt32.le_antisymm (hc.highest rc' hrc' d hclaim') (hd.highest rc hrc c hclaim)

theorem not_disputed_of_isHighest
    (hc : Claim.IsHighest (chosen.filterMap RoundChange.claim) c) : ¬ Disputed chosen := by
  have htops : Tops chosen c := tops_iff.2 ⟨hc.1, fun d hd => (hc.2 d hd).1⟩
  have hsame : ∀ d, Tops chosen d → d = c := fun d hd =>
    (hc.2 d (tops_iff.1 hd).1).2 (htops.round_eq hd)
  rintro ⟨d, e, hd, he, hne⟩
  rw [hsame d hd, hsame e he] at hne
  exact hne rfl

theorem not_disputed_of_no_claims (h : chosen.filterMap RoundChange.claim = []) :
    ¬ Disputed chosen := by
  rintro ⟨c, -, hc, -⟩
  have hm := (tops_iff.1 hc).1
  rw [h] at hm
  cases hm

theorem assemble?_error {e : Error} (h : assemble? S round rcs q = .error e) :
    ∃ c d, Tops (firsts S round rcs) c ∧ Tops (firsts S round rcs) d ∧ c.digest ≠ d.digest ∧
      e = .conflictingClaims c.round c.digest d.digest := by
  have hhighest := assemble?_eq_error h
  rw [contributing_eq_firsts] at hhighest
  obtain ⟨c, hc, hle, d, hd, hround, hdigest, he⟩ := Claim.highest?_eq_error hhighest
  exact ⟨c, d, tops_iff.2 ⟨hc, hle⟩, tops_iff.2 ⟨hd, hround ▸ hle⟩, hdigest.symm, he⟩

theorem assemble?_some {j : Justification} (h : assemble? S round rcs q = .ok (some j)) :
    q ≤ (firsts S round rcs).length ∧ ¬ Disputed (firsts S round rcs) ∧ j.round = round ∧
      j.roundChanges = (firsts S round rcs).map RoundChange.signed ∧
        Binds (firsts S round rcs) j.block j.prepares := by
  have hround := round_of_assemble h
  rw [← assemble?_firsts] at h
  obtain ⟨hq, hrcs, ⟨hclaims, hblock, hprepares⟩ | ⟨c, hc, rc, hrc, hclaim, hblock, hprepares⟩⟩ :=
    assemble?_eq_ok_some h (contributing_firsts rcs)
  · refine ⟨hq, not_disputed_of_no_claims hclaims, hround, hrcs, ?_⟩
    rw [hblock, hprepares]
    exact .free (List.filterMap_eq_nil_iff.1 hclaims)
  · obtain ⟨b, hb⟩ := RoundChange.exists_block_of_claim hclaim
    have hne : rc.prepares ≠ [] := by
      intro hempty
      have hm := rc.matched
      rw [RoundChange.claim] at hclaim
      simp [hclaim, hb, hempty, RoundChange.mismatch?] at hm
    refine ⟨hq, not_disputed_of_isHighest hc, hround, hrcs, ?_⟩
    rw [hblock, hprepares, hb]
    exact .bound hrc hclaim (tops_iff.2 ⟨hc.1, fun d hd => (hc.2 d hd).1⟩) hb hne

theorem exists_eq_error_iff : (∃ e, assemble? S round rcs q = .error e) ↔
    q ≤ (firsts S round rcs).length ∧ Disputed (firsts S round rcs) := by
  constructor
  · rintro ⟨e, h⟩
    obtain ⟨c, d, hc, hd, hne, -⟩ := assemble?_error h
    refine ⟨Nat.le_of_not_lt fun hlt => ?_, c, d, hc, hd, hne⟩
    rw [assemble?_eq_ok_none_iff.2 hlt] at h
    cases h
  · rintro ⟨hq, hdisputed⟩
    match h : assemble? S round rcs q with
    | .error e => exact ⟨e, rfl⟩
    | .ok none => exact absurd (assemble?_eq_ok_none_iff.1 h) (Nat.not_lt.2 hq)
    | .ok (some j) => exact absurd hdisputed (assemble?_some h).2.1

theorem exists_eq_some_iff : (∃ j, assemble? S round rcs q = .ok (some j)) ↔
    q ≤ (firsts S round rcs).length ∧ ¬ Disputed (firsts S round rcs) := by
  constructor
  · rintro ⟨j, h⟩
    obtain ⟨hq, hagreed, -⟩ := assemble?_some h
    exact ⟨hq, hagreed⟩
  · rintro ⟨hq, hagreed⟩
    match h : assemble? S round rcs q with
    | .error e => exact absurd (exists_eq_error_iff.1 ⟨e, h⟩).2 hagreed
    | .ok none => exact absurd (assemble?_eq_ok_none_iff.1 h) (Nat.not_lt.2 hq)
    | .ok (some j) => exact ⟨j, rfl⟩

theorem Binds.free_iff {block : Option Block} {prepares : List Prepare}
    (h : Binds chosen block prepares) :
    (block = none ↔ ∀ rc ∈ chosen, rc.claim = none) ∧
      (prepares = [] ↔ ∀ rc ∈ chosen, rc.claim = none) := by
  cases h with
  | free hnone => simpa using hnone
  | @bound rc c b hrc hclaim htops hblock hprepares =>
    have hclaimed : ¬ ∀ rc ∈ chosen, rc.claim = none := by
      intro hnone
      rw [hnone rc hrc] at hclaim
      cases hclaim
    simp [hclaimed, hprepares]

/-- The three outcomes for any round changes and any quorum, each with when it comes about. Besides
the first round change of each author to the round nothing has a part in it. -/
theorem assemble_decides (S : Scheme) (round : RoundId) (rcs : List RoundChange) (q : Nat) :
    let chosen := firsts S round rcs
    (assemble? S round rcs q = .ok none ↔ chosen.length < q) ∧
    ((∃ e, assemble? S round rcs q = .error e) ↔ q ≤ chosen.length ∧ Disputed chosen) ∧
    (∀ e, assemble? S round rcs q = .error e →
      ∃ c d, Tops chosen c ∧ Tops chosen d ∧ c.digest ≠ d.digest ∧
        e = .conflictingClaims c.round c.digest d.digest) ∧
    ((∃ j, assemble? S round rcs q = .ok (some j)) ↔ q ≤ chosen.length ∧ ¬ Disputed chosen) ∧
    (∀ j, assemble? S round rcs q = .ok (some j) →
      j.round = round ∧ j.roundChanges = chosen.map RoundChange.signed ∧
        Binds chosen j.block j.prepares ∧
        (j.block = none ↔ ∀ rc ∈ chosen, rc.claim = none) ∧
        (j.prepares = [] ↔ ∀ rc ∈ chosen, rc.claim = none)) ∧
    assemble? S round chosen q = assemble? S round rcs q := by
  refine ⟨assemble?_eq_ok_none_iff, exists_eq_error_iff, fun e => assemble?_error,
    exists_eq_some_iff, fun j hj => ?_, assemble?_firsts rcs q⟩
  obtain ⟨-, -, hround, hrcs, hbinds⟩ := assemble?_some hj
  exact ⟨hround, hrcs, hbinds, hbinds.free_iff⟩

/-- A round change by `k` that claims this round for a block with these extra bytes. -/
def claiming (k : Nat) (number claimed : UInt32) (extra : Bytes) : RoundChange where
  signed := .plain k ⟨⟨1, number⟩, some ⟨Scheme.plain.digest (.plain 1 extra), claimed⟩⟩
  block := some (.plain 1 extra)
  prepares := [.plain k ⟨⟨1, claimed⟩, Scheme.plain.digest (.plain 1 extra)⟩]
  matched := by simp [RoundChange.mismatch?, RoundChange.strayPrepare?, Signed.plain]

/-- A second round change of one author claims more than the others do, and so does one to another
round; the two that claim round 0 do not name one block. -/
theorem assemble_decides_mixed :
    let rcs := [claiming 1 3 0 [7], claiming 2 4 2 [9], claiming 2 3 1 [], claiming 1 3 2 [9],
      claiming 3 3 0 [8]]
    ∃ j, assemble? .plain ⟨1, 3⟩ rcs 3 = .ok (some j) ∧ j.block = some (.plain 1 []) ∧
      Binds (firsts .plain ⟨1, 3⟩ rcs) j.block j.prepares ∧
      assemble? .plain ⟨1, 3⟩ (firsts .plain ⟨1, 3⟩ rcs) 3 = .ok (some j) := by
  intro rcs
  obtain ⟨-, -, -, -, hsome, hsame⟩ := assemble_decides .plain ⟨1, 3⟩ rcs 3
  have hblock : (assemble? .plain ⟨1, 3⟩ rcs 3).map (Option.map Justification.block) =
      .ok (some (some (.plain 1 []))) := by decide +kernel
  match h : assemble? .plain ⟨1, 3⟩ rcs 3 with
  | .error _ => simp [h, Except.map] at hblock
  | .ok none => simp [h, Except.map] at hblock
  | .ok (some j) =>
    rw [h] at hblock
    injection hblock with hblock
    injection hblock with hblock
    exact ⟨j, rfl, hblock, (hsome j h).2.2.1, hsame.trans h⟩

end Justification

end BlockAgreement
