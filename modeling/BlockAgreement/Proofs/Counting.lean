import BlockAgreement.Proofs.Run
import BlockAgreement.Proofs.Tally

/-! A tally under any calls, in any order and with any arguments. Early votes are checked for their
author and their round only, and once more when the proposal is there, so that at all times those
that are held count; a tally that asks for no fewer votes than a quorum proves with them that its
block is prepared. With a lower mark the votes count as well, but they prove nothing. -/

namespace BlockAgreement.Tally

inductive Call where
  | propose (p : Proposal)
  | prepare (m : Prepare)
  | commit (m : Commit)

variable (S : Scheme) (C : Committee)

/-- A second proposal and a vote that is refused leave the tally as it is. -/
def call (t : Tally) : Call → Tally
  | .propose p => (t.setProposal? S C p).getD t
  | .prepare m => (t.addPrepare S C m).toOption.getD t
  | .commit m => (t.addCommit S C m).toOption.getD t

def after (t : Tally) (calls : List Call) : Tally := calls.foldl (call S C) t

variable {S C} {t : Tally}

/-! ### One call -/

theorem getD_toOption_cases {ε α : Type} (x : Except ε α) (a : α) :
    x.toOption.getD a = a ∨ x = .ok (x.toOption.getD a) := by
  cases x with
  | error => exact .inl rfl
  | ok => exact .inr rfl

theorem call_cases (t : Tally) (c : Call) : t.call S C c = t ∨
    (∃ p, t.setProposal? S C p = some (t.call S C c)) ∨
    (∃ m, t.addPrepare S C m = .ok (t.call S C c)) ∨
    ∃ m, t.addCommit S C m = .ok (t.call S C c) := by
  cases c with
  | propose p =>
    cases h : t.setProposal? S C p with
    | none => exact .inl (by rw [call, h, Option.getD_none])
    | some u => exact .inr (.inl ⟨p, by rw [call, h, Option.getD_some]⟩)
  | prepare m =>
    exact (getD_toOption_cases (t.addPrepare S C m) t).imp_right fun h => .inr (.inl ⟨m, h⟩)
  | commit m =>
    exact (getD_toOption_cases (t.addCommit S C m) t).imp_right fun h => .inr (.inr ⟨m, h⟩)

theorem Sifted.call (ht : t.Sifted S C) (c : Call) : (t.call S C c).Sifted S C := by
  rcases call_cases t c with h | ⟨p, h⟩ | ⟨m, h⟩ | ⟨m, h⟩
  · rwa [h]
  · exact ht.setProposal? h
  · exact ht.addPrepare h
  · exact ht.addCommit h

theorem call_extends (t : Tally) (c : Call) :
    (t.call S C c).Extends t ∧ (t.call S C c).quorum = t.quorum := by
  rcases call_cases t c with h | ⟨p, h⟩ | ⟨m, h⟩ | ⟨m, h⟩
  · rw [h]
    exact ⟨.refl t, rfl⟩
  · exact ⟨(setProposal?_extends h).2.1, (setProposal?_keeps h).2.1⟩
  · exact ⟨(addPrepare_extends h).1, quorum_of_addPrepare h⟩
  · exact ⟨(addCommit_extends h).1, quorum_of_addCommit h⟩

/-! ### Any calls -/

theorem Sifted.after (ht : t.Sifted S C) (calls : List Call) : (t.after S C calls).Sifted S C := by
  induction calls generalizing t with
  | nil => exact ht
  | cons c calls ih => exact ih (ht.call c)

theorem after_extends (t : Tally) (calls : List Call) :
    (t.after S C calls).Extends t ∧ (t.after S C calls).quorum = t.quorum := by
  induction calls generalizing t with
  | nil => exact ⟨.refl t, rfl⟩
  | cons c calls ih =>
    obtain ⟨hstep, hquorum⟩ := call_extends (S := S) (C := C) t c
    obtain ⟨hrest, hquorum'⟩ := ih (t.call S C c)
    exact ⟨hrest.trans hstep, hquorum'.trans hquorum⟩

/-- After any calls, each vote that is held is that of the member under whom it stands, for the
round and for the block of the proposal, if there is one. From then on the proposal stays, and that
the block is prepared or decided. A tally that asks for as many votes as a quorum, or for more,
hands on a lock only with the proof of it. -/
theorem after_calls (S : Scheme) (C : Committee) (round : RoundId) (mark : Nat)
    (calls : List Call) :
    let t := (new round mark).after S C calls
    (∀ e ∈ t.prepares.entries,
      e.2.author S = .ok e.1 ∧ e.1 ∈ C.validators ∧ e.2.statement.round = round) ∧
    (∀ e ∈ t.commits.entries,
      e.2.author S = .ok e.1 ∧ e.1 ∈ C.validators ∧ e.2.statement.round = round) ∧
    (∀ p, t.proposal = some p →
      (∀ e ∈ t.prepares.entries, e.2.statement.digest = p.digest) ∧
      ∀ e ∈ t.commits.entries, e.2.statement.digest = p.digest) ∧
    (∀ further, (∀ p, t.proposal = some p → (t.after S C further).proposal = some p) ∧
      (t.isPrepared = true → (t.after S C further).isPrepared = true) ∧
      (t.isCommitted = true → (t.after S C further).isCommitted = true)) ∧
    (C.quorum ≤ mark → ∀ l, t.lock? = some l →
      C.checkPrepares S l.prepares round l.digest = .ok ()) := by
  intro t
  have ht : t.Sifted S C := (sifted_new round mark).after calls
  obtain ⟨hx, hquorum⟩ := after_extends (S := S) (C := C) (new round mark) calls
  have hround : t.round = round := hx.round
  refine ⟨fun e he => ?_, fun e he => ?_,
    fun p hp => ⟨ht.preparesFor p hp, fun e he => (ht.commitsFor p hp e he).1⟩, fun further => ?_,
    fun hmark l hl => ?_⟩
  · rw [← hround]
    exact Committee.voter_eq_ok_iff_mem.1 (ht.prepares e he)
  · rw [← hround]
    exact Committee.voter_eq_ok_iff_mem.1 (ht.commits e he)
  · obtain ⟨hstays, -⟩ := after_extends (S := S) (C := C) t further
    exact ⟨hstays.proposal, hstays.isPrepared, hstays.isCommitted⟩
  · rw [← hround]
    exact ht.checkPrepares_lock? (Nat.le_trans hmark (Nat.le_of_eq hquorum.symm)) hl

/-- The second of four validators proposes in round 0. -/
def firstProposal : Proposal where
  signed := .plain 2 ⟨⟨1, 0⟩, Scheme.plain.digest (.plain 1 [])⟩
  block := .plain 1 []
  roundChanges := []
  prepares := []
  roundChanges_eq_nil_iff := by decide

/-- A prepare of round 0 for the block of the first proposal. -/
def matchingPrepare (k : Nat) : Prepare := .plain k ⟨⟨1, 0⟩, Scheme.plain.digest (.plain 1 [])⟩

/-- The early prepare of the third validator is for another block; it goes with the proposal, and
then the validator may send one that counts. -/
theorem after_calls_early :
    let stray : Prepare := .plain 3 ⟨⟨1, 0⟩, Scheme.plain.digest (.plain 2 [])⟩
    let t := (new ⟨1, 0⟩ 3).after .plain (Committee.plain 3) [.prepare (matchingPrepare 1),
      .prepare stray, .propose firstProposal, .prepare (matchingPrepare 3),
      .prepare (matchingPrepare 4)]
    let l : Lock := ⟨.plain 1 [], firstProposal.digest, [1, 3, 4].map matchingPrepare, 0⟩
    (Committee.plain 3).quorum ≤ 3 ∧ t.lock? = some l ∧
      (Committee.plain 3).checkPrepares .plain l.prepares ⟨1, 0⟩ l.digest = .ok () := by
  intro stray t l
  have hquorum : (Committee.plain 3).quorum ≤ 3 := by decide
  have hlock : t.lock? = some l := by decide +kernel
  obtain ⟨-, -, -, -, hproved⟩ := after_calls .plain (Committee.plain 3) ⟨1, 0⟩ 3 _
  exact ⟨hquorum, hlock, hproved hquorum l hlock⟩

/-- With a lower mark one prepare makes a lock, and the lock is not proved. -/
theorem after_calls_marked_low :
    let t := (new ⟨1, 0⟩ 1).after .plain (Committee.plain 3) [.propose firstProposal,
      .prepare (matchingPrepare 1)]
    ∃ l, t.lock? = some l ∧ (Committee.plain 3).checkPrepares .plain l.prepares ⟨1, 0⟩ l.digest =
      .error (.invalid (.fewPrepares 1 3)) :=
  ⟨⟨.plain 1 [], firstProposal.digest, [matchingPrepare 1], 0⟩, by decide +kernel,
    by decide +kernel⟩

end BlockAgreement.Tally
