import BlockAgreement.Validity.Votes
import Mathlib.Data.List.Nodup
import Mathlib.Tactic.ByContra

/-! What the checks of votes accept, said without their order: a vote counts when a member sent it
for the round and the block, and many votes prove something when they are from a quorum of
different members. -/

namespace BlockAgreement

section Except

variable {ε α β μ : Type}

theorem bind_eq_ok_iff {x : Except ε α} {f : α → Except ε β} {b : β} :
    (x >>= f) = .ok b ↔ ∃ a, x = .ok a ∧ f a = .ok b := by
  cases x with
  | error e => exact ⟨nofun, fun ⟨_, h, _⟩ => nomatch h⟩
  | ok a => exact ⟨fun h => ⟨a, rfl, h⟩, fun ⟨_, rfl, h⟩ => h⟩

theorem map_eq_ok_iff {x : Except ε α} {f : α → β} {b : β} :
    f <$> x = .ok b ↔ ∃ a, x = .ok a ∧ f a = b := by
  cases x with
  | error e => exact ⟨nofun, fun ⟨_, h, _⟩ => nomatch h⟩
  | ok a => exact ⟨fun h => ⟨a, rfl, Except.ok.inj h⟩, fun ⟨_, rfl, h⟩ => h ▸ rfl⟩

theorem bind_eq_error_iff {x : Except ε α} {f : α → Except ε β} {e : ε} :
    (x >>= f) = .error e ↔ x = .error e ∨ ∃ a, x = .ok a ∧ f a = .error e := by
  cases x with
  | error d => exact ⟨fun h => .inl (Except.error.inj h ▸ rfl), fun h =>
      h.elim (fun h => Except.error.inj h ▸ rfl) fun ⟨_, h, _⟩ => nomatch h⟩
  | ok a => exact ⟨fun h => .inr ⟨a, rfl, h⟩, fun h => h.elim nofun fun ⟨_, rfl, h⟩ => h⟩

/-- A test that fails with `e`, before the rest. -/
theorem guard_eq_ok_iff {c : Prop} [Decidable c] {e : ε} {f : PUnit → Except ε β} {b : β} :
    (if c then throw e >>= f else f ⟨⟩) = .ok b ↔ ¬ c ∧ f ⟨⟩ = .ok b := by
  by_cases hc : c
  · rw [if_pos hc]
    exact ⟨nofun, fun h => absurd hc h.1⟩
  · rw [if_neg hc, and_iff_right hc]

theorem mapError_eq_ok_iff {δ : Type} {x : Except ε α} {f : ε → δ} {a : α} :
    x.mapError f = .ok a ↔ x = .ok a := by
  cases x <;> simp [Except.mapError]

/-- A list is gone through by a check that notes the author of each entry and refuses an author
noted before. What comes out are the authors, the last one first. -/
theorem foldlM_admit_eq_ok_iff {f : List α → μ → Except ε (List α)} {P : μ → Prop}
    {author : μ → Except ε α}
    (hf : ∀ as m bs, f as m = .ok bs ↔ P m ∧ ∃ a, author m = .ok a ∧ a ∉ as ∧ bs = a :: as)
    (ms : List μ) (as bs : List α) :
    ms.foldlM f as = .ok bs ↔ (∀ m ∈ ms, P m) ∧ ∃ authors : List α, ms.map author = authors.map .ok ∧
      authors.Nodup ∧ (∀ a ∈ authors, a ∉ as) ∧ bs = authors.reverse ++ as := by
  induction ms generalizing as with
  | nil =>
    refine ⟨fun h => ?_, ?_⟩
    · cases h
      exact ⟨by simp, [], by simp⟩
    · rintro ⟨-, authors, hm, -, -, rfl⟩
      rw [List.map_eq_nil_iff.1 hm.symm]
      rfl
  | cons m ms ih =>
    rw [List.foldlM_cons, bind_eq_ok_iff]
    constructor
    · rintro ⟨cs, hc, hb⟩
      obtain ⟨hp, a, ha, hn, rfl⟩ := (hf _ _ _).1 hc
      obtain ⟨hps, authors, hm, hd, ht, rfl⟩ := (ih _).1 hb
      refine ⟨List.forall_mem_cons.2 ⟨hp, hps⟩, a :: authors, by simp [ha, hm], ?_, ?_, by simp⟩
      · exact List.nodup_cons.2 ⟨fun h => ht a h (List.mem_cons_self ..), hd⟩
      · exact List.forall_mem_cons.2 ⟨hn, fun b hb h => ht b hb (List.mem_cons_of_mem _ h)⟩
    · rintro ⟨hp, authors, hm, hd, hn, rfl⟩
      obtain _ | ⟨a, authors⟩ := authors
      · simp at hm
      obtain ⟨ha, hm⟩ := List.cons.inj hm
      obtain ⟨hp, hps⟩ := List.forall_mem_cons.1 hp
      obtain ⟨hna, hd⟩ := List.nodup_cons.1 hd
      obtain ⟨hn, hns⟩ := List.forall_mem_cons.1 hn
      refine ⟨a :: as, (hf _ _ _).2 ⟨hp, a, ha, hn, rfl⟩, (ih _).2 ⟨hps, authors, hm, hd, ?_, ?_⟩⟩
      · intro b hb h
        obtain rfl | h := List.mem_cons.1 h
        · exact hna hb
        · exact hns b hb h
      · simp

end Except

theorem Scheme.signer_eq_ok_iff {S : Scheme} {h : Digest} {g : Signature} {a : Address} :
    S.signer h g = .ok a ↔ S.recover h g = .ok a :=
  mapError_eq_ok_iff

namespace Committee

variable {S : Scheme} {C : Committee} {round : RoundId} {digest : Digest} {a : Address}

theorem quorum_pos (C : Committee) : 0 < C.quorum := by
  have hlength := List.length_pos_iff.2 C.validators_ne_nil
  unfold quorum BlockAgreement.quorum BlockAgreement.faultTolerance
  omega

theorem contains_iff_mem : C.contains a = true ↔ a ∈ C.validators :=
  List.contains_iff_mem

section Statements

variable {P : Type} [Statement P] {m : Signed P}

theorem author_eq_ok_iff : C.author S m = .ok a ↔ m.author S = .ok a ∧ C.contains a = true := by
  rw [author, bind_eq_ok_iff]
  constructor
  · rintro ⟨b, hb, h⟩
    split at h
    · next hc =>
      cases h
      exact ⟨hb, hc⟩
    · cases h
  · rintro ⟨ha, hc⟩
    exact ⟨a, ha, if_pos hc⟩

theorem voter_eq_ok_iff :
    C.voter S round m = .ok a ↔ C.author S m = .ok a ∧ m.round = round := by
  rw [voter, bind_eq_ok_iff]
  constructor
  · rintro ⟨b, hb, h⟩
    split at h
    · next hr =>
      cases h
      exact ⟨hb, hr⟩
    · cases h
  · rintro ⟨ha, hr⟩
    exact ⟨a, ha, if_pos hr⟩

/-- A vote of a round is one that a member sent for it. -/
theorem voter_eq_ok_iff_mem : C.voter S round m = .ok a ↔
    m.author S = .ok a ∧ a ∈ C.validators ∧ m.round = round := by
  rw [voter_eq_ok_iff, author_eq_ok_iff, contains_iff_mem, and_assoc]

variable (S C) in
/-- The statements come from different members, and from a quorum of them. -/
def Quorate (ms : List (Signed P)) : Prop :=
  ∃ authors : List Address,
    ms.map (C.author S) = authors.map .ok ∧ authors.Nodup ∧ C.quorum ≤ authors.length

theorem Quorate.ne_nil {ms : List (Signed P)} (h : C.Quorate S ms) : ms ≠ [] := by
  obtain ⟨authors, hm, -, hq⟩ := h
  rintro rfl
  rw [List.map_nil, eq_comm, List.map_eq_nil_iff] at hm
  rw [hm] at hq
  exact absurd (Nat.lt_of_lt_of_le C.quorum_pos hq) (Nat.lt_irrefl 0)

/-- Going through a list with a check that refuses what `P` does not hold of and a second statement
of one member, and then counting the members. -/
theorem exists_admitted_iff (f : List Address → Signed P → Except Error (List Address))
    (good : Signed P → Prop)
    (hf : ∀ as m bs, f as m = .ok bs ↔ good m ∧ ∃ a, C.author S m = .ok a ∧ a ∉ as ∧ bs = a :: as)
    (ms : List (Signed P)) :
    (∃ bs, ms.foldlM f [] = .ok bs ∧ ¬ bs.length < C.quorum) ↔
      (∀ m ∈ ms, good m) ∧ C.Quorate S ms := by
  simp only [foldlM_admit_eq_ok_iff hf, Quorate, Nat.not_lt]
  constructor
  · rintro ⟨bs, ⟨hms, authors, hm, hd, -, rfl⟩, hq⟩
    exact ⟨hms, authors, hm, hd, by simpa using hq⟩
  · rintro ⟨hms, authors, hm, hd, hq⟩
    exact ⟨authors.reverse, ⟨hms, authors, hm, hd, by simp, by simp⟩, by simpa using hq⟩

end Statements

theorem checkPrepare_eq_ok_iff {m : Prepare} :
    C.checkPrepare S round digest m = .ok a ↔
      C.voter S round m = .ok a ∧ m.statement.digest = digest := by
  rw [checkPrepare, bind_eq_ok_iff]
  constructor
  · rintro ⟨b, hb, h⟩
    split at h
    · next hd =>
      cases h
      exact ⟨hb, hd⟩
    · cases h
  · rintro ⟨ha, hd⟩
    exact ⟨a, ha, if_pos hd⟩

theorem checkCommit_eq_ok_iff {m : Commit} :
    C.checkCommit S round digest m = .ok a ↔ C.voter S round m = .ok a ∧
      m.statement.digest = digest ∧ S.recover digest m.statement.blockSeal = .ok a := by
  simp only [checkCommit, bind_eq_ok_iff, guard_eq_ok_iff, not_not, Scheme.signer_eq_ok_iff]
  constructor
  · rintro ⟨b, hb, hd, c, hc, h⟩
    split at h
    · next hcb =>
      cases h
      exact ⟨hb, hd, hcb ▸ hc⟩
    · cases h
  · rintro ⟨ha, hd, hc⟩
    exact ⟨a, ha, hd, a, hc, if_pos rfl⟩

theorem admitPrepare_eq_ok_iff {as bs : List Address} {m : Prepare} :
    C.admitPrepare S round digest as m = .ok bs ↔ m.statement = ⟨round, digest⟩ ∧
      ∃ a, C.author S m = .ok a ∧ a ∉ as ∧ bs = a :: as := by
  obtain ⟨⟨r, d⟩, g⟩ := m
  simp only [admitPrepare, guard_eq_ok_iff, bind_eq_ok_iff, not_not, List.contains_iff_mem,
    PrepareStatement.mk.injEq, and_assoc]
  refine and_congr_right fun _ => and_congr_right fun _ => exists_congr fun a => ?_
  simp [pure, Except.pure, eq_comm]

/-- Prepares are a proof exactly when all are for the round and the block, and they come from a
quorum of different members. -/
theorem checkPrepares_eq_ok_iff {ms : List Prepare} :
    C.checkPrepares S ms round digest = .ok () ↔
      (∀ m ∈ ms, m.statement = ⟨round, digest⟩) ∧ C.Quorate S ms := by
  refine Iff.trans ?_ (exists_admitted_iff (C.admitPrepare S round digest)
    (fun m => m.statement = ⟨round, digest⟩) (fun _ _ _ => admitPrepare_eq_ok_iff) ms)
  rw [checkPrepares, bind_eq_ok_iff]
  refine exists_congr fun bs => and_congr_right fun _ => ?_
  by_cases h : bs.length < C.quorum
  · simp [h, throw, throwThe, MonadExceptOf.throw]
  · simp [h, pure, Except.pure]

end Committee

end BlockAgreement
