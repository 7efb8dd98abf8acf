import BlockAgreement.Proofs.Evidence

/-! A height that was only just started. As long as nothing comes from others there is one commit at
most, the node's own, and so only the sole validator decides a height by itself. -/

namespace BlockAgreement

/-- Blocks are made, but nobody says anything. -/
def Outside.silence : Outside where
  prepare _ := False
  commit _ := False
  roundChange _ := False
  block _ := True
  lastExpires := True

variable {E : Setup} {C : Committee}

namespace Round

variable {own : Proposal → Prop} {r s : Round} {p : Proposal} {es : List Effect} {t : Tally}

/-- No commit was counted but the node's own. -/
def Alone (r : Round) : Prop := r.tally.commits.size ≤ if r.commitSent then 1 else 0

theorem Answers.commits_le (h : Answers E C r p es t) :
    t.commits.size ≤ r.tally.commits.size := by
  have hset : ∀ {t}, r.tally.setProposal? E.scheme C p = some t →
      t.commits.size ≤ r.tally.commits.size := by
    intro t ht
    obtain ⟨-, rfl⟩ := Tally.setProposal?_eq_some ht
    exact Table.size_filter_le ..
  cases h with
  | silent ht => exact hset ht
  | prepare ht _ hu =>
    have hle := hset ht
    rcases hu with rfl | hu
    · exact hle
    · obtain ⟨a, -, -, rfl | ⟨-, rfl⟩⟩ := Tally.addPrepare_cases hu <;> exact hle

theorem Move.alone (h : Move E C .silence own r es s) (hr : r.Alone) : s.Alone := by
  cases h with
  | prepare hm | commit hm => exact hm.elim
  | take _ _ h | propose _ _ h => exact Nat.le_trans h.commits_le hr
  | @confirm t p m _ hs _ _ ht =>
    have hnone : r.tally.commits.size ≤ 0 := by simpa [Alone, hs] using hr
    show t.commits.size ≤ 1
    rcases ht with rfl | ht
    · exact Nat.le_succ_of_le hnone
    · obtain ⟨a, -, -, rfl | ⟨-, rfl⟩⟩ := Tally.addCommit_cases ht
      · exact Nat.le_succ_of_le hnone
      · exact Nat.le_trans (Table.size_insert_le ..) (Nat.succ_le_succ hnone)
  | deliver => exact hr

end Round

namespace Instance

variable {i j : Instance} {es : List Effect}

theorem Move.alone (h : Move E .silence i es j) (hi : i.round.Alone) : j.round.Alone := by
  cases h with
  | round h => exact h.alone hi
  | note | ask | mark | hold | gather => exact hi
  | enter => exact Nat.le_refl 0

/-- One who is no member starts the timer and waits. -/
theorem start_of_outsider (ext : Collaborators) (h : C.contains E.signer.address = false) :
    start E ext (Instance.new E C) =
      ⟨.ok (), Instance.new E C, [.startTimer ⟨C.height, 0⟩ (E.config.timeout 0)]⟩ := by
  have hpropose : proposeIfProposer E ext none (Instance.new E C) =
      ⟨.ok (), Instance.new E C, []⟩ := by
    have hwatches : (Instance.new E C).round.participates = false := h
    rw [proposeIfProposer, Handler.get_bind, hwatches]
    rfl
  rw [start, Handler.get_bind, Handler.ask_bind, Handler.absorb, hpropose]
  rfl

/-- Where more than one has to agree nothing is decided by the start alone. -/
theorem start_undecided (ext : Collaborators)
    (h : C.contains E.signer.address = true → 1 < C.quorum) :
    (start E ext (Instance.new E C)).state.isCommitted = false := by
  cases hmember : C.contains E.signer.address with
  | false =>
    rw [start_of_outsider ext hmember]
    rfl
  | true =>
    have hnew : ∀ {A}, Settled E C A (Instance.new E C) := ⟨formed_new, fun _ => nofun⟩
    obtain ⟨hsilent, -⟩ := start_does (A := .silence) ext (fun _ _ _ => trivial) hnew
    obtain ⟨hany, -⟩ :=
      start_does (A := .any (fun _ => True) True) ext (fun _ _ _ => trivial) hnew
    have halone := (chain_of_stay hsilent).preserves_state (P := fun j => j.round.Alone)
      (fun _ _ _ hi hm => hm.alone hi) (Nat.le_refl 0)
    have hquorum := (backed_of_chain (chain_of_stay hany) fun e _ =>
      Outside.admitsOwn_any e).1.tally.quorum
    have hlt := h hmember
    rw [Bool.eq_false_iff]
    intro hcommitted
    have hle := (Tally.isCommitted_iff.1 hcommitted).2
    rw [hquorum] at hle
    have hone : (if (start E ext (Instance.new E C)).state.round.commitSent then 1 else 0) ≤ 1 := by
      split <;> decide
    unfold Round.Alone at halone
    omega

end Instance

end BlockAgreement
