import BlockAgreement.Proofs.Voting

/-! A commit locks the node. From then on its lock is of that round or a later one, and as the node
takes its lock into every round change, the round changes claim what was committed or something
prepared later. -/

namespace BlockAgreement

open Message

/-- The claim is of the round of the commit and its block, or of a later round. -/
def Claim.Covers (c : Claim) (m : Commit) : Prop :=
  m.round.number ≤ c.round ∧ (c.round = m.round.number → c.digest = m.statement.digest)

namespace Instance

variable {E : Setup} {C : Committee} {A : Outside} {i j : Instance} {es log : List Effect}

structure Locked (i : Instance) (log : List Effect) : Prop where
  le : ∀ l, i.lock = some l → l.round ≤ i.round.id.number
  current : ∀ l, i.lock = some l → l.round = i.round.id.number → i.round.id.number ≠ lastNumber →
    ∃ p, i.round.tally.proposal = some p ∧ p.digest = l.digest
  covered : ∀ m, .commit m ∈ log.filterMap Effect.message? →
    m.round.number < i.round.id.number → ∃ l, i.lock = some l ∧ l.claim.Covers m
  announced : ∀ m rc, .commit m ∈ log.filterMap Effect.message? →
    .roundChange rc ∈ log.filterMap Effect.message? → m.round.number < rc.round.number →
      ∃ c, rc.claim = some c ∧ c.Covers m

theorem Locked.silent (h : Locked i log) (hround : j.round = i.round) (hlock : j.lock = i.lock)
    (hes : ∀ e ∈ es, e.Silent) : Locked j (log ++ es) := by
  constructor <;> simp only [hround, hlock, List.filterMap_append, filterMap_silent hes,
    List.append_nil]
  · exact h.le
  · exact h.current
  · exact h.covered
  · exact h.announced

theorem Locked.round {r : Round} (h : Locked i log) (hv : Voted A i log)
    (hr : r.Follows i.round) (hes : Round.Sends i.round r es) :
    Locked { i with round := r } (log ++ es) := by
  have hid : r.id = i.round.id := hr.tally.round
  have hnone : ∀ rc, .roundChange rc ∉ es.filterMap Effect.message? := fun rc hrc =>
    absurd (hes.after (.roundChange rc) ⟨nofun, nofun⟩ _ hrc).place (Nat.lt_irrefl _)
  constructor <;> simp only [hid, List.filterMap_append, List.mem_append]
  · exact h.le
  · intro l hl hlr hne
    obtain ⟨p, hp, hd⟩ := h.current l hl hlr hne
    exact ⟨p, hr.tally.proposal p hp, hd⟩
  · rintro m (hm | hm) hlt
    · exact h.covered m hm hlt
    · have := congrArg RoundId.number (hes.round _ hm)
      exact absurd (this ▸ hlt) (UInt32.lt_irrefl _)
  · rintro m rc (hm | hm) (hrc | hrc) hlt
    · exact h.announced m rc hm hrc hlt
    · exact absurd hrc (hnone rc)
    · have hm' : m.round.number = i.round.id.number := congrArg RoundId.number (hes.round _ hm)
      rw [hm'] at hlt
      rcases hv.sent _ hrc with h | ⟨h, -⟩
      · exact absurd (UInt32.lt_trans h hlt) (UInt32.lt_irrefl _)
      · exact absurd (h ▸ hlt) (UInt32.lt_irrefl _)
    · exact absurd hrc (hnone rc)

theorem Locked.note (h : Locked i log) (hp : i.round.isPrepared = true) :
    Locked { i with lock := i.round.tally.lock? } log := by
  obtain ⟨l, p, hl, hr, hproposal, hd⟩ := Tally.exists_lock hp
  have hr : l.round = i.round.id.number := hr
  refine ⟨fun k hk => ?_, fun k hk _ _ => ?_, fun m _ hlt => ⟨l, hl, ?_, fun he => ?_⟩, h.announced⟩
  · cases hl.symm.trans hk
    exact hr ▸ UInt32.le_refl _
  · cases hl.symm.trans hk
    exact ⟨p, hproposal, hd.symm⟩
  · exact UInt32.le_of_lt (hr.symm ▸ hlt : m.round.number < l.round)
  · have he : l.round = m.round.number := he
    exact absurd ((he.symm.trans hr) ▸ hlt) (UInt32.lt_irrefl _)

/-- The lock covers all commits of earlier rounds, that of the round that is left included. -/
theorem Locked.covers {n : UInt32} (h : Locked i log) (hv : Voted A i log) (hE : E.Sound)
    (hn : MayEnter E A i n) (m : Commit) (hm : .commit m ∈ log.filterMap Effect.message?)
    (hlt : m.round.number < n) : ∃ l, i.lock = some l ∧ l.claim.Covers m := by
  rcases hv.sent _ hm with hbelow | ⟨hcurrent, hsent⟩
  · exact h.covered m hm hbelow
  have hcurrent : m.round.number = i.round.id.number := hcurrent
  rw [hcurrent] at hlt
  -- A commit of the last round is not below any other.
  have hne : i.round.id.number ≠ lastNumber := fun he =>
    absurd (UInt32.lt_of_lt_of_le hlt (le_lastNumber n)) (he ▸ UInt32.lt_irrefl _)
  rcases hsent with hexcused | hsent
  · exact absurd (hcurrent.symm.trans hexcused.1) hne
  obtain ⟨p, hp, hd⟩ := hsent.digest _ rfl
  rcases hn.noted hE (hsent.commit rfl) with hdecided | ⟨l, hl, hr⟩
  · simp [hn.undecided] at hdecided
  · obtain ⟨q, hq, hqd⟩ := h.current l hl hr hne
    cases hp.symm.trans hq
    exact ⟨l, hl, (hcurrent.trans hr.symm) ▸ UInt32.le_refl _, fun _ => hqd.symm.trans hd⟩

theorem Locked.enter {n : UInt32} {q : RoundChanges} (h : Locked i log) (hv : Voted A i log)
    (hE : E.Sound) (hn : MayEnter E A i n) (hes : ∀ e ∈ es, e.Silent) :
    Locked { i with
      round := freshRound E i.committee n
      roundChanges := q
      backlog := i.backlog.discardThrough n } (log ++ es) := by
  constructor
  · exact fun l hk => UInt32.le_trans (h.le l hk) hn.le
  · intro l hk hr hne
    -- The lock is of an earlier round than a round that is entered for the first time.
    rcases hn.later with hlt | ⟨rfl, -⟩
    · exact absurd (UInt32.lt_of_le_of_lt (h.le l hk) hlt) (hr ▸ UInt32.lt_irrefl _)
    · exact absurd rfl hne
  · rw [List.filterMap_append, filterMap_silent hes, List.append_nil]
    exact h.covers hv hE hn
  · rw [List.filterMap_append, filterMap_silent hes, List.append_nil]
    exact h.announced

/-- The round change to the round of the node takes the lock along. -/
theorem Locked.announce {rc : RoundChange} (h : Locked i log)
    (hr : rc.round.number = i.round.id.number) (hclaim : rc.claim = i.lock.map Lock.claim) :
    Locked i (log ++ [.multicast (.roundChange rc)]) := by
  have hsplit : (log ++ [Effect.multicast (.roundChange rc)]).filterMap Effect.message? =
      log.filterMap Effect.message? ++ [.roundChange rc] := List.filterMap_append
  refine ⟨h.le, h.current, ?_, ?_⟩ <;> simp only [hsplit, List.mem_append, List.mem_singleton]
  · rintro m (hm | hm) hlt
    · exact h.covered m hm hlt
    · cases hm
  · rintro m rc' (hm | hm) (hrc | hrc) hlt
    · exact h.announced m rc' hm hrc hlt
    · cases hrc
      obtain ⟨l, hl, hc⟩ := h.covered m hm (hr ▸ hlt)
      exact ⟨l.claim, by rw [hclaim, hl]; rfl, hc⟩
    · cases hm
    · cases hm

theorem Move.locked (h : Move E A i es j) (hE : E.Sound) (hv : Voted A i log)
    (hl : Locked i log) : Locked j (log ++ es) := by
  cases h with
  | round h => exact hl.round hv h.follows h.sends
  | note hp =>
    rw [List.append_nil]
    exact hl.note hp
  | mark | hold | gather => exact hl.silent rfl rfl nofun
  | ask he => exact hl.silent rfl rfl fun e h => List.mem_singleton.1 h ▸ he
  | enter hn hf h =>
    rw [← List.append_assoc]
    cases h with
    | silent =>
      rw [List.append_nil]
      exact hl.enter hv hE hn hf
    | roundChange hrc =>
      obtain ⟨hr, hclaim, -⟩ := Signer.changeRound_eq_ok hrc
      exact (hl.enter hv hE hn hf).announce (congrArg RoundId.number hr) hclaim

theorem locked_new : Locked (Instance.new E C) [] where
  le := nofun
  current := nofun
  covered := nofun
  announced := nofun

theorem locked_of_chain (h : Chain (Move E A) (Instance.new E C) log i) (hE : E.Sound) :
    Locked i log := by
  have hinv := h.preserves_nil (P := fun i log => Voted A i log ∧ Locked i log)
    (fun _ _ _ _ h hm => ⟨hm.voted h.1, hm.locked hE h.1 h.2⟩) ⟨voted_new, locked_new⟩
  exact hinv.2

end Instance

namespace History

variable (E : Setup) (C : Committee) (first : Collaborators) (calls : List Call)

/-- Once the node has sent a commit, each round change it sends claims a block that was prepared in
the round of the commit, and then the committed block, or in a later round. The block comes with it,
and so do prepares for it from a quorum of different members. -/
theorem commit_locks (hE : E.Sound) {before after : List Message} {m : Commit} {rc : RoundChange}
    (hsent : (run E C first calls).sent = before ++ .commit m :: after)
    (hlast : m.round.number ≠ lastNumber) (hrc : .roundChange rc ∈ after) :
    ∃ c b, rc.claim = some c ∧ m.round.number ≤ c.round ∧
      (c.round = m.round.number → c.digest = m.statement.digest) ∧
      rc.block = some b ∧ E.scheme.digest b = c.digest ∧
      (∀ p ∈ rc.prepares, p.statement = ⟨⟨C.height, c.round⟩, c.digest⟩) ∧
      C.Quorate E.scheme rc.prepares := by
  obtain ⟨-, hchain⟩ := run_chain (fun _ _ _ => trivial)
    (admitsCalls_all (opening E C first) calls)
  have hvoted := Instance.voted_of_chain hchain
  have hlocked := Instance.locked_of_chain hchain hE
  obtain ⟨-, hbacked⟩ := Instance.backed_of_chain hchain fun e _ => Outside.admitsOwn_any e
  have hm : .commit m ∈ (run E C first calls).sent := by simp [hsent]
  have hrc' : .roundChange rc ∈ (run E C first calls).sent := by simp [hsent, hrc]
  have hlater : m.round.number < rc.round.number := by
    have hordered : (run E C first calls).sent.Pairwise _ := hvoted.ordered
    rw [hsent] at hordered
    obtain ((hlt | ⟨-, hb⟩) | ⟨hx, -⟩) :=
      List.rel_of_pairwise_cons (List.pairwise_append.1 hordered).2.1 hrc
    · exact hlt
    · exact absurd hb.place (by simp [kind, Kind.place])
    · exact absurd hx.1 hlast
  obtain ⟨c, hc, hle, heq⟩ := hlocked.announced m rc hm hrc' hlater
  obtain ⟨b, hb, hd, hproof⟩ := (hbacked _ (mem_sent.1 hrc')).1 c hc
  exact ⟨c, b, hc, hle, heq, hb, hd, Committee.checkPrepares_eq_ok_iff.1 hproof⟩

/-- The timer of the first round runs out after the node's commit. -/
def committedCalls : List Call := preparedCalls ++ [⟨.plain, .roundExpiry ⟨1, 0⟩⟩]

theorem commit_locks_committed : ∃ p m rc,
    (run (.plain (.ofNat 3)) (.plain 3) .plain committedCalls).sent =
      [.prepare p] ++ .commit m :: [.roundChange rc] ∧ m.round.number ≠ lastNumber ∧
    ∃ c b, rc.claim = some c ∧ m.round.number ≤ c.round ∧
      (c.round = m.round.number → c.digest = m.statement.digest) ∧
      rc.block = some b ∧ Scheme.plain.digest b = c.digest ∧
      (∀ p ∈ rc.prepares, p.statement = ⟨⟨1, c.round⟩, c.digest⟩) ∧
      (Committee.plain 3).Quorate .plain rc.prepares := by
  obtain ⟨p, m, rc, hsent, hround⟩ : ∃ p m rc,
      (run (.plain (.ofNat 3)) (.plain 3) .plain committedCalls).sent =
        [.prepare p] ++ .commit m :: [.roundChange rc] ∧ m.round.number = 0 := by
    have hkinds : (run (.plain (.ofNat 3)) (.plain 3) .plain committedCalls).sent.map
        (fun m => (m.kind, m.round.number)) =
          [(.prepare, 0), (.commit, 0), (.roundChange, 1)] := by decide +kernel
    generalize (run (.plain (.ofNat 3)) (.plain 3) .plain committedCalls).sent = ms at *
    rcases ms with _ | ⟨_ | p | _ | _, _ | ⟨_ | _ | m | _, _ | ⟨_ | _ | _ | rc, _ | _⟩⟩⟩ <;>
      simp [kind] at hkinds
    exact ⟨p, m, rc, rfl, hkinds.2.1⟩
  have hlast : m.round.number ≠ lastNumber := by
    rw [hround]
    decide
  exact ⟨p, m, rc, hsent, hlast, commit_locks (.plain (.ofNat 3)) (.plain 3) .plain committedCalls
    (Setup.plain_sound _) hsent hlast (List.mem_singleton.2 rfl)⟩

end History

end BlockAgreement
