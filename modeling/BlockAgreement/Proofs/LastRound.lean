import BlockAgreement.Proofs.Voting

/-! What a node does when the timer of its round runs out: unless it is done it tells the others that
it moves on. As the last round is followed by itself, each expiry there sends one more round change
to the same round. -/

namespace BlockAgreement

variable {E : Setup} {S : Scheme} {C : Committee} {A : Outside}

/-- The prepares that prove a claim are what a round change with that claim has to bring. -/
theorem Committee.matched_of_checkPrepares {c : Claim} {b : Block} {prepares : List Prepare}
    {height : UInt64}
    (h : C.checkPrepares S prepares ⟨height, c.round⟩ c.digest = .ok ()) :
    RoundChange.mismatch? (some c) (some b) prepares = none := by
  obtain ⟨hfor, hq⟩ := checkPrepares_eq_ok_iff.1 h
  have hstray : RoundChange.strayPrepare? c prepares = none := by
    rw [RoundChange.strayPrepare?, List.findSome?_eq_none_iff]
    intro m hm
    simp [hfor m hm]
  simp [RoundChange.mismatch?, hq.ne_nil, hstray]

theorem Lock.Backed.matched {l : Lock} (h : l.Backed S C A) :
    RoundChange.mismatch? (some l.claim) (some l.block) l.prepares = none :=
  Committee.matched_of_checkPrepares h.proved

/-- With a lock that is proved and a key that works a round change can be made. -/
theorem Signer.exists_changeRound {K : Signer} (hsign : ∀ h, ∃ g, K.sign h = .ok g)
    (round : RoundId) {lock : Option Lock} (hlock : ∀ l, lock = some l → l.Backed S C A) :
    ∃ rc, K.changeRound S round lock = .ok rc := by
  obtain ⟨g, hg⟩ := hsign (Statement.hash S (⟨round, lock.map Lock.claim⟩ : RoundChangeStatement))
  have hmatched : RoundChange.mismatch? (lock.map Lock.claim) (lock.map Lock.block)
      ((lock.map Lock.prepares).getD []) = none := by
    cases lock with
    | none => rfl
    | some l => exact (hlock l rfl).matched
  refine ⟨⟨⟨⟨round, lock.map Lock.claim⟩, g⟩, lock.map Lock.block,
    (lock.map Lock.prepares).getD [], hmatched⟩, ?_⟩
  rw [changeRound, bind_eq_ok_iff]
  refine ⟨⟨⟨round, lock.map Lock.claim⟩, g⟩, attest_eq_ok_iff.2 ⟨rfl, hg⟩, ?_⟩
  rw [RoundChange.new?]
  split
  · rfl
  · next h => cases hmatched.symm.trans h

namespace Instance

variable {i j : Instance} {es : List Effect} (ext : Collaborators)

theorem changeRound_sends {n : UInt32} {rc : RoundChange} (hi : Formed E C A i)
    (hmember : participates E C = true)
    (hrc : E.signer.changeRound E.scheme ⟨C.height, n⟩ i.lock = .ok rc) :
    .multicast (.roundChange rc) ∈ (changeRound E ext n i).effects := by
  obtain ⟨fs, ho, -, hw⟩ := advance_gives (E := E) ext hi.committee n (hi.held n)
  generalize (freshRound E C n).afterVotes E C ext (i.backlog.queue n) = r at ho hw
  have hid : r.id = ⟨C.height, n⟩ := (Round.follows_of_chain hw.chain).tally.round
  have hparticipates : r.participates = true :=
    (Round.follows_of_chain hw.chain).participates.trans hmember
  rw [changeRound, Handler.bind_of_ok _ ho, Handler.modify_bind, Handler.get_bind]
  dsimp only
  rw [if_pos hparticipates, hid, hrc, Handler.ofExcept_ok_bind, Handler.multicast, Handler.ask_bind]
  exact List.mem_append_right _ (List.mem_cons_self ..)

theorem Move.round_le (h : Move E A i es j) : i.round.id.number ≤ j.round.id.number := by
  cases h with
  | round h =>
    have hid := h.follows.tally.round
    exact UInt32.le_of_eq (congrArg RoundId.number hid.symm)
  | note | ask | mark | hold | gather => exact UInt32.le_refl _
  | enter hn => exact hn.le

theorem round_le_of_chain (h : Chain (Move E A) i es j) :
    i.round.id.number ≤ j.round.id.number :=
  h.preserves_state (P := fun j => i.round.id.number ≤ j.round.id.number)
    (fun _ _ _ hle hm => UInt32.le_trans hle hm.round_le) (UInt32.le_refl _)

end Instance

namespace History

variable (first : Collaborators) (calls : List Call) (ext : Collaborators)

/-- When the timer of its round runs out, a member that is not done moves to the next round and
tells the others. -/
theorem expiry_sends (hsign : ∀ h, ∃ g, E.signer.sign h = .ok g)
    (hmember : C.contains E.signer.address = true)
    (hopen : (run E C first calls).inst.isCommitted = false) {round : RoundId}
    (hround : round = (run E C first calls).inst.round.id) :
    ∃ es rc, (run E C first (calls ++ [⟨ext, .roundExpiry round⟩])).sent =
        (run E C first calls).sent ++ es ∧
      .roundChange rc ∈ es ∧ rc.round = ⟨C.height, nextNumber round.number⟩ := by
  obtain ⟨hs, hchain⟩ := run_chain (fun _ _ _ => trivial)
    (admitsCalls_all (opening E C first) calls)
  obtain ⟨hb, -⟩ := Instance.backed_of_chain hchain fun e _ => Outside.admitsOwn_any e
  subst hround
  rw [run_append]
  generalize run E C first calls = h at *
  obtain ⟨rc, hrc⟩ := Signer.exists_changeRound hsign
    ⟨C.height, nextNumber h.inst.round.id.number⟩ fun l hl => (hb.lock l hl).1
  have hsends : .multicast (.roundChange rc) ∈
      (Instance.roundExpired E ext h.inst.round.id h.inst).effects := by
    rw [Instance.roundExpired, Handler.get_bind, if_pos (by simp [hopen]), Handler.absorb_effects]
    exact Instance.changeRound_sends ext hs.formed hmember hrc
  exact ⟨_, rc, sent_after .., List.mem_filterMap.2 ⟨_, hsends, rfl⟩,
    (Signer.changeRound_eq_ok hrc).1⟩

/-- More calls take nothing back, and never go to an earlier round. -/
theorem run_extends (E : Setup) (C : Committee) (first : Collaborators) (calls more : List Call) :
    (run E C first calls).sent ⊆ (run E C first (calls ++ more)).sent ∧
      (run E C first calls).inst.round.id.number ≤
        (run E C first (calls ++ more)).inst.round.id.number := by
  obtain ⟨es, hlog, hchain⟩ := extend_chain (fun _ _ _ => trivial)
    (admitsCalls_all (E := E) (C := C) (opening E C first) (calls ++ more))
  refine ⟨?_, Instance.round_le_of_chain hchain⟩
  rw [sent, sent, hlog, List.filterMap_append]
  exact List.subset_append_left ..

theorem last_is_kept (more : List Call)
    (hlast : (run E C first calls).inst.round.id.number = lastNumber) :
    (run E C first (calls ++ more)).inst.round.id = ⟨C.height, lastNumber⟩ := by
  obtain ⟨hs, -⟩ := run_chain (fun _ _ _ => trivial)
    (admitsCalls_all (E := E) (C := C) (opening E C first) (calls ++ more))
  have hle := (run_extends E C first calls more).2
  rw [hlast] at hle
  rw [← hs.formed.height, ← UInt32.le_antisymm (le_lastNumber _) hle]

theorem length_roundChanges_pos {ms : List Message} {rc : RoundChange} {n : UInt32}
    (hm : .roundChange rc ∈ ms) (hn : rc.round.number = n) :
    0 < (ms.filter fun m => m.kind = .roundChange ∧ m.round.number = n).length := by
  refine List.length_pos_of_mem (List.mem_filter.2 ⟨hm, ?_⟩)
  simp [Message.kind, Message.round, hn]

/-- The condition on the last round is sharp. Once its timer ran out there, the rule that a node
votes once in a round is broken by the next expiry, unless the node is done before. -/
theorem last_resends (hsign : ∀ h, ∃ g, E.signer.sign h = .ok g)
    (hmember : C.contains E.signer.address = true) (hexpired : LastExpired E C first calls)
    (hopen : (run E C first calls).inst.isCommitted = false) :
    ¬ (run E C first (calls ++ [⟨ext, .roundExpiry ⟨C.height, lastNumber⟩⟩])).VotesOnce
      lastNumber := by
  obtain ⟨before, ⟨ext', _⟩, round, ⟨rest, rfl⟩, rfl, hnumber, hround, hopen'⟩ := hexpired
  obtain ⟨es, rc, hsent, hrc, hrcround⟩ :=
    expiry_sends first before ext' hsign hmember hopen' hround
  have hbefore := (run_extends E C first (before ++ [⟨ext', .roundExpiry round⟩]) rest).1
    (hsent ▸ List.mem_append_right _ hrc)
  have hlast := last_is_kept first before ([⟨ext', .roundExpiry round⟩] ++ rest)
    (by rw [← hround, hnumber])
  rw [← List.append_assoc] at hlast
  obtain ⟨es', rc', hsent', hrc', hrcround'⟩ :=
    expiry_sends first _ ext hsign hmember hopen hlast.symm
  intro honce
  have hlength := honce.once .roundChange
  rw [hsent', List.filter_append, List.length_append] at hlength
  have hpos := length_roundChanges_pos hbefore (n := lastNumber)
    (by rw [hrcround, hnumber, nextNumber_lastNumber])
  have hpos' := length_roundChanges_pos hrc' (n := lastNumber)
    (by rw [hrcround', nextNumber_lastNumber])
  omega

end History

end BlockAgreement
