import BlockAgreement.Proofs.Abreast
import BlockAgreement.Proofs.Outsiders
import BlockAgreement.Proofs.Working

/-! The same message twice. Votes, proposals and round changes are told apart from those before by
their authors and rounds, each in its own place, so that a second time nothing is counted, said or
entered. Two things are not: votes for later rounds are held as often as they come, and a round
change that was too far ahead to be gathered may be near enough once the node has moved on. -/

namespace BlockAgreement

theorem Table.insert_of_find? {κ α : Type} [Ranked κ] [DecidableEq κ] {t : Table κ α} {k : κ}
    {a : α} (h : t.find? k = some a) : t.insert k a = t := by
  refine ext_find? fun k' => ?_
  rw [find?_insert]
  split
  · next hk => rw [hk, h]
  · rfl

/-! ### Round changes that were taken -/

namespace RoundChanges

variable {S : Scheme} {C : Committee} {p q : RoundChanges} {a : Address} {t : UInt32}
  {rc : RoundChange} {x : Except Error (Option Justification)}

/-- Gathered for a round, as long as this is not past. -/
def Counts (p : RoundChanges) (a : Address) (t : UInt32) : Prop :=
  p.current ≤ t → HasVote (p.gathering t) a

theorem announce_of_announced (h : p.Announced a t) : p.announce a t = p := by
  obtain ⟨n, hn, hle⟩ := h
  have hsame : p.announced.insert a (max ((p.announced.find? a).getD t) t) = p.announced := by
    rw [hn]
    show p.announced.insert a (max n t) = p.announced
    rw [max_of_ge hle, Table.insert_of_find? hn]
  rw [announce, hsame]

theorem store_of_hasVote (h : HasVote (p.gathering t) a) : p.store t (p.gathering t) = p := by
  rw [gathering] at h ⊢
  cases hg : p.gatherings.find? t with
  | none =>
    rw [hg] at h
    rcases h with h | h <;> cases h
  | some g =>
    show { p with gatherings := p.gatherings.insert t g } = p
    rw [Table.insert_of_find? hg]

theorem append_of_far (ha : C.checkRoundChange S rc = .ok a) (hfar : p.Far rc.round.number) :
    append S C rc p = ⟨.ok none, p.announce a rc.round.number, []⟩ := by
  obtain ⟨x, q, ho, h⟩ := append_leaves (S := S) (C := C) rc p
  rw [ho]
  cases h with
  | refused h => cases ha.symm.trans h
  | far hb =>
    cases ha.symm.trans hb
    rfl
  | known _ hnear | added _ hnear => exact absurd hfar hnear

/-- A round change that was taken is taken as known. -/
theorem append_again (ha : C.checkRoundChange S rc = .ok a) (hp : p.Announced a rc.round.number)
    (hg : ¬ p.Far rc.round.number → HasVote (p.gathering rc.round.number) a) :
    append S C rc p = ⟨.ok none, p, []⟩ := by
  obtain ⟨x, q, ho, h⟩ := append_leaves (S := S) (C := C) rc p
  rw [ho]
  cases h with
  | refused h => cases ha.symm.trans h
  | far hb =>
    obtain rfl := Except.ok.inj (ha.symm.trans hb)
    rw [announce_of_announced hp]
  | known hb _ hv =>
    obtain rfl := Except.ok.inj (ha.symm.trans hb)
    rw [announce_of_announced hp, store_of_hasVote hv]
  | added hb hnear hv =>
    obtain rfl := Except.ok.inj (ha.symm.trans hb)
    exact absurd (hg hnear) hv

theorem Announced.leaves (hp : p.Announced a t) (h : Leaves S C rc p x q) : q.Announced a t := by
  rcases h.announced with hq | ⟨b, -, hq⟩
  · rw [Announced, hq]
    exact hp
  · rw [Announced, hq]
    exact hp.announce b _

theorem Counts.leaves (hp : p.Counts a t) (h : Leaves S C rc p x q) : q.Counts a t := by
  intro hle
  have hv := hp (h.current.1 ▸ hle)
  cases h with
  | refused | far => exact hv
  | known =>
    rw [gathering_store]
    split
    · next ht => exact ht ▸ hv
    · exact hv
  | added _ _ hg =>
    rw [gathering_store]
    split
    · next ht =>
      subst ht
      exact .inr (by simp [hv.resolve_left fun hj => hg (.inl hj)])
    · exact hv

theorem Counts.discardBefore (hp : p.Counts a t) (n : UInt32) : (p.discardBefore n).Counts a t := by
  intro hle
  have hn : n ≤ t := UInt32.le_trans (le_max_right ..) hle
  rw [gathering_discardBefore, if_pos hn]
  exact hp (UInt32.le_trans (le_max_left ..) hle)

theorem Later.announced (h : Later S C p q) (hp : p.Announced a t) : q.Announced a t := by
  induction h with
  | refl => exact hp
  | @append r rc _ ih =>
    obtain ⟨x, r', ho, h⟩ := append_leaves (S := S) (C := C) rc r
    rw [ho]
    exact ih.leaves h
  | discardBefore n _ ih => exact ih

theorem Later.counts (h : Later S C p q) (hp : p.Counts a t) : q.Counts a t := by
  induction h with
  | refl => exact hp
  | @append r rc _ ih =>
    obtain ⟨x, r', ho, h⟩ := append_leaves (S := S) (C := C) rc r
    rw [ho]
    exact ih.leaves h
  | discardBefore n _ ih => exact ih.discardBefore n

/-- What is taken is announced, and unless it is too far ahead also gathered. -/
theorem Leaves.taken (h : Leaves S C rc p x q) (ha : C.checkRoundChange S rc = .ok a) :
    q.Announced a rc.round.number ∧ (¬ p.Far rc.round.number → q.Counts a rc.round.number) := by
  cases h with
  | refused h => cases ha.symm.trans h
  | far hb hfar =>
    obtain rfl := Except.ok.inj (ha.symm.trans hb)
    exact ⟨announced_announce .., fun hnear => absurd hfar hnear⟩
  | known hb _ hv =>
    obtain rfl := Except.ok.inj (ha.symm.trans hb)
    refine ⟨announced_announce .., fun _ _ => ?_⟩
    rw [gathering_store, if_pos rfl]
    exact hv
  | added hb =>
    obtain rfl := Except.ok.inj (ha.symm.trans hb)
    refine ⟨announced_announce .., fun _ _ => ?_⟩
    rw [gathering_store, if_pos rfl]
    exact .inr (by simp)

end RoundChanges

/-! ### A second time -/

/-- The second time nothing becomes of it, but that the timer of a round that is decided may be
stopped once more. -/
structure Repeats (o o' : Outcome Instance Unit) : Prop where
  state : o'.state = o.state
  effects : o'.effects = [] ∨ ∃ es round,
    o.effects = es ++ [.cancelTimer round] ∧ o'.effects = [.cancelTimer round]

namespace Instance

open Handler (Keeps Anything)

variable {E : Setup} {C : Committee} {A : Outside} {i j : Instance} {m : Message} {p : Proposal}
  {rc : RoundChange} (ext : Collaborators)

/-- Nothing becomes of it. -/
structure Unmoved (i : Instance) (o : Outcome Instance Unit) : Prop where
  state : o.state = i
  effects : o.effects = []

theorem Unmoved.repeats {o o' : Outcome Instance Unit} (h : Unmoved o.state o') : Repeats o o' :=
  ⟨h.state, .inl h.effects⟩

/-- A handler that may be given the same twice. -/
def Repeatable (h : Collaborators → Handler Instance Unit) (i : Instance) : Prop :=
  ∀ ext', Repeats (h ext i) (h ext' (h ext i).state)

theorem repeatable_of_unmoved {h : Collaborators → Handler Instance Unit}
    (hh : ∀ ext, Unmoved i (h ext i)) : Repeatable ext h i := by
  intro ext'
  rw [(hh ext).state]
  exact ⟨(hh ext').state.trans (hh ext).state.symm, .inl (hh ext').effects⟩

/-! ### Votes -/

theorem onRound_note_repeatable {h : Collaborators → Handler Round Unit}
    (hs : Round.Settles h ext i.round) :
    Repeatable ext (fun ext => onRound (h ext) >>= fun _ => noteProgress) i := by
  cases hs with
  | @refused e hrefused =>
    refine repeatable_of_unmoved ext fun ext => ?_
    rw [Handler.bind_of_error _ (onRound_apply (hrefused ext))]
    exact ⟨rfl, rfl⟩
  | @done s es ho hid hagain =>
    intro ext'
    let k : Instance := { i with round := s }
    have hround : k.keepLock.round = s := k.keepLock_keeps.2.1
    have hagain' : onRound (h ext') k.keepLock = ⟨.ok (), k.keepLock, []⟩ := by
      have hr : h ext' k.keepLock.round = ⟨.ok (), k.keepLock.round, []⟩ := by
        rw [hround]
        exact hagain ext'
      exact onRound_apply hr
    have hcommitted : k.keepLock.isCommitted = k.isCommitted := congrArg Round.isCommitted hround
    dsimp only
    rw [Handler.bind_of_ok _ (onRound_apply ho), noteProgress_apply]
    rw [Handler.bind_of_ok _ hagain', noteProgress_apply]
    refine ⟨k.keepLock_keepLock, ?_⟩
    rw [hcommitted, hround]
    dsimp only
    split
    · exact .inr ⟨es, s.id, rfl, rfl⟩
    · exact .inl rfl

/-- A vote of a member for a later round, which is held. -/
structure Held (E : Setup) (i : Instance) (m : Message) : Prop where
  kind : m.kind = .prepare ∨ m.kind = .commit
  height : m.round.height = i.height
  later : i.round.id.number < m.round.number
  member : ∃ a, m.author E.scheme = .ok a ∧ i.committee.contains a = true

theorem handleVote_of_held (h : Held E i m) : handleVote E ext m i =
    ⟨.ok (), { i with
      backlog := i.backlog.push E.config.bufferLimit.toNat m.round.number m }, []⟩ := by
  obtain ⟨a, ha, hmember⟩ := h.member
  rw [handleVote, Handler.get_bind, if_pos h.later, hold, Handler.get_bind, ha,
    Handler.ofExcept_ok_bind, if_pos hmember]
  rfl

theorem handleVote_repeatable (hE : E.Able)
    (hmember : i.round.participates = true → i.committee.contains E.signer.address = true)
    (hext : ext.Takes) (hkind : m.kind = .prepare ∨ m.kind = .commit)
    (hheight : m.round.height = i.height) (hm : ¬ Held E i m) :
    Repeatable ext (handleVote E · m) i := by
  by_cases hlater : i.round.id.number < m.round.number
  · have hforeign : m.Foreign E.scheme i.committee := by
      intro a ha
      by_contra hcontains
      exact hm ⟨hkind, hheight, hlater, a, ha, by simpa using hcontains⟩
    refine repeatable_of_unmoved ext fun ext => ?_
    obtain ⟨x, ho, -⟩ := handleVote_ignores ext hforeign hkind
    rw [ho]
    exact ⟨rfl, rfl⟩
  by_cases hnow : m.round.number = i.round.id.number
  · cases m with
    | prepare v =>
      obtain ⟨hc, hid⟩ : Has i.committee (fun id _ => id = i.round.id) _ :=
        (handleVote_keeps ext (.prepare v) i ⟨rfl, rfl⟩).1
      intro ext'
      show Repeats (handleVote E ext (.prepare v) i)
        (handleVote E ext' (.prepare v) (handleVote E ext (.prepare v) i).state)
      rw [handlePrepare_of_current ext hnow] at hc hid ⊢
      rw [handlePrepare_of_current ext' (hnow.trans (congrArg RoundId.number hid.symm)), hc]
      exact onRound_note_repeatable ext (Round.handlePrepare_settles ext hE hmember hext v) ext'
    | commit v =>
      obtain ⟨hc, hid⟩ : Has i.committee (fun id _ => id = i.round.id) _ :=
        (handleVote_keeps ext (.commit v) i ⟨rfl, rfl⟩).1
      intro ext'
      show Repeats (handleVote E ext (.commit v) i)
        (handleVote E ext' (.commit v) (handleVote E ext (.commit v) i).state)
      rw [handleCommit_of_current ext hnow] at hc hid ⊢
      rw [handleCommit_of_current ext' (hnow.trans (congrArg RoundId.number hid.symm)), hc]
      exact onRound_note_repeatable ext (Round.handleCommit_settles ext hE hmember hext v) ext'
    | proposal p => simp [Message.kind] at hkind
    | roundChange rc => simp [Message.kind] at hkind
  · refine repeatable_of_unmoved ext fun ext => ?_
    rw [handleVote, Handler.get_bind, if_neg hlater, if_neg hnow]
    exact ⟨rfl, rfl⟩

/-! ### Proposals -/

/-- A proposal was taken in this round. -/
structure Taken (n : UInt32) (i : Instance) : Prop where
  number : i.round.id.number = n
  proposal : ∃ q, i.round.tally.proposal = some q
  changing : i.changing = false
  lock : i.keepLock = i

theorem take_takes (hE : E.Able)
    (hmember : i.round.participates = true → C.contains E.signer.address = true)
    (hext : ext.Takes) (p : Proposal) :
    ∃ j es, take E C ext p i = ⟨.ok (), j, es⟩ ∧ Taken i.round.id.number j := by
  obtain ⟨s, es, ho, hid, hproposal⟩ := Round.acceptProposal_settles (p := p) ext hE hmember hext
  let k : Instance := { i with round := s, changing := false }
  obtain ⟨-, hround, hchanging, -⟩ := k.keepLock_keeps
  refine ⟨_, _, take_apply ext ho, ?_, ?_, hchanging, k.keepLock_keepLock⟩
  · rw [hround]
    exact congrArg RoundId.number hid
  · rw [hround]
    exact hproposal

/-- In a round that has a proposal, another one changes nothing. -/
theorem handleProposal_unmoved (hi : Taken p.round.number i) :
    Unmoved i (handleProposal E ext p i) := by
  by_cases hguard : (i.round.id.number ≤ p.round.number && !i.isCommitted) = true
  · cases hcheck : i.committee.checkProposal E.scheme p with
    | error e =>
      rw [handleProposal_of_error ext hguard hcheck]
      exact ⟨rfl, rfl⟩
    | ok a =>
      have hopen : i.isCommitted = false := by simpa [hi.number] using hguard
      obtain ⟨q, hq⟩ := hi.proposal
      have hsame : { i with round := i.round, changing := false } = i := by rw [← hi.changing]
      rw [handleProposal_of_current ext hopen hcheck hi.number,
        take_apply ext (Round.acceptProposal_of_some_proposal ext hq), hsame, hi.lock,
        if_neg (by simp [show i.round.isCommitted = false from hopen])]
      exact ⟨rfl, rfl⟩
  · rw [handleProposal_of_past ext hguard]
    exact ⟨rfl, rfl⟩

theorem handleProposal_repeatable (hE : E.Able) (hi : Formed E C A i) (hext : ext.Takes)
    (p : Proposal) : Repeatable ext (handleProposal E · p) i := by
  by_cases hguard : (i.round.id.number ≤ p.round.number && !i.isCommitted) = true
  · cases hcheck : i.committee.checkProposal E.scheme p with
    | error e =>
      refine repeatable_of_unmoved ext fun ext => ?_
      rw [handleProposal_of_error ext hguard hcheck]
      exact ⟨rfl, rfl⟩
    | ok a =>
      simp only [Bool.and_eq_true, decide_eq_true_eq, Bool.not_eq_true'] at hguard
      obtain ⟨hle, hopen⟩ := hguard
      suffices htaken : Taken p.round.number (handleProposal E ext p i).state from
        fun ext' => (handleProposal_unmoved ext' htaken).repeats
      rcases UInt32.lt_or_eq_of_le hle with hlt | hnow
      · obtain ⟨fs, ho, -, hw⟩ :=
          advance_gives (E := E) ext hi.committee p.round.number (hi.held p.round.number)
        generalize (freshRound E C p.round.number).afterVotes E C ext
          (i.backlog.queue p.round.number) = r at ho hw
        have hf := Round.follows_of_chain hw.chain
        obtain ⟨j, es, hj, htaken⟩ := take_takes ext (C := i.committee) (p := p) (i := { i with
          round := r
          roundChanges := i.roundChanges.discardBefore p.round.number
          backlog := i.backlog.discardThrough p.round.number }) hE (fun hr => by
            rw [hi.committee]
            exact hf.participates.symm.trans hr) hext
        have hnumber : r.id.number = p.round.number := by
          rw [Round.id, hf.tally.round]
          rfl
        rw [handleProposal_of_later ext hopen hcheck hlt, Handler.bind_of_ok _ ho, hj]
        exact hnumber ▸ htaken
      · obtain ⟨j, es, hj, htaken⟩ := take_takes ext (C := i.committee) hE hi.member hext p
        rw [handleProposal_of_current ext hopen hcheck hnow, hj, ← hnow]
        exact htaken
  · refine repeatable_of_unmoved ext fun ext => ?_
    rw [handleProposal_of_past ext hguard]
    exact ⟨rfl, rfl⟩

/-! ### Round changes -/

theorem follow_keeps (q : RoundChanges) (here : UInt32) (j? : Option Justification) :
    Keeps (Has C fun _ p => q.Later E.scheme C p) Anything (follow E C ext q here j?) := by
  unfold follow
  split
  · exact enter_keeps ext (steady_later E C q) trivial
  · split
    · split
      · exact changeRound_keeps ext (steady_later E C q) trivial
      · exact .done
    · exact .done

variable {a : Address}

/-- What is left of a round change that is taken. -/
theorem handleRoundChange_taken (hc : i.committee = C)
    (hguard : (i.round.id.number ≤ rc.round.number && !i.isCommitted) = true)
    (ha : C.checkRoundChange E.scheme rc = .ok a) :
    let p := (handleRoundChange E ext rc i).state.roundChanges
    p.Announced a rc.round.number ∧
      (¬ i.roundChanges.Far rc.round.number → p.Counts a rc.round.number) := by
  obtain ⟨x, q, ho, h⟩ :=
    RoundChanges.append_leaves (S := E.scheme) (C := C) rc i.roundChanges
  have htaken := h.taken ha
  cases x with
  | error e =>
    rw [handleRoundChange_of_error ext hc hguard ho]
    exact htaken
  | ok j? =>
    rw [handleRoundChange_of_ok ext hc hguard ho]
    have hlater := (follow_keeps (E := E) ext q i.round.id.number j?
      { i with roundChanges := q } ⟨hc, .refl⟩).1.holds
    exact ⟨hlater.announced htaken.1, fun hnear => hlater.counts (htaken.2 hnear)⟩

/-- The round may still be entered. -/
def Open (i : Instance) (round : RoundId) : Prop :=
  (i.round.id.number ≤ round.number && !i.isCommitted) = true

theorem Open.le {round : RoundId} (h : i.Open round) : i.round.id.number ≤ round.number := by
  simp only [Open, Bool.and_eq_true, decide_eq_true_eq] at h
  exact h.1

/-- Abreast of the others, a node that is given a round change it took goes nowhere. -/
theorem handleRoundChange_unmoved (hi : i.Has C (Abreast E C))
    (ha : C.checkRoundChange E.scheme rc = .ok a)
    (hannounced : i.roundChanges.Announced a rc.round.number)
    (hgathered : i.Open rc.round → ¬ i.roundChanges.Far rc.round.number →
      RoundChanges.HasVote (i.roundChanges.gathering rc.round.number) a) :
    Unmoved i (handleRoundChange E ext rc i) := by
  by_cases hguard : i.Open rc.round
  · rw [handleRoundChange_of_ok ext hi.committee hguard
      (RoundChanges.append_again ha hannounced (hgathered hguard)), follow]
    split
    · next hearly =>
      rw [RoundChanges.earlyTarget?_eq_none (hi.holds.ahead hearly)]
      exact ⟨rfl, rfl⟩
    · exact ⟨rfl, rfl⟩
  · rw [handleRoundChange_of_past ext hguard]
    exact ⟨rfl, rfl⟩

/-- In this state the round change would be gathered. -/
structure Gatherable (i : Instance) (round : RoundId) (a : Address) : Prop where
  isOpen : i.Open round
  near : ¬ i.roundChanges.Far round.number
  unknown : ¬ RoundChanges.HasVote (i.roundChanges.gathering round.number) a

theorem handleRoundChange_repeatable (hi : i.Has C (Abreast E C))
    (hchecked : i.roundChanges.Checked E.scheme C) (htold : i.roundChanges.Told)
    (hfar : ∀ a, C.checkRoundChange E.scheme rc = .ok a → i.roundChanges.Far rc.round.number →
      ¬ Gatherable (handleRoundChange E ext rc i).state rc.round a) :
    Repeatable ext (handleRoundChange E · rc) i := by
  by_cases hguard : i.Open rc.round
  · cases ha : C.checkRoundChange E.scheme rc with
    | error e =>
      have ho : RoundChanges.append E.scheme C rc i.roundChanges =
          ⟨.error e, i.roundChanges, []⟩ := by
        rw [RoundChanges.append, ha]
        rfl
      refine repeatable_of_unmoved ext fun ext => ?_
      rw [handleRoundChange_of_error ext hi.committee hguard ho]
      exact ⟨rfl, rfl⟩
    | ok a =>
      obtain ⟨hannounced, hcounts⟩ := handleRoundChange_taken ext hi.committee hguard ha
      have hj := handleRoundChange_abreast ext hi hchecked htold rc
      refine fun ext' => (handleRoundChange_unmoved ext' hj ha hannounced
        fun hopen hnear => ?_).repeats
      by_cases hwasFar : i.roundChanges.Far rc.round.number
      · by_contra hunknown
        exact hfar a ha hwasFar ⟨hopen, hnear, hunknown⟩
      · refine hcounts hwasFar ?_
        rw [hj.holds.current]
        exact hopen.le
  · refine repeatable_of_unmoved ext fun ext => ?_
    rw [handleRoundChange_of_past ext hguard]
    exact ⟨rfl, rfl⟩

/-- Abreast of the others, a node that is given a round change it heard of goes to its round at
most. -/
theorem handleRoundChange_stays (hi : i.Has C (Abreast E C)) (hopen : i.Open rc.round)
    (ha : C.checkRoundChange E.scheme rc = .ok a)
    (hannounced : i.roundChanges.Announced a rc.round.number) :
    (handleRoundChange E ext rc i).state.Has C
      fun id p => p.current = id.number ∧ id.number ≤ rc.round.number := by
  obtain ⟨x, q, ho, h⟩ := RoundChanges.append_leaves (S := E.scheme) (C := C) rc i.roundChanges
  have hcurrent : q.current = i.round.id.number := h.current.1.trans hi.holds.current
  have hsame : q.announced = i.roundChanges.announced := by
    rcases h.announced with hq | ⟨b, hb, hq⟩
    · exact hq
    · cases ha.symm.trans hb
      rw [hq, RoundChanges.announce_of_announced hannounced]
  cases x with
  | error e =>
    rw [handleRoundChange_of_error ext hi.committee hopen ho]
    exact ⟨hi.committee, hcurrent, hopen.le⟩
  | ok j? =>
    rw [handleRoundChange_of_ok ext hi.committee hopen ho]
    cases j? with
    | some j =>
      have hround := Justification.round_of_assemble h.appends.justified.2
      obtain ⟨hc, hnumber, habreast⟩ := enter_abreast (i := { i with roundChanges := q }) (j := j)
        ext ⟨hi.committee, hcurrent, hround ▸ hopen.le, fun he => by
          rw [RoundChanges.ahead_congr hsame]
          exact (hi.holds.within (hround ▸ hopen.le)).ahead he⟩
      exact ⟨hc, habreast.current, hnumber.trans (congrArg RoundId.number hround) ▸ UInt32.le_refl _⟩
    | none =>
      have hstay : Has C (fun id p => p.current = id.number ∧ id.number ≤ rc.round.number)
          { i with roundChanges := q } := ⟨hi.committee, hcurrent, hopen.le⟩
      rw [follow]
      split
      · next hearly =>
        rw [RoundChanges.earlyTarget?_eq_none (by
          rw [RoundChanges.ahead_congr hsame]
          exact hi.holds.ahead hearly)]
        exact hstay
      · exact hstay

/-- A round change that was too far ahead and is no longer so is gathered. -/
theorem handleRoundChange_gathers (hi : i.Has C (Abreast E C))
    (ha : C.checkRoundChange E.scheme rc = .ok a)
    (hannounced : i.roundChanges.Announced a rc.round.number) (hi' : Gatherable i rc.round a) :
    RoundChanges.HasVote
      ((handleRoundChange E ext rc i).state.roundChanges.gathering rc.round.number) a := by
  obtain ⟨-, hcurrent, hle⟩ := handleRoundChange_stays ext hi hi'.isOpen ha hannounced
  refine (handleRoundChange_taken ext hi.committee hi'.isOpen ha).2 hi'.near ?_
  rw [hcurrent]
  exact hle

/-! ### Messages -/

/-- A round change that is too far ahead to be gathered when it comes, and would be gathered
after. -/
structure Nears (E : Setup) (i : Instance) (m : Message) : Prop where
  far : i.roundChanges.Far m.round.number
  near : ∃ rc a, m = .roundChange rc ∧ i.committee.checkRoundChange E.scheme rc = .ok a ∧
    Gatherable (handleMessage E ext m i).state m.round a

theorem Repeatable.absorb {h : Collaborators → Handler Instance Unit} (hh : Repeatable ext h i) :
    Repeatable ext (fun ext => Handler.absorb survives (h ext)) i := by
  intro ext'
  have hstate := Handler.absorb_state survives (h ext) i
  constructor
  · rw [Handler.absorb_state, hstate]
    exact (hh ext').state
  · rw [Handler.absorb_effects, Handler.absorb_effects, hstate]
    exact (hh ext').effects

/-- The handler of a message of this height. -/
def dispatch (E : Setup) (ext : Collaborators) : Message → Handler Instance Unit
  | .proposal p => handleProposal E ext p
  | .roundChange rc => handleRoundChange E ext rc
  | .prepare v => handleVote E ext (.prepare v)
  | .commit v => handleVote E ext (.commit v)

theorem handleMessage_of_height (h : m.round.height = i.height) :
    handleMessage E ext m i = Handler.absorb survives (dispatch E ext m) i := by
  unfold handleMessage
  rw [Handler.get_bind, if_pos h]
  cases m <;> rfl

theorem handleMessage_of_not_height (h : m.round.height ≠ i.height) :
    handleMessage E ext m i = ⟨.ok (), i, []⟩ := by
  unfold handleMessage
  rw [Handler.get_bind, if_neg h]
  rfl

theorem dispatch_of_vote (h : m.kind = .prepare ∨ m.kind = .commit) :
    dispatch E ext m = handleVote E ext m := by
  cases m with
  | prepare | commit => rfl
  | proposal | roundChange => simp [Message.kind] at h

theorem dispatch_repeatable (hE : E.Able) (hi : Formed E C A i) (hext : ext.Takes)
    (habreast : i.Has C (Abreast E C)) (hchecked : i.roundChanges.Checked E.scheme C)
    (htold : i.roundChanges.Told) (hheight : m.round.height = i.height) (hheld : ¬ Held E i m)
    (hnears : ¬ Nears ext E i m) : Repeatable ext (dispatch E · m) i := by
  cases m with
  | proposal p => exact handleProposal_repeatable ext hE hi hext p
  | roundChange rc =>
    refine handleRoundChange_repeatable ext habreast hchecked htold fun a ha hfar hnear => ?_
    refine hnears ⟨hfar, rc, a, rfl, habreast.committee.symm ▸ ha, ?_⟩
    rw [handleMessage_of_height ext hheight, Handler.absorb_state]
    exact hnear
  | prepare v => exact handleVote_repeatable ext hE hi.member hext (.inl rfl) hheight hheld
  | commit v => exact handleVote_repeatable ext hE hi.member hext (.inr rfl) hheight hheld

/-- In a state that a node comes to, a message may be given twice, but for these two. -/
theorem handleMessage_repeatable (hE : E.Able) (hi : Formed E C A i) (hext : ext.Takes)
    (habreast : i.Has C (Abreast E C)) (hchecked : i.roundChanges.Checked E.scheme C)
    (htold : i.roundChanges.Told) (hheld : ¬ Held E i m) (hnears : ¬ Nears ext E i m) :
    Repeatable ext (handleMessage E · m) i := by
  by_cases hheight : m.round.height = i.height
  · have hheight' : m.round.height = (handleMessage E ext m i).state.height := by
      rw [(handleMessage_abreast ext habreast hchecked htold m).height, ← habreast.height, hheight]
    intro ext'
    dsimp only
    rw [handleMessage_of_height ext' hheight', handleMessage_of_height ext hheight]
    exact (dispatch_repeatable ext hE hi hext habreast hchecked htold hheight hheld
      hnears).absorb ext ext'
  · refine repeatable_of_unmoved ext fun ext => ?_
    rw [handleMessage_of_not_height ext hheight]
    exact ⟨rfl, rfl⟩

theorem handleMessage_of_held (h : Held E i m) : handleMessage E ext m i =
    ⟨.ok (), { i with
      backlog := i.backlog.push E.config.bufferLimit.toNat m.round.number m }, []⟩ := by
  have ho := handleVote_of_held (E := E) ext h
  rw [handleMessage_of_height ext h.height, dispatch_of_vote ext h.kind]
  exact absorb_of_survived ho (.pure ())

theorem Nears.height (h : Nears ext E i m) : m.round.height = i.height := by
  obtain ⟨rc, a, rfl, ha, -⟩ := h.near
  exact (Committee.checkRoundChange_eq_ok_iff.1 ha).2.1

/-- The second time, a round change that is near enough by then is gathered. -/
theorem handleMessage_gathers (habreast : i.Has C (Abreast E C))
    (hchecked : i.roundChanges.Checked E.scheme C) (htold : i.roundChanges.Told)
    (h : Nears ext E i m) (ext' : Collaborators) : ∃ a, m.author E.scheme = .ok a ∧
      RoundChanges.HasVote ((handleMessage E ext' m
        (handleMessage E ext m i).state).state.roundChanges.gathering m.round.number) a := by
  have hheight := h.height
  have hj := handleMessage_abreast ext habreast hchecked htold m
  have hheight' : m.round.height = (handleMessage E ext m i).state.height := by
    rw [hj.height, ← habreast.height, hheight]
  obtain ⟨rc, a, rfl, ha, hnear⟩ := h.near
  rw [habreast.committee] at ha
  refine ⟨a, (Committee.author_eq_ok_iff.1 (Committee.checkRoundChange_eq_ok_iff.1 ha).1).1, ?_⟩
  rw [handleMessage_of_height ext' hheight', Handler.absorb_state]
  refine handleRoundChange_gathers ext' hj ha ?_ hnear
  have hopen : i.Open rc.round := by
    by_contra hpast
    rw [handleMessage_of_height ext hheight, Handler.absorb_state, dispatch,
      handleRoundChange_of_past ext hpast] at hnear
    exact hnear.near h.far
  rw [handleMessage_of_height ext hheight, Handler.absorb_state]
  exact (handleRoundChange_taken ext habreast.committee hopen ha).1

end Instance

namespace History

open Instance (Held Nears)

/-- A message that is given twice leaves the node as it is after the first time, and asks for
nothing the second time but to stop the timer of a decided round once more. Only a vote of a member
for a later round is held twice where there is room, and only a round change that was too far ahead
is gathered where the first time brought the node nearer. -/
theorem run_again {E : Setup} (hE : E.Able) (C : Committee) (first : Collaborators)
    (calls : List Call) {ext : Collaborators} (hext : ext.Takes) (ext' : Collaborators)
    (m : Message) :
    let i := (run E C first calls).inst
    let o := Instance.handleMessage E ext m i
    let o' := Instance.handleMessage E ext' m o.state
    (¬ Held E i m → ¬ Nears ext E i m → Repeats o o') ∧
      (Held E i m → o.effects = [] ∧ o'.effects = [] ∧
        let limit := E.config.bufferLimit.toNat
        o.state = { i with backlog := i.backlog.push limit m.round.number m } ∧
        o'.state = { o.state with backlog := o.state.backlog.push limit m.round.number m }) ∧
      (Nears ext E i m → ∃ a, m.author E.scheme = .ok a ∧
        RoundChanges.HasVote (o'.state.roundChanges.gathering m.round.number) a) := by
  obtain ⟨hs, -⟩ := run_moves E C first calls
  have habreast := run_abreast E C first calls
  have hchecked := run_checked E C first calls
  have htold := run_told E C first calls
  refine ⟨fun hheld hnears => ?_, fun hheld => ?_, fun hnears => ?_⟩
  · exact Instance.handleMessage_repeatable ext hE hs.formed hext habreast hchecked htold hheld
      hnears ext'
  · have ho := Instance.handleMessage_of_held ext hheld
    have ho' := Instance.handleMessage_of_held ext' (i := (Instance.handleMessage E ext m
      (run E C first calls).inst).state) (m := m) (E := E) (by
        rw [ho]
        exact { hheld with })
    rw [ho', ho]
    exact ⟨rfl, rfl, rfl, rfl⟩
  · exact Instance.handleMessage_gathers ext habreast hchecked htold hnears ext'

theorem plain_able (a : Address) : (Setup.plain a).Able :=
  ⟨fun _ => ⟨_, rfl⟩, Setup.plain_sound a⟩

/-- The prepare of the validator 2 for a block in this round. -/
def secondPrepare (n : UInt32) : Message :=
  .prepare (.plain 2 ⟨⟨1, n⟩, Scheme.plain.digest (.plain 1 [])⟩)

/-- The round change of the validator 2 to this round. -/
def secondRoundChange (n : UInt32) : Message :=
  .roundChange ⟨.plain 2 ⟨⟨1, n⟩, none⟩, none, [], rfl⟩

/-- The validator 1 of two, once the other announced a round far ahead. -/
def outrun : Instance :=
  let i := (run (.plain (.ofNat 1)) (.plain 1) .plain []).inst
  { i with roundChanges := i.roundChanges.announce (.ofNat 2) 20 }

theorem far_second :
    (run (.plain (.ofNat 1)) (.plain 1) .plain []).inst.roundChanges.Far 20 := by
  unfold RoundChanges.Far
  decide +kernel

/-- It is too far ahead to be gathered, but the node goes there early. -/
theorem run_outrun : (run (.plain (.ofNat 1)) (.plain 1) .plain
    [⟨.plain, .message (secondRoundChange 20)⟩]).inst =
      (Instance.changeRound (.plain (.ofNat 1)) .plain 20 outrun).state := by
  have hearly : outrun.roundChanges.earlyTarget? (.plain 1) 0 = some 20 := by
    have hannounced : outrun.roundChanges.announced.values.filter ((0 : UInt32) < ·) = [20] := by
      decide +kernel
    rw [RoundChanges.earlyTarget?, hannounced, List.mergeSort_singleton]
    rfl
  show (Instance.handleMessage (.plain (.ofNat 1)) .plain (secondRoundChange 20)
    (run (.plain (.ofNat 1)) (.plain 1) .plain []).inst).state = _
  rw [Instance.handleMessage_of_height _ (by decide +kernel), Handler.absorb_state,
    secondRoundChange, Instance.dispatch, Instance.handleRoundChange_of_ok _ rfl
      (by decide +kernel) (RoundChanges.append_of_far (a := .ofNat 2) (by decide +kernel) far_second)]
  show (Instance.follow (.plain (.ofNat 1)) (.plain 1) .plain outrun.roundChanges 0 none
    outrun).state = _
  rw [Instance.follow, hearly]
  rfl

theorem nears_outrun : Nears .plain (.plain (.ofNat 1))
    (run (.plain (.ofNat 1)) (.plain 1) .plain []).inst (secondRoundChange 20) := by
  have hstate : (Instance.handleMessage (.plain (.ofNat 1)) .plain (secondRoundChange 20)
      (run (.plain (.ofNat 1)) (.plain 1) .plain []).inst).state =
        (Instance.changeRound (.plain (.ofNat 1)) .plain 20 outrun).state := run_outrun
  refine ⟨far_second, _, .ofNat 2, rfl, by decide +kernel, ?_⟩
  rw [hstate]
  refine ⟨?_, ?_, ?_⟩
  · unfold Instance.Open
    decide +kernel
  · unfold RoundChanges.Far
    decide +kernel
  · unfold RoundChanges.HasVote
    decide +kernel

theorem run_again_second :
    let E := Setup.plain (.ofNat 1)
    let i := (run E (.plain 3) .plain []).inst
    let once (m : Message) := Instance.handleMessage E .plain m i
    let again (m : Message) := Instance.handleMessage E .plain m (once m).state
    let j := (run E (.plain 1) .plain []).inst
    let rc := secondRoundChange 20
    E.Able ∧ Collaborators.plain.Takes ∧
      ¬ Held E i (secondPrepare 0) ∧ ¬ Nears .plain E i (secondPrepare 0) ∧
      Repeats (once (secondPrepare 0)) (again (secondPrepare 0)) ∧
      Held E i (secondPrepare 1) ∧ (once (secondPrepare 1)).effects = [] ∧
      Nears .plain E j rc ∧ ∃ a, rc.author .plain = .ok a ∧
        RoundChanges.HasVote ((Instance.handleMessage E .plain rc
          (Instance.handleMessage E .plain rc j).state).state.roundChanges.gathering 20) a := by
  have hable := plain_able (.ofNat 1)
  have htakes : Collaborators.plain.Takes := fun _ _ => rfl
  have hnow : ¬ Held (.plain (.ofNat 1)) (run (.plain (.ofNat 1)) (.plain 3) .plain []).inst
      (secondPrepare 0) :=
    fun h => absurd h.later (by decide +kernel)
  have hvote : ¬ Nears .plain (.plain (.ofNat 1))
      (run (.plain (.ofNat 1)) (.plain 3) .plain []).inst (secondPrepare 0) := by
    rintro ⟨-, rc, a, hrc, -⟩
    cases hrc
  have hlater : Held (.plain (.ofNat 1)) (run (.plain (.ofNat 1)) (.plain 3) .plain []).inst
      (secondPrepare 1) :=
    ⟨.inl rfl, by decide +kernel, by decide +kernel, .ofNat 2, by decide +kernel,
      by decide +kernel⟩
  exact ⟨hable, htakes, hnow, hvote,
    (run_again hable (.plain 3) .plain [] htakes .plain (secondPrepare 0)).1 hnow hvote, hlater,
    ((run_again hable (.plain 3) .plain [] htakes .plain (secondPrepare 1)).2.1 hlater).1,
    nears_outrun,
    (run_again hable (.plain 1) .plain [] htakes .plain (secondRoundChange 20)).2.2 nears_outrun⟩

/-- A vote for the next round that comes twice is held twice, and a round change that brings the node
to its round is gathered when it comes again, and may then justify the round. -/
theorem run_differs_again :
    (Setup.plain (.ofNat 1)).Able ∧ Collaborators.plain.Takes ∧
      (run (.plain (.ofNat 1)) (.plain 3) .plain
        [⟨.plain, .message (secondPrepare 1)⟩]).inst.backlog.held = 1 ∧
      (run (.plain (.ofNat 1)) (.plain 3) .plain
        [⟨.plain, .message (secondPrepare 1)⟩,
          ⟨.plain, .message (secondPrepare 1)⟩]).inst.backlog.held = 2 ∧
      (run (.plain (.ofNat 1)) (.plain 1) .plain
        [⟨.plain, .message (secondRoundChange 20)⟩]).inst.phase = .roundChanging ∧
      (run (.plain (.ofNat 1)) (.plain 1) .plain
        [⟨.plain, .message (secondRoundChange 20)⟩,
          ⟨.plain, .message (secondRoundChange 20)⟩]).inst.phase = .newRound := by
  refine ⟨plain_able _, fun _ _ => rfl, by decide +kernel, by decide +kernel, ?_, ?_⟩
  · rw [run_outrun]
    decide +kernel
  · show (Instance.handleMessage (.plain (.ofNat 1)) .plain (secondRoundChange 20)
      (run (.plain (.ofNat 1)) (.plain 1) .plain
        [⟨.plain, .message (secondRoundChange 20)⟩]).inst).state.phase = _
    rw [run_outrun]
    decide +kernel

end History

end BlockAgreement
