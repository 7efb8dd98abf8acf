import Mathlib
import BlockAgreement.Proofs.Conflict
import BlockAgreement.Proofs.Pace

/-! A node keeps abreast of the others. Between two calls no more validators than may be faulty have
announced a round above the node's own: as soon as one more has, the node goes on, and where it
goes no more than these are ahead. An early move is therefore never left over for a later call. -/

namespace BlockAgreement

namespace RoundChanges

variable {S : Scheme} {C : Committee} {p q : RoundChanges} {a b : Address} {m n t here : UInt32}
  {rc : RoundChange} {x : Except Error (Option Justification)}

/-! ### Who is ahead -/

theorem ahead_mono (h : m ≤ n) : p.ahead n ⊆ p.ahead m := by
  intro a ha
  obtain ⟨k, hk, hlt⟩ := mem_ahead.1 ha
  exact mem_ahead.2 ⟨k, hk, UInt32.lt_of_le_of_lt h hlt⟩

theorem ahead_congr (h : q.announced = p.announced) : q.ahead n = p.ahead n := by
  rw [ahead, h, ahead]

theorem find?_announce : (p.announce a t).announced.find? b =
    if b = a then some (max ((p.announced.find? a).getD t) t) else p.announced.find? b :=
  Table.find?_insert ..

theorem ahead_announce : (p.announce a t).ahead n ⊆ insert a (p.ahead n) := by
  intro b hb
  obtain ⟨k, hk, hlt⟩ := mem_ahead.1 hb
  rw [find?_announce] at hk
  split at hk
  · next hba => exact hba ▸ Finset.mem_insert_self ..
  · exact Finset.mem_insert_of_mem (mem_ahead.2 ⟨k, hk, hlt⟩)

/-- Who announces a round that is not above `n` is not ahead for that. -/
theorem ahead_announce_of_le (h : t ≤ n) : (p.announce a t).ahead n ⊆ p.ahead n := by
  intro b hb
  obtain ⟨k, hk, hlt⟩ := mem_ahead.1 hb
  rw [find?_announce] at hk
  split at hk
  · next hba =>
    subst hba
    cases hk
    rcases max_eq_or ((p.announced.find? b).getD t) t with heq | heq <;> rw [heq] at hlt
    · cases hfind : p.announced.find? b with
      | none =>
        rw [hfind] at hlt
        exact absurd hlt (UInt32.not_lt.2 h)
      | some k =>
        rw [hfind] at hlt
        exact mem_ahead.2 ⟨k, hfind, hlt⟩
    · exact absurd hlt (UInt32.not_lt.2 h)
  · exact mem_ahead.2 ⟨k, hk, hlt⟩

theorem le_max_left (m n : UInt32) : m ≤ max m n := by
  show m ≤ if m ≤ n then n else m
  split
  · assumption
  · exact UInt32.le_refl _

theorem le_max_right (m n : UInt32) : n ≤ max m n := by
  show n ≤ if m ≤ n then n else m
  split
  · exact UInt32.le_refl _
  · next h => exact UInt32.le_of_lt (UInt32.not_le.1 h)

theorem max_of_le (h : m ≤ n) : max m n = n := if_pos h

theorem max_of_ge (h : n ≤ m) : max m n = m := by
  show (if m ≤ n then n else m) = m
  split
  · next h' => exact UInt32.le_antisymm h h'
  · rfl

theorem earlyTarget?_eq_none (h : (p.ahead here).card ≤ C.faultTolerance) :
    p.earlyTarget? C here = none := by
  rw [card_ahead, List.countP_eq_length_filter] at h
  exact List.getElem?_eq_none (by rw [List.length_mergeSort]; exact h)

theorem card_ahead_of_none (h : p.earlyTarget? C here = none) :
    (p.ahead here).card ≤ C.faultTolerance := by
  rw [card_ahead, List.countP_eq_length_filter]
  simpa [earlyTarget?] using h

/-- Where a falling list has an entry, only what comes before is above it. -/
theorem countP_le_of_getElem? {l : List UInt32} {k : Nat}
    (hl : l.Pairwise fun a b => b ≤ a) (ht : l[k]? = some t) : l.countP (t < ·) ≤ k := by
  obtain ⟨hk, rfl⟩ := List.getElem?_eq_some_iff.1 ht
  have hnone : (l.drop k).countP (l[k] < ·) = 0 := by
    rw [List.countP_eq_zero]
    intro y hy
    obtain ⟨j, hj, rfl⟩ := List.mem_iff_getElem.1 hy
    rw [List.getElem_drop]
    rcases Nat.eq_or_lt_of_le (Nat.le_add_right k j) with heq | hlt
    · simp [← heq]
    · have := List.pairwise_iff_getElem.1 hl k (k + j) hk (by rw [List.length_drop] at hj; omega) hlt
      simpa using UInt32.not_lt.2 this
  calc l.countP (l[k] < ·)
    _ = (l.take k).countP (l[k] < ·) + (l.drop k).countP (l[k] < ·) := by
      rw [← List.countP_append, List.take_append_drop]
    _ ≤ k := by
      rw [hnone, Nat.add_zero]
      exact List.countP_le_length.trans (List.length_take_le ..)

/-- Where a node goes early, no more than may be faulty are ahead. -/
theorem card_ahead_of_earlyTarget (h : p.earlyTarget? C here = some n) :
    (p.ahead n).card ≤ C.faultTolerance := by
  have hcount := countP_le_of_getElem? (sorted_mergeSort _) h
  rw [(List.mergeSort_perm ..).countP_eq] at hcount
  have hlt := lt_of_earlyTarget h
  rw [card_ahead]
  rwa [List.countP_filter, List.countP_congr] at hcount
  intro y _
  simp only [Bool.and_eq_true, decide_eq_true_eq]
  exact ⟨fun hy => hy.1, fun hy => ⟨hy, UInt32.lt_trans hlt hy⟩⟩

/-- What was announced last, the highest first. -/
def ranked (p : RoundChanges) : List UInt32 := p.announced.values.mergeSort fun a b => b ≤ a

theorem card_ahead_eq_countP_ranked (p : RoundChanges) (n : UInt32) :
    (p.ahead n).card = p.ranked.countP (n < ·) := by
  rw [card_ahead, ranked, (List.mergeSort_perm ..).countP_eq]

/-- No more than `k` are ahead of a round that the `k + 1`-st highest announcement does not pass. -/
theorem card_ahead_le_iff {k : Nat} :
    (p.ahead n).card ≤ k ↔ ∀ t, p.ranked[k]? = some t → t ≤ n := by
  rw [card_ahead_eq_countP_ranked]
  constructor
  · intro hcard t ht
    by_contra hlt
    exact absurd (lt_countP_of_getElem? (sorted_mergeSort _) ht (UInt32.not_le.1 hlt))
      (Nat.not_lt.2 hcard)
  · intro hle
    cases ht : p.ranked[k]? with
    | none => exact List.countP_le_length.trans (List.getElem?_eq_none_iff.1 ht)
    | some t =>
      refine le_trans (List.countP_mono_left fun x _ hx => ?_)
        (countP_le_of_getElem? (sorted_mergeSort _) ht)
      rw [decide_eq_true_eq] at hx ⊢
      exact UInt32.lt_of_le_of_lt (hle t ht) hx

/-! ### One more round change -/

/-- The author announced this round or a later one. -/
def Announced (p : RoundChanges) (a : Address) (t : UInt32) : Prop :=
  ∃ n, p.announced.find? a = some n ∧ t ≤ n

theorem announced_announce (p : RoundChanges) (a : Address) (t : UInt32) :
    (p.announce a t).Announced a t := by
  rw [Announced, find?_announce, if_pos rfl]
  exact ⟨_, rfl, le_max_right ..⟩

/-- What an author announced is never taken back. -/
theorem Announced.announce (h : p.Announced b m) (a : Address) (t : UInt32) :
    (p.announce a t).Announced b m := by
  obtain ⟨k, hk, hmk⟩ := h
  rw [Announced, find?_announce]
  split
  · next hba =>
    subst hba
    rw [hk]
    exact ⟨_, rfl, UInt32.le_trans hmk (le_max_left ..)⟩
  · exact ⟨k, hk, hmk⟩

namespace Leaves

theorem current (h : Leaves S C rc p x q) : q.current = p.current ∧ q.horizon = p.horizon := by
  cases h <;> exact ⟨rfl, rfl⟩

theorem announced (h : Leaves S C rc p x q) :
    q.announced = p.announced ∨ ∃ a, C.checkRoundChange S rc = .ok a ∧
      q.announced = (p.announce a rc.round.number).announced := by
  cases h with
  | refused => exact .inl rfl
  | far ha | known ha | added ha => exact .inr ⟨_, ha, rfl⟩

theorem card_ahead_le (h : Leaves S C rc p x q) (n : UInt32) :
    (q.ahead n).card ≤ (p.ahead n).card + 1 := by
  rcases h.announced with hq | ⟨a, -, hq⟩
  · rw [ahead_congr hq]
    exact Nat.le_succ _
  · rw [ahead_congr hq]
    exact (Finset.card_le_card ahead_announce).trans (Finset.card_insert_le ..)

theorem ahead_subset (h : Leaves S C rc p x q) (hn : rc.round.number ≤ n) :
    q.ahead n ⊆ p.ahead n := by
  rcases h.announced with hq | ⟨a, -, hq⟩
  · rw [ahead_congr hq]
  · rw [ahead_congr hq]
    exact ahead_announce_of_le hn

end Leaves

/-- Whoever is gathered for a round has announced it. -/
def Told (p : RoundChanges) : Prop :=
  ∀ k, ∀ v ∈ (p.gathering k).votes, p.Announced v.1 k

theorem told_new (horizon : Nat) : (new horizon).Told := fun _ => nofun

theorem Leaves.told (h : Leaves S C rc p x q) (hp : p.Told) : q.Told := by
  have hkept : ∀ a, ∀ k, ∀ v ∈ (p.gathering k).votes,
      (p.announce a rc.round.number).Announced v.1 k :=
    fun a k v hv => (hp k v hv).announce a _
  cases h with
  | refused => exact hp
  | far => exact hkept _
  | known =>
    intro k v hv
    rw [votes_store] at hv
    split at hv
    · next hk => exact hkept _ k v (hk ▸ hv)
    · exact hkept _ k v hv
  | @added a =>
    intro k v hv
    rw [votes_store] at hv
    split at hv
    · next hk =>
      rcases List.mem_append.1 hv with hv | hv
      · exact hkept a k v (hk ▸ hv)
      · obtain rfl := List.mem_singleton.1 hv
        exact hk ▸ announced_announce ..
    · exact hkept a k v hv

theorem Told.discardBefore (hp : p.Told) (n : UInt32) : (p.discardBefore n).Told := by
  intro k v hv
  rw [gathering_discardBefore] at hv
  split at hv
  · exact hp k v hv
  · cases hv

theorem Later.told (h : Later S C p q) (hp : p.Told) : q.Told := by
  induction h with
  | refl => exact hp
  | @append r rc _ ih =>
    obtain ⟨x, r', ho, h⟩ := append_leaves (S := S) (C := C) rc r
    rw [ho]
    exact h.told ih
  | discardBefore n _ ih => exact ih.discardBefore n

/-- Claims in conflict take two round changes, and those of a quorum. -/
theorem lt_card_of_conflict {g : Gathering} {round : RoundId} {e : Error}
    (hg : g.Checked S C round)
    (h : Justification.assemble? S round (g.votes.map (·.2)) C.quorum = .error e) :
    C.faultTolerance + 1 < (g.votes.map (·.1)).toFinset.card := by
  rw [List.toFinset_card_of_nodup hg.nodup, List.length_map]
  have hquorum : C.quorum ≤ g.votes.length := by
    by_contra hfew
    rw [Justification.assemble?, hg.contributing_eq, List.length_map,
      if_pos (Nat.lt_of_not_le hfew)] at h
    cases h
  have htwo : 2 ≤ g.votes.length := by
    obtain ⟨c, -, -, d, -, -, -, rfl⟩ :=
      Claim.highest?_eq_error (Justification.assemble?_eq_error h)
    obtain ⟨hne, ⟨v, hv, hc⟩, w, hw, hd⟩ := hg.exists_claims h
    rcases hvotes : g.votes with _ | ⟨u, _ | ⟨u', rest⟩⟩
    · rw [hvotes] at hv
      cases hv
    · rw [hvotes, List.mem_singleton] at hv hw
      subst hv hw
      exact absurd (congrArg Claim.digest (Option.some.inj (hc.symm.trans hd))) hne
    · simp
  have := Nat.pos_of_ne_zero fun h => C.validators_ne_nil (List.eq_nil_of_length_eq_zero h)
  simp only [Committee.quorum, Committee.faultTolerance, BlockAgreement.quorum,
    BlockAgreement.faultTolerance] at *
  omega

/-- A conflict is not found where it would bring one more ahead. -/
theorem Leaves.card_ahead_of_error {e : Error} (h : Leaves S C rc p (.error e) q)
    (hp : p.Checked S C) (htold : p.Told) (hle : here ≤ rc.round.number)
    (hahead : (p.ahead here).card ≤ C.faultTolerance) :
    (q.ahead here).card ≤ C.faultTolerance := by
  rcases UInt32.lt_or_eq_of_le hle with hlt | heq
  · have hcount := h.card_ahead_le here
    have hqtold := h.told htold rc.round.number
    have hqchecked := h.appends.gathers.checked hp rc.round.number
    cases h with
    | refused => exact hahead
    | @added a _ ha _ hg hx =>
      rw [gathering_store, if_pos rfl] at hqtold hqchecked
      rw [← (Committee.checkRoundChange_eq_ok_iff.1 ha).2.1] at hqchecked
      have hmany := lt_card_of_conflict hqchecked hx.symm
      dsimp only at hmany
      -- All of these have announced a round above.
      have hsub : (((p.gathering rc.round.number).votes ++ [(a, rc)]).map (·.1)).toFinset ⊆
          (p.announce a rc.round.number).ahead here := by
        intro b hb
        obtain ⟨v, hv, rfl⟩ := List.mem_map.1 (List.mem_toFinset.1 hb)
        obtain ⟨n, hn, hle⟩ := hqtold v hv
        exact mem_ahead.2 ⟨n, hn, UInt32.lt_of_lt_of_le hlt hle⟩
      have hcard := Finset.card_le_card hsub
      have hstored : ((p.announce a rc.round.number).store rc.round.number
          ⟨(p.gathering rc.round.number).votes ++ [(a, rc)], justifies (.error e)⟩).ahead here =
            (p.announce a rc.round.number).ahead here := rfl
      rw [hstored] at hcount
      omega
  · exact (Finset.card_le_card (h.ahead_subset (heq ▸ UInt32.le_refl _))).trans hahead

end RoundChanges

theorem le_nextNumber (n : UInt32) : n ≤ nextNumber n := by
  by_cases hn : n = lastNumber
  · rw [hn, nextNumber_lastNumber]
    exact UInt32.le_refl _
  · exact UInt32.le_of_lt (lt_nextNumber n hn)

/-! ### Instances -/

namespace Instance

open Handler (Keeps Anything)

variable {E : Setup} {C : Committee} {i : Instance} {id : RoundId} {p : RoundChanges} {n : UInt32}

variable (E C) in
/-- What is gathered is gathered for the round of the node, and where it may go early, no more than
may be faulty are ahead of it. -/
structure Abreast (id : RoundId) (p : RoundChanges) : Prop where
  current : p.current = id.number
  ahead : E.config.earlyRoundChange = true → (p.ahead id.number).card ≤ C.faultTolerance

variable (E C) in
/-- A round that a node may come to from the one it is in. -/
structure Within (n : UInt32) (id : RoundId) (p : RoundChanges) : Prop where
  current : p.current = id.number
  le : id.number ≤ n
  ahead : E.config.earlyRoundChange = true → (p.ahead n).card ≤ C.faultTolerance

variable (E C) in
/-- Abreast in this round. -/
def AbreastAt (n : UInt32) (id : RoundId) (p : RoundChanges) : Prop :=
  id.number = n ∧ Abreast E C id p

theorem abreast_new (horizon : Nat) : Abreast E C ⟨C.height, 0⟩ (.new horizon) :=
  ⟨rfl, fun _ => Nat.zero_le _⟩

theorem Abreast.within (h : Abreast E C id p) (hn : id.number ≤ n) : Within E C n id p :=
  ⟨h.current, hn, fun he => (Finset.card_le_card (RoundChanges.ahead_mono hn)).trans (h.ahead he)⟩

theorem Within.enter (h : Within E C n id p) :
    AbreastAt E C n ⟨C.height, n⟩ (p.discardBefore n) := by
  refine ⟨rfl, ?_, h.ahead⟩
  show max p.current n = n
  rw [h.current, RoundChanges.max_of_le h.le]

variable (ext : Collaborators)

/-- Entering a round only drops what was gathered for those before. -/
theorem advance_has (hc : i.committee = C) (n : UInt32) : (advance E ext n i).state.Has C
    fun id p => id = ⟨C.height, n⟩ ∧ p = i.roundChanges.discardBefore n := by
  let entered : Instance := { i with
    round := freshRound E i.committee n
    roundChanges := i.roundChanges.discardBefore n }
  have hentered : entered.Has C
      fun id p => id = ⟨C.height, n⟩ ∧ p = i.roundChanges.discardBefore n :=
    ⟨hc, by rw [← hc]; rfl, rfl⟩
  rw [advance, Handler.get_bind, Handler.ask_bind, Handler.set_bind, Handler.ask_bind]
  exact (replay_keeps ext n entered hentered).1

theorem advance_abreast (hi : i.Has C (Within E C n)) :
    (advance E ext n i).state.Has C (AbreastAt E C n) := by
  obtain ⟨hc, hid, hp⟩ := advance_has (E := E) ext hi.committee n
  refine ⟨hc, ?_⟩
  rw [hid, hp]
  exact hi.holds.enter

theorem enter_abreast {j : Justification} (hi : i.Has C (Within E C j.round.number)) :
    (enter E ext j i).state.Has C (AbreastAt E C j.round.number) :=
  has_overlooks.enter ext (fun _ => advance_abreast ext hi) fun hge => by
    have hid := UInt32.le_antisymm hi.holds.le (UInt32.not_lt.1 hge)
    exact ⟨hi.committee, hid, hi.holds.current, fun he => hid ▸ hi.holds.ahead he⟩

/-- The node's own round change is for the round it is in, and so is what comes of it. -/
theorem append_keeps_at {rc : RoundChange} (hrc : rc.round.number = n) :
    Keeps (Has C (AbreastAt E C n)) (fun j? => ∀ j, j? = some j → j.round.number = n)
      (onRoundChanges (RoundChanges.append E.scheme C rc)) := by
  intro i hi
  obtain ⟨x, q, ho, h⟩ :=
    RoundChanges.append_leaves (S := E.scheme) (C := C) rc i.roundChanges
  rw [onRoundChanges_apply ho]
  refine ⟨⟨hi.committee, hi.holds.1, ?_, fun he => ?_⟩, ?_⟩
  · exact h.current.1.trans hi.holds.2.current
  · refine (Finset.card_le_card (h.ahead_subset ?_)).trans (hi.holds.2.ahead he)
    rw [hrc, ← hi.holds.1]
    exact UInt32.le_refl _
  · rintro _ rfl j rfl
    rw [Justification.round_of_assemble h.appends.justified.2, hrc]

theorem changeRound_abreast (hi : i.Has C (Within E C n)) :
    (changeRound E ext n i).state.Has C (AbreastAt E C n) := by
  rw [changeRound]
  refine Keeps.after (advance_abreast ext hi) fun _ =>
    .bind (has_overlooks.mark true) fun _ _ => .get_bind fun i hi => ?_
  split
  · refine .ofExcept_bind fun rc hrc => .bind (.ask _) fun _ _ => ?_
    rw [hi.committee]
    have hround : rc.round.number = n := by
      rw [(Signer.changeRound_eq_ok hrc).1]
      exact hi.holds.1
    refine .bind (append_keeps_at hround) fun j? hj => ?_
    cases j? with
    | none => exact .done
    | some j =>
      intro k hk
      have hn := hj j rfl
      subst hn
      exact ⟨enter_abreast ext ⟨hk.committee, hk.holds.2.within (hk.holds.1 ▸ UInt32.le_refl _)⟩,
        fun _ _ => trivial⟩
  · exact .done

theorem Has.abreast (hi : i.Has C (AbreastAt E C n)) : i.Has C (Abreast E C) :=
  ⟨hi.committee, hi.holds.2⟩

theorem handleProposal_abreast (hi : i.Has C (Abreast E C)) (m : Proposal) :
    (handleProposal E ext m i).state.Has C (Abreast E C) :=
  has_overlooks.handleProposal ext hi (fun _ hlt =>
    (advance_abreast ext ⟨hi.committee, hi.holds.within (UInt32.le_of_lt hlt)⟩).abreast) m

/-- What a node does with a round change that it gathered. -/
def follow (E : Setup) (C : Committee) (ext : Collaborators) (q : RoundChanges) (here : UInt32) :
    Option Justification → Handler Instance Unit
  | some j => enter E ext j
  | none =>
    if E.config.earlyRoundChange then
      match q.earlyTarget? C here with
      | some n => changeRound E ext n
      | none => pure ()
    else pure ()

section

variable {rc : RoundChange} {q : RoundChanges}

theorem handleRoundChange_of_past
    (h : ¬ (i.round.id.number ≤ rc.round.number && !i.isCommitted) = true) :
    handleRoundChange E ext rc i = ⟨.ok (), i, []⟩ := by
  rw [handleRoundChange, Handler.get_bind, if_neg h]
  rfl

theorem handleRoundChange_of_error {e : Error} (hc : i.committee = C)
    (h : (i.round.id.number ≤ rc.round.number && !i.isCommitted) = true)
    (ho : RoundChanges.append E.scheme C rc i.roundChanges = ⟨.error e, q, []⟩) :
    handleRoundChange E ext rc i = ⟨.error e, { i with roundChanges := q }, []⟩ := by
  subst hc
  rw [handleRoundChange, Handler.get_bind, if_pos h,
    Handler.bind_of_error _ (onRoundChanges_apply ho)]

theorem handleRoundChange_of_ok {j? : Option Justification} (hc : i.committee = C)
    (h : (i.round.id.number ≤ rc.round.number && !i.isCommitted) = true)
    (ho : RoundChanges.append E.scheme C rc i.roundChanges = ⟨.ok j?, q, []⟩) :
    handleRoundChange E ext rc i =
      follow E C ext q i.round.id.number j? { i with roundChanges := q } := by
  subst hc
  rw [handleRoundChange, Handler.get_bind, if_pos h,
    Handler.bind_of_ok _ (onRoundChanges_apply ho)]
  cases j? with
  | some j => rfl
  | none =>
    show (if E.config.earlyRoundChange then _ else _ : Handler Instance Unit) _ = _
    rfl

end

theorem handleRoundChange_abreast (hi : i.Has C (Abreast E C))
    (hchecked : i.roundChanges.Checked E.scheme C) (htold : i.roundChanges.Told)
    (rc : RoundChange) : (handleRoundChange E ext rc i).state.Has C (Abreast E C) := by
  by_cases hguard : (i.round.id.number ≤ rc.round.number && !i.isCommitted) = true
  · obtain ⟨x, q, ho, h⟩ :=
      RoundChanges.append_leaves (S := E.scheme) (C := C) rc i.roundChanges
    have hcurrent : q.current = i.round.id.number := h.current.1.trans hi.holds.current
    have hle : i.round.id.number ≤ rc.round.number := by
      simp only [Bool.and_eq_true, decide_eq_true_eq] at hguard
      exact hguard.1
    cases x with
    | error e =>
      rw [handleRoundChange_of_error ext hi.committee hguard ho]
      exact ⟨hi.committee, hcurrent,
        fun he => h.card_ahead_of_error hchecked htold hle (hi.holds.ahead he)⟩
    | ok j? =>
      rw [handleRoundChange_of_ok ext hi.committee hguard ho]
      cases j? with
      | some j =>
        have hround := Justification.round_of_assemble h.appends.justified.2
        refine (enter_abreast (i := { i with roundChanges := q }) ext
          ⟨hi.committee, hcurrent, hround ▸ hle, fun he => ?_⟩).abreast
        -- The new announcement is of the round that is entered.
        rw [hround]
        exact (Finset.card_le_card ((h.ahead_subset (UInt32.le_refl _)).trans
          (RoundChanges.ahead_mono hle))).trans (hi.holds.ahead he)
      | none =>
        rw [follow]
        split
        · cases hn : q.earlyTarget? C i.round.id.number with
          | none =>
            exact ⟨hi.committee, hcurrent, fun _ => RoundChanges.card_ahead_of_none hn⟩
          | some n =>
            exact (changeRound_abreast (i := { i with roundChanges := q }) ext
              ⟨hi.committee, hcurrent, UInt32.le_of_lt (RoundChanges.lt_of_earlyTarget hn),
                fun _ => RoundChanges.card_ahead_of_earlyTarget hn⟩).abreast
        · next hoff => exact ⟨hi.committee, hcurrent, fun he => absurd he hoff⟩
  · rw [handleRoundChange_of_past ext hguard]
    exact hi

theorem handleMessage_abreast (hi : i.Has C (Abreast E C))
    (hchecked : i.roundChanges.Checked E.scheme C) (htold : i.roundChanges.Told) (m : Message) :
    (handleMessage E ext m i).state.Has C (Abreast E C) := by
  unfold handleMessage
  rw [Handler.get_bind]
  split
  · rw [Handler.absorb_state]
    cases m with
    | proposal p => exact handleProposal_abreast ext hi p
    | roundChange rc => exact handleRoundChange_abreast ext hi hchecked htold rc
    | prepare | commit => exact (handleVote_keeps ext _ i hi).1
  · exact hi

theorem roundExpired_abreast (hi : i.Has C (Abreast E C)) (round : RoundId) :
    (roundExpired E ext round i).state.Has C (Abreast E C) := by
  rw [roundExpired, Handler.get_bind]
  split
  · next hguard =>
    simp only [Bool.and_eq_true, decide_eq_true_eq] at hguard
    rw [Handler.absorb_state]
    refine (changeRound_abreast ext ⟨hi.committee, hi.holds.within ?_⟩).abreast
    rw [hguard.1]
    exact le_nextNumber _
  · exact hi

end Instance

namespace History

variable (E : Setup) (C : Committee) (first : Collaborators) (calls : List Call)

theorem run_checked : (run E C first calls).inst.roundChanges.Checked E.scheme C :=
  (run_later E C first calls).checked (RoundChanges.checked_new _)

theorem run_told : (run E C first calls).inst.roundChanges.Told :=
  (run_later E C first calls).told (RoundChanges.told_new _)

/-- After every call, no more than may be faulty are ahead of the node. -/
theorem run_abreast : (run E C first calls).inst.Has C (Instance.Abreast E C) := by
  induction calls using List.reverseRecOn with
  | nil =>
    have hnew : (Instance.new E C).Has C (Instance.Abreast E C) :=
      ⟨rfl, Instance.abreast_new _⟩
    exact (Instance.has_overlooks.start first _ hnew).1
  | append_singleton calls c ih =>
    rw [run_append]
    show (Instance.handle E c (run E C first calls).inst).state.Has C _
    rw [Instance.handle]
    cases c.input with
    | message m =>
      exact Instance.handleMessage_abreast c.ext ih (run_checked E C first calls)
        (run_told E C first calls) m
    | roundExpiry round => exact Instance.roundExpired_abreast c.ext ih round

/-- A node that goes on early keeps up with the others. Whatever it was given and however that
ended, no more validators than may be faulty have announced a round above its own: its round is at
least the highest that one more of them has announced. -/
theorem keeps_up (he : E.config.earlyRoundChange = true) :
    ((run E C first calls).inst.roundChanges.ahead
        (run E C first calls).inst.round.id.number).card ≤ C.faultTolerance ∧
      ∀ t, (run E C first calls).inst.roundChanges.ranked[C.faultTolerance]? = some t →
        t ≤ (run E C first calls).inst.round.id.number := by
  have hcard := (run_abreast E C first calls).holds.ahead he
  exact ⟨hcard, RoundChanges.card_ahead_le_iff.1 hcard⟩

/-- Two of four validators move far on, farther than round changes are gathered. -/
def leapingCalls : List Call :=
  [(1, 2000), (2, 1000)].map fun (k, number) =>
    ⟨.plain, .message (.roundChange ⟨.plain k ⟨⟨1, number⟩, none⟩, none, [], rfl⟩)⟩

theorem keeps_up_leaping :
    let E := Setup.plain (.ofNat 3)
    let C := Committee.plain 3
    let i := (run E C .plain leapingCalls).inst
    E.config.earlyRoundChange = true ∧ i.round.id.number = 1000 ∧
      i.roundChanges.ranked = [2000, 1000, 1000] ∧
        (i.roundChanges.ahead i.round.id.number).card ≤ C.faultTolerance ∧
          ∀ t, i.roundChanges.ranked[C.faultTolerance]? = some t → t ≤ i.round.id.number := by
  refine ⟨rfl, by cbv, ?_, keeps_up (.plain (.ofNat 3)) (.plain 3) .plain leapingCalls rfl⟩
  cbv

end History

end BlockAgreement
