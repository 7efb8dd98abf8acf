import BlockAgreement.Proofs.Assembly
import BlockAgreement.Proofs.Tracked

/-! What a node holds of the round changes of a height. Those to rounds that are over are dropped and
those too far ahead are not taken up, so there is room for no more than one of each validator for
each round within the horizon. A quorum of them justifies the round, and that once, or is in
conflict. -/

namespace BlockAgreement

/-- The justification, where one came. -/
def Justification.came (x : Except Error (Option Justification)) : List Justification :=
  x.toOption.join.toList

namespace RoundChanges

open Justification (came Disputed)

variable (S : Scheme) (C : Committee)

/-- What is gathered is near and checked, and what is not used up of it is short of a quorum or in
conflict. -/
structure Kept (here : UInt32) (far : Nat) (p : RoundChanges) : Prop where
  current : p.current = here
  horizon : p.horizon = far
  near : ∀ x ∈ p.gatherings.entries, here ≤ x.1 ∧ x.1.toNat ≤ here.toNat + far
  checked : p.Checked S C
  disputed : ∀ k, C.quorum ≤ (p.gathering k).votes.length → (p.gathering k).justified = false →
    Disputed ((p.gathering k).votes.map (·.2))

/-- The justifications that came are of different rounds, each one past or used up. -/
structure Spent (p : RoundChanges) (js : List Justification) : Prop where
  nodup : (js.map Justification.round).Nodup
  used : ∀ j ∈ js, j.round.number < p.current ∨ (p.gathering j.round.number).justified = true

variable {S C} {p q : RoundChanges} {here n k : UInt32} {far : Nat} {rc : RoundChange}
  {x : Except Error (Option Justification)} {js : List Justification}

theorem kept_new : (new far).Kept S C 0 far where
  current := rfl
  horizon := rfl
  near := nofun
  checked := checked_new far
  disputed _ hq _ := absurd C.quorum_pos (Nat.not_lt.2 hq)

theorem Kept.discardBefore (hp : p.Kept S C here far) (hn : here ≤ n) :
    (p.discardBefore n).Kept S C n far where
  current := by
    show max p.current n = n
    rw [hp.current, max_of_le hn]
  horizon := hp.horizon
  near := by
    intro x hx
    obtain ⟨hx, hle⟩ := Table.mem_filter.1 hx
    have hfar := (hp.near x hx).2
    have hn := UInt32.le_iff_toNat_le.1 hn
    exact ⟨of_decide_eq_true hle, by omega⟩
  checked := hp.checked.discardBefore n
  disputed := by
    intro k
    rw [gathering_discardBefore]
    split
    · exact hp.disputed k
    · exact fun hq _ => absurd C.quorum_pos (Nat.not_lt.2 hq)

theorem Spent.discardBefore (hp : p.Spent js) (n : UInt32) : (p.discardBefore n).Spent js where
  nodup := hp.nodup
  used := by
    intro j hj
    rw [gathering_discardBefore]
    rcases hp.used j hj with hpast | hused
    · exact .inl (UInt32.lt_of_lt_of_le hpast (le_max_left ..))
    · split
      · exact .inr hused
      · next hlt => exact .inl (UInt32.lt_of_lt_of_le (UInt32.not_le.1 hlt) (le_max_right ..))

/-! ### Room for round changes -/

/-- There are as many rounds within reach as the horizon has, and the current one. -/
theorem Kept.size_le (hp : p.Kept S C here far) : p.gatherings.size ≤ far + 1 := by
  have hnodup : (p.gatherings.keys.map UInt32.toNat).Nodup :=
    p.gatherings.nodup_keys.map fun _ _ => UInt32.toNat_inj.1
  have hsub : (p.gatherings.keys.map UInt32.toNat).toFinset ⊆
      Finset.Icc here.toNat (here.toNat + far) := by
    intro m hm
    obtain ⟨k, hk, rfl⟩ := List.mem_map.1 (List.mem_toFinset.1 hm)
    obtain ⟨x, hx, rfl⟩ := List.mem_map.1 hk
    exact Finset.mem_Icc.2 ⟨UInt32.le_iff_toNat_le.1 (hp.near x hx).1, (hp.near x hx).2⟩
  have hcard := Finset.card_le_card hsub
  rw [List.toFinset_card_of_nodup hnodup, List.length_map, Table.length_keys, Nat.card_Icc] at hcard
  omega

theorem mem_validators {g : Gathering} {round : RoundId} (hg : g.Checked S C round) :
    ∀ a ∈ g.votes.map (·.1), a ∈ C.validators := by
  intro a ha
  obtain ⟨v, hv, rfl⟩ := List.mem_map.1 ha
  exact Committee.contains_iff_mem.1 (Committee.author_eq_ok_iff.1 (hg.author_eq hv)).2

theorem Kept.held_le (hp : p.Kept S C here far) :
    (p.gatherings.values.map (·.votes.length)).sum ≤ (far + 1) * C.validators.length := by
  have heach : ∀ n ∈ p.gatherings.values.map (·.votes.length), n ≤ C.validators.length := by
    intro n hn
    obtain ⟨g, hg, rfl⟩ := List.mem_map.1 hn
    obtain ⟨⟨k, g⟩, hx, rfl⟩ := List.mem_map.1 hg
    have hchecked := hp.checked k
    rw [gathering, Table.find?_eq_some_iff.2 hx] at hchecked
    have hsub := (List.subperm_of_subset hchecked.nodup (mem_validators hchecked)).length_le
    rwa [List.length_map] at hsub
  have hsum := List.sum_le_card_nsmul _ _ heach
  rw [List.length_map, Table.values, List.length_map, smul_eq_mul] at hsum
  exact hsum.trans (Nat.mul_le_mul_right _ hp.size_le)

/-! ### One more round change -/

namespace Leaves

theorem gathering_eq (h : Leaves S C rc p x q) (hk : k ≠ rc.round.number) :
    q.gathering k = p.gathering k := by
  cases h with
  | refused | far => rfl
  | known | added => rw [gathering_store, if_neg hk, gathering_announce]

theorem near (h : Leaves S C rc p x q) (hp : p.Kept S C here far) (hle : here ≤ rc.round.number) :
    ∀ x ∈ q.gatherings.entries, here ≤ x.1 ∧ x.1.toNat ≤ here.toNat + far := by
  have hstored : ∀ {a g}, ¬ p.Far rc.round.number →
      ∀ x ∈ ((p.announce a rc.round.number).store rc.round.number g).gatherings.entries,
        here ≤ x.1 ∧ x.1.toNat ≤ here.toNat + far := by
    intro a g hnear x hx
    rcases Table.mem_of_mem_insert hx with rfl | hx
    · rw [Far, hp.current, hp.horizon] at hnear
      exact ⟨hle, by dsimp only; omega⟩
    · exact hp.near x hx
  cases h with
  | refused | far => exact hp.near
  | known _ hnear | added _ hnear => exact hstored hnear

/-- A quorum is put together, and where no justification comes of it, it is in conflict. -/
theorem disputed (h : Leaves S C rc p x q) (hp : p.Kept S C here far) (k : UInt32)
    (hquorum : C.quorum ≤ (q.gathering k).votes.length) (hclear : (q.gathering k).justified = false) :
    Disputed ((q.gathering k).votes.map (·.2)) := by
  by_cases hk : k = rc.round.number
  · have hchecked := h.appends.gathers.checked hp.checked k
    subst hk
    cases h with
    | refused | far => exact hp.disputed _ hquorum hclear
    | known =>
      rw [gathering_store, if_pos rfl] at hquorum hclear ⊢
      exact hp.disputed _ hquorum hclear
    | added ha _ _ hx =>
      rw [gathering_store, if_pos rfl] at hquorum hclear hchecked ⊢
      rw [← (Committee.checkRoundChange_eq_ok_iff.1 ha).2.1] at hchecked
      have hfirsts := hchecked.contributing_eq
      rw [Justification.contributing_eq_firsts] at hfirsts
      rcases x with e | _ | j
      · have hconflict := (Justification.exists_eq_error_iff.1 ⟨e, hx.symm⟩).2
        rwa [hfirsts] at hconflict
      · have hfew := Justification.assemble?_eq_ok_none_iff.1 hx.symm
        rw [hfirsts, List.length_map] at hfew
        exact absurd hfew (Nat.not_lt.2 hquorum)
      · cases hclear
  · rw [h.gathering_eq hk] at hquorum hclear ⊢
    exact hp.disputed k hquorum hclear

theorem kept (h : Leaves S C rc p x q) (hp : p.Kept S C here far) (hle : here ≤ rc.round.number) :
    q.Kept S C here far where
  current := h.current.1.trans hp.current
  horizon := h.current.2.trans hp.horizon
  near := h.near hp hle
  checked := h.appends.gathers.checked hp.checked
  disputed := h.disputed hp

/-- Only what a justification comes of is used up, and nothing that was used up before. -/
theorem came_spec (h : Leaves S C rc p x q) :
    came x = [] ∧ (∀ k, (q.gathering k).justified = (p.gathering k).justified) ∨
      ∃ j, came x = [j] ∧ j.round = rc.round ∧
        (p.gathering rc.round.number).justified = false ∧
        ∀ k, (q.gathering k).justified =
          if k = rc.round.number then true else (p.gathering k).justified := by
  have hstored : ∀ {a g}, g.justified = (p.gathering rc.round.number).justified → ∀ k,
      (((p.announce a rc.round.number).store rc.round.number g).gathering k).justified =
        (p.gathering k).justified := by
    intro a g hg k
    rw [gathering_store]
    split
    · next hk => rw [hg, hk]
    · rfl
  cases h with
  | refused | far => exact .inl ⟨rfl, fun _ => rfl⟩
  | known => exact .inl ⟨rfl, hstored rfl⟩
  | added _ _ hg hx =>
    have hclear : (p.gathering rc.round.number).justified = false :=
      Bool.eq_false_iff.2 fun h => hg (.inl h)
    rcases x with e | _ | j
    · exact .inl ⟨rfl, hstored hclear.symm⟩
    · exact .inl ⟨rfl, hstored hclear.symm⟩
    · refine .inr ⟨j, rfl, Justification.round_of_assemble hx.symm, hclear, fun k => ?_⟩
      rw [gathering_store]
      split <;> rfl

theorem spent (h : Leaves S C rc p x q) (hp : p.Spent js) (hle : p.current ≤ rc.round.number) :
    q.Spent (js ++ came x) := by
  rcases h.came_spec with ⟨hnone, hsame⟩ | ⟨j, hj, hround, hclear, hused⟩
  · rw [hnone, List.append_nil]
    refine ⟨hp.nodup, fun j hj => ?_⟩
    rw [h.current.1, hsame]
    exact hp.used j hj
  · rw [hj]
    refine ⟨?_, ?_⟩
    · rw [List.map_append, List.nodup_append]
      refine ⟨hp.nodup, List.nodup_singleton _, ?_⟩
      rintro _ hm _ hn rfl
      obtain ⟨i, hi, hir⟩ := List.mem_map.1 hm
      rw [List.mem_singleton.1 hn, hround] at hir
      rcases hp.used i hi with hpast | hwas
      · rw [hir] at hpast
        exact absurd hle (UInt32.not_le.2 hpast)
      · rw [hir, hclear] at hwas
        cases hwas
    · simp only [List.forall_mem_append, List.forall_mem_singleton, h.current.1, hused]
      refine ⟨fun i hi => (hp.used i hi).imp_right fun hi => ?_, .inr ?_⟩
      · rw [hi, ite_self]
      · rw [hround, if_pos rfl]

end Leaves

end RoundChanges

namespace Instance

open Handler (Keeps Anything)
open Justification (came)

variable (E : Setup) (C : Committee)

/-- Where a node is, only the round changes to its own round are used up. -/
structure Collected (js : List Justification) (id : RoundId) (p : RoundChanges) : Prop where
  kept : p.Kept E.scheme C id.number E.config.roundHorizon
  spent : p.Spent js
  here : ∀ k, (p.gathering k).justified = true → k = id.number

/-- On the way to a later round, those to this one are used up as well. -/
structure Leaving (n : UInt32) (js : List Justification) (id : RoundId) (p : RoundChanges) :
    Prop where
  kept : p.Kept E.scheme C id.number E.config.roundHorizon
  spent : p.Spent js
  le : id.number ≤ n
  here : ∀ k, (p.gathering k).justified = true → k = id.number ∨ k = n

variable {E C} {js : List Justification} {id : RoundId} {p q : RoundChanges} {n : UInt32}
  {rc : RoundChange} {x : Except Error (Option Justification)}

theorem collected_new : Collected E C [] ⟨C.height, 0⟩ (.new E.config.roundHorizon) :=
  ⟨RoundChanges.kept_new, ⟨List.nodup_nil, nofun⟩, nofun⟩

theorem Collected.leaving (h : Collected E C js id p) (hn : id.number ≤ n) :
    Leaving E C n js id p :=
  ⟨h.kept, h.spent, hn, fun k hk => .inl (h.here k hk)⟩

theorem Leaving.enter (h : Leaving E C n js id p) :
    Collected E C js ⟨C.height, n⟩ (p.discardBefore n) where
  kept := h.kept.discardBefore h.le
  spent := h.spent.discardBefore n
  here := by
    intro k hk
    rw [RoundChanges.gathering_discardBefore] at hk
    split at hk
    · next hle =>
      rcases h.here k hk with rfl | rfl
      · exact UInt32.le_antisymm h.le hle
      · rfl
    · cases hk

theorem Leaving.stay (h : Leaving E C n js id p) (hn : id.number = n) : Collected E C js id p :=
  ⟨h.kept, h.spent, fun k hk => (h.here k hk).elim (·) fun hkn => hkn.trans hn.symm⟩

/-- What is left by one more round change to the round or to a later one. -/
theorem Collected.append (h : Collected E C js id p) (hle : id.number ≤ rc.round.number)
    (hq : RoundChanges.Leaves E.scheme C rc p x q) :
    (came x = [] → Collected E C (js ++ came x) id q) ∧
      ∀ j, x = .ok (some j) → Leaving E C j.round.number (js ++ came x) id q := by
  have hkept := hq.kept h.kept hle
  have hspent := hq.spent h.spent (h.kept.current ▸ hle)
  rcases hq.came_spec with ⟨hnone, hsame⟩ | ⟨i, hi, hround, -, hused⟩
  · refine ⟨fun _ => ⟨hkept, hspent, fun k hk => h.here k (hsame k ▸ hk)⟩, ?_⟩
    rintro j rfl
    cases hnone
  · refine ⟨fun hnone => absurd (hi.symm.trans hnone) (List.cons_ne_nil _ _), ?_⟩
    rintro j rfl
    obtain rfl : j = i := List.singleton_inj.1 hi
    refine ⟨hkept, hspent, hround ▸ hle, fun k hk => ?_⟩
    rw [hused] at hk
    split at hk
    · next hkn => exact .inr (hkn.trans (congrArg RoundId.number hround).symm)
    · exact .inl (h.here k hk)

namespace Tracked

/-- The members stay the same, and what is gathered is as it should be with this list. -/
def Holds (C : Committee) (P : List Justification → RoundId → RoundChanges → Prop) (t : Tracked) :
    Prop :=
  t.inst.Has C (P t.justifications)

variable {P : List Justification → RoundId → RoundChanges → Prop} {t : Tracked}
  (ext : Collaborators)

theorem lift_keeps {α : Type} {h : Handler Instance α}
    (hh : ∀ P, Keeps (Has C P) Anything h) : Keeps (Holds C P) Anything (lift h) :=
  fun t ht => ⟨(hh (P t.justifications) t.inst ht).1, fun _ _ => trivial⟩

theorem append_apply
    (ho : RoundChanges.append E.scheme C rc t.inst.roundChanges = ⟨x, q, []⟩) :
    append E C rc t =
      ⟨x, ⟨{ t.inst with roundChanges := q }, t.justifications ++ came x⟩, []⟩ := by
  have hlift : lift (onRoundChanges (RoundChanges.append E.scheme C rc)) t =
      ⟨x, ⟨{ t.inst with roundChanges := q }, t.justifications⟩, []⟩ := by
    show Outcome.mk _ _ _ = _
    rw [onRoundChanges_apply ho]
  cases x with
  | error e =>
    rw [append, Handler.bind_of_error _ hlift]
    show _ = Outcome.mk _ (Tracked.mk _ (t.justifications ++ [])) _
    rw [List.append_nil]
  | ok j =>
    rw [append, Handler.bind_of_ok _ hlift]
    rfl

theorem advance_collected (ht : Holds C (Leaving E C n) t) :
    Holds C (Collected E C) (lift (advance E ext n) t).state := by
  obtain ⟨hc, hid, hp⟩ := advance_has (E := E) ext ht.committee n
  refine ⟨hc, ?_⟩
  show Collected E C t.justifications (advance E ext n t.inst).state.round.id
    (advance E ext n t.inst).state.roundChanges
  rw [hid, hp]
  exact ht.holds.enter

theorem enter_collected {j : Justification} (ht : Holds C (Leaving E C j.round.number) t) :
    Holds C (Collected E C) (lift (enter E ext j) t).state :=
  (has_overlooks (P := Collected E C t.justifications)).enter ext (fun _ => advance_collected ext ht)
    fun hge => ⟨ht.committee,
      ht.holds.stay (UInt32.le_antisymm ht.holds.le (UInt32.not_lt.1 hge))⟩

/-- What is left when a round change to the round or to a later one is taken. -/
theorem append_collected (ht : Holds C (Collected E C) t)
    (hle : t.inst.round.id.number ≤ rc.round.number) : ∃ x u,
      append E C rc t = ⟨x, u, []⟩ ∧ u.inst.round = t.inst.round ∧
      ((∀ j, x ≠ .ok (some j)) → Holds C (Collected E C) u) ∧
        ∀ j, x = .ok (some j) → Holds C (Leaving E C j.round.number) u := by
  obtain ⟨x, q, ho, hq⟩ :=
    RoundChanges.append_leaves (S := E.scheme) (C := C) rc t.inst.roundChanges
  obtain ⟨hnone, hsome⟩ := ht.holds.append hle hq
  refine ⟨x, _, append_apply ho, rfl, fun hx => ⟨ht.committee, hnone ?_⟩,
    fun j hj => ⟨ht.committee, hsome j hj⟩⟩
  rcases x with _ | _ | j
  · rfl
  · rfl
  · exact absurd rfl (hx j)

/-- The node's own round change is to the round it is in. -/
theorem own_collected (hrc : rc.round = t.inst.round.id) (ht : Holds C (Collected E C) t) :
    Holds C (Collected E C) ((do
      match ← append E t.inst.committee rc with
      | some j => lift (enter E ext j)
      | none => return) t).state := by
  rw [ht.committee]
  have hle : t.inst.round.id.number ≤ rc.round.number := hrc ▸ UInt32.le_refl _
  obtain ⟨x, u, ho, -, hother, hsome⟩ := append_collected ht hle
  rcases x with e | _ | j
  · rw [Handler.bind_of_error _ ho]
    exact hother nofun
  · rw [Handler.bind_of_ok _ ho]
    exact hother nofun
  · rw [Handler.bind_of_ok _ ho]
    exact enter_collected ext (hsome j rfl)

theorem changeRound_collected (ht : Holds C (Leaving E C n) t) :
    Holds C (Collected E C) (changeRound E ext n t).state := by
  rw [changeRound]
  refine Keeps.after (advance_collected ext ht) fun _ u hu => ⟨?_, fun _ _ => trivial⟩
  rw [lift_modify_bind, lift_get_bind]
  replace hu : Holds C (Collected E C) { u with inst := { u.inst with changing := true } } :=
    { hu with }
  split
  · cases hsign : E.signer.changeRound E.scheme u.inst.round.id u.inst.lock with
    | error e => exact hu
    | ok rc => exact own_collected ext (Signer.changeRound_eq_ok hsign).1 hu
  · exact hu

theorem handleRoundChange_collected (ht : Holds C (Collected E C) t) (rc : RoundChange) :
    Holds C (Collected E C) (handleRoundChange E ext rc t).state := by
  rw [handleRoundChange, lift_get_bind]
  split
  · next hguard =>
    simp only [Bool.and_eq_true, decide_eq_true_eq] at hguard
    obtain ⟨x, u, ho, hround, hother, hsome⟩ := append_collected ht hguard.1
    rw [ht.committee]
    rcases x with e | _ | j
    · rw [Handler.bind_of_error _ ho]
      exact hother nofun
    · rw [Handler.bind_of_ok _ ho]
      have hu := hother nofun
      dsimp only
      rw [lift_roundChanges_bind]
      split
      · cases hn : u.inst.roundChanges.earlyTarget? C t.inst.round.id.number with
        | none => exact hu
        | some n =>
          have hlt := RoundChanges.lt_of_earlyTarget hn
          rw [← hround] at hlt
          exact changeRound_collected ext
            ⟨hu.committee, hu.holds.leaving (UInt32.le_of_lt hlt)⟩
      · exact hu
    · rw [Handler.bind_of_ok _ ho]
      exact enter_collected ext (hsome j rfl)
  · exact ht

theorem handleMessage_collected (ht : Holds C (Collected E C) t) (m : Message) :
    Holds C (Collected E C) (handleMessage E ext m t).state := by
  unfold handleMessage
  rw [lift_get_bind]
  split
  · rw [Handler.absorb_state]
    cases m with
    | proposal p =>
      exact (has_overlooks (P := Collected E C t.justifications)).handleProposal ext ht
        (fun _ hlt => advance_collected (t := t) ext
          ⟨ht.committee, ht.holds.leaving (UInt32.le_of_lt hlt)⟩) p
    | roundChange rc => exact handleRoundChange_collected ext ht rc
    | prepare | commit => exact (lift_keeps (fun _ => handleVote_keeps ext _) t ht).1
  · exact ht

theorem roundExpired_collected (ht : Holds C (Collected E C) t) (round : RoundId) :
    Holds C (Collected E C) (roundExpired E ext round t).state := by
  rw [roundExpired, lift_get_bind]
  split
  · next hguard =>
    simp only [Bool.and_eq_true, decide_eq_true_eq] at hguard
    rw [Handler.absorb_state]
    refine changeRound_collected ext ⟨ht.committee, ht.holds.leaving ?_⟩
    rw [hguard.1]
    exact le_nextNumber _
  · exact ht

theorem run_collected (first : Collaborators) (calls : List Call) :
    Holds C (Collected E C) (run E C first calls) := by
  induction calls using List.reverseRecOn with
  | nil =>
    have hnew : Holds C (Collected E C) ⟨.new E C, []⟩ := ⟨rfl, collected_new⟩
    exact (lift_keeps (fun _ => has_overlooks.start first) _ hnew).1
  | append_singleton calls c ih =>
    rw [run_append]
    show Holds C _ (handle E c (run E C first calls)).state
    rw [handle]
    cases c.input with
    | message m => exact handleMessage_collected c.ext ih m
    | roundExpiry round => exact roundExpired_collected c.ext ih round

end Tracked

end Instance

/-- All that is to be said of what is gathered for round `k` at a node in round `here`. -/
structure Gathering.Sound (S : Scheme) (C : Committee) (far : Nat) (here k : UInt32)
    (g : Gathering) : Prop where
  near : here.toNat ≤ k.toNat ∧ k.toNat ≤ here.toNat + far
  target : ∀ v ∈ g.votes, v.2.round = ⟨C.height, k⟩
  check : ∀ v ∈ g.votes, C.checkRoundChange S v.2 = .ok v.1
  nodup : (g.votes.map (·.1)).Nodup
  members : ∀ a ∈ g.votes.map (·.1), a ∈ C.validators
  here : g.justified = true → k = here
  disputed : C.quorum ≤ g.votes.length → g.justified = false →
    Justification.Disputed (g.votes.map (·.2))

namespace History

open Instance (Tracked)

/-- After every call, what is gathered is sound, round by round, and there is no more of it than has
room in the rounds within the horizon. Of all the round changes until then no more than one
justification came for each round. -/
theorem collects_soundly (E : Setup) (C : Committee) (first : Collaborators) (calls : List Call) :
    let t := Tracked.run E C first calls
    let i := (run E C first calls).inst
    t.inst = i ∧
    (∀ k g, i.roundChanges.gatherings.find? k = some g →
      g.Sound E.scheme C E.config.roundHorizon i.round.id.number k) ∧
    (i.roundChanges.gatherings.values.map (·.votes.length)).sum ≤
      (E.config.roundHorizon + 1) * C.validators.length ∧
    (t.justifications.map Justification.round).Nodup := by
  intro t i
  have hinst : t.inst = i := Tracked.inst_run C first calls
  have hi : i.Has C (Instance.Collected E C t.justifications) :=
    hinst ▸ Tracked.run_collected first calls
  refine ⟨hinst, fun k g hg => ?_, hi.holds.kept.held_le, hi.holds.spent.nodup⟩
  have hgathering : i.roundChanges.gathering k = g := by rw [RoundChanges.gathering, hg]; rfl
  have hchecked := hgathering ▸ hi.holds.kept.checked k
  have hnear := hi.holds.kept.near _ (Table.find?_eq_some_iff.1 hg)
  exact {
    near := ⟨UInt32.le_iff_toNat_le.1 hnear.1, hnear.2⟩
    target := hchecked.target
    check := hchecked.check
    nodup := hchecked.nodup
    members := RoundChanges.mem_validators hchecked
    here := hgathering ▸ hi.holds.here k
    disputed := hgathering ▸ hi.holds.kept.disputed k }

/-- Three of four go to round 1, and on to round 2 with claims in conflict. -/
def clashingCalls : List Call :=
  [1, 2, 4].map (fun k =>
    ⟨.plain, .message (.roundChange ⟨.plain k ⟨⟨1, 1⟩, none⟩, none, [], rfl⟩)⟩) ++
  disputedCalls ++ [⟨.plain, .message (.roundChange settling)⟩]

theorem collects_soundly_clashing :
    let E := { Setup.plain (.ofNat 9) with config := { earlyRoundChange := false } }
    let C := Committee.plain 3
    (Tracked.run E C .plain clashingCalls).justifications.map Justification.round = [⟨1, 1⟩] ∧
    (run E C .plain clashingCalls).inst.roundChanges.gatherings.keys = [1, 2] ∧
    ∃ g, (run E C .plain clashingCalls).inst.roundChanges.gatherings.find? 2 = some g ∧
      g.votes.length = C.quorum ∧ g.justified = false ∧
      g.Sound E.scheme C E.config.roundHorizon
        (run E C .plain clashingCalls).inst.round.id.number 2 := by
  intro E C
  have hfind : ((run E C .plain clashingCalls).inst.roundChanges.gatherings.find? 2).map
      (fun g => (g.votes.length, g.justified)) = some (C.quorum, false) := by decide +kernel
  obtain ⟨g, hg, hsize⟩ := Option.map_eq_some_iff.1 hfind
  obtain ⟨hlength, hclear⟩ := Prod.mk.inj hsize
  exact ⟨by decide +kernel, by decide +kernel, g, hg, hlength, hclear,
    (collects_soundly E C .plain clashingCalls).2.1 2 g hg⟩

end History

end BlockAgreement
