import BlockAgreement.Proofs.Certificates
import BlockAgreement.Proofs.Chain
import BlockAgreement.Proofs.Table

/-! What becomes of the gathered round changes when one more comes: it is added to those of its
round, under its author, or nothing is. The gathering that a justification comes of is the one that
is then held. -/

namespace BlockAgreement

namespace RoundChanges

variable (S : Scheme) (C : Committee)

/-- A gathering that a justification came of, or that has a vote of the author. -/
def HasVote (g : Gathering) (a : Address) : Prop :=
  g.justified = true ∨ a ∈ g.votes.map (·.1)

/-- Too far ahead to be gathered. -/
def Far (p : RoundChanges) (t : UInt32) : Prop := p.horizon < t.toNat - p.current.toNat

def justifies : Except Error (Option Justification) → Bool
  | .ok (some _) => true
  | .ok none | .error _ => false

/-- What is left by one more round change, with what comes of it. -/
inductive Leaves (rc : RoundChange) (p : RoundChanges) :
    Except Error (Option Justification) → RoundChanges → Prop
  | refused {e : Error} (h : C.checkRoundChange S rc = .error e) : Leaves rc p (.error e) p
  | far {a : Address} (ha : C.checkRoundChange S rc = .ok a) (hfar : p.Far rc.round.number) :
      Leaves rc p (.ok none) (p.announce a rc.round.number)
  | known {a : Address} (ha : C.checkRoundChange S rc = .ok a) (hnear : ¬ p.Far rc.round.number)
      (hg : HasVote (p.gathering rc.round.number) a) :
      Leaves rc p (.ok none) ((p.announce a rc.round.number).store rc.round.number
        (p.gathering rc.round.number))
  | added {a : Address} {x : Except Error (Option Justification)}
      (ha : C.checkRoundChange S rc = .ok a) (hnear : ¬ p.Far rc.round.number)
      (hg : ¬ HasVote (p.gathering rc.round.number) a)
      (hx : x = Justification.assemble? S rc.round
        (((p.gathering rc.round.number).votes ++ [(a, rc)]).map (·.2)) C.quorum) :
      Leaves rc p x ((p.announce a rc.round.number).store rc.round.number
        ⟨(p.gathering rc.round.number).votes ++ [(a, rc)], justifies x⟩)

/-- At most this round change is added, checked and under a new author. -/
def Gathers (rc : RoundChange) (p q : RoundChanges) : Prop :=
  (∀ k, (q.gathering k).votes = (p.gathering k).votes) ∨
    ∃ a, C.checkRoundChange S rc = .ok a ∧
      a ∉ (p.gathering rc.round.number).votes.map (·.1) ∧
      ∀ k, (q.gathering k).votes =
        if k = rc.round.number then (p.gathering k).votes ++ [(a, rc)] else (p.gathering k).votes

/-- What may come of one more round change: it is refused, or its author is noted, or it is gathered
as well, and then the votes of its round may be put together. -/
inductive Appends (rc : RoundChange) (p : RoundChanges) :
    Except Error (Option Justification) → RoundChanges → Prop
  | refused {e : Error} (h : C.checkRoundChange S rc = .error e) : Appends rc p (.error e) p
  | noted {a : Address} {q : RoundChanges} (ha : C.checkRoundChange S rc = .ok a)
      (hq : q.announced = (p.announce a rc.round.number).announced)
      (hv : ∀ k, (q.gathering k).votes = (p.gathering k).votes) : Appends rc p (.ok none) q
  | gathered {a : Address} {q : RoundChanges} {x : Except Error (Option Justification)}
      (ha : C.checkRoundChange S rc = .ok a)
      (hq : q.announced = (p.announce a rc.round.number).announced)
      (hn : a ∉ (p.gathering rc.round.number).votes.map (·.1))
      (hv : ∀ k, (q.gathering k).votes =
        if k = rc.round.number then (p.gathering k).votes ++ [(a, rc)] else (p.gathering k).votes)
      (hx : x = .ok none ∨ x = Justification.assemble? S rc.round
        ((q.gathering rc.round.number).votes.map (·.2)) C.quorum) : Appends rc p x q

variable {S C}

theorem votes_store (p : RoundChanges) (a : Address) (n k : UInt32) (g : Gathering) :
    (((p.announce a n).store n g).gathering k).votes =
      if k = n then g.votes else (p.gathering k).votes := by
  rw [gathering_store, gathering_announce]
  split <;> rfl

/-- Whether the votes of a gathering were used does not matter for what is gathered. -/
theorem appends_noted {p : RoundChanges} {rc : RoundChange} {a : Address} {g : Gathering}
    (ha : C.checkRoundChange S rc = .ok a) (hg : g = p.gathering rc.round.number) :
    Appends S C rc p (.ok none) ((p.announce a rc.round.number).store rc.round.number g) := by
  refine .noted ha rfl fun k => ?_
  rw [votes_store, hg]
  split
  · next hk => rw [hk]
  · rfl

theorem appends_gathered {p : RoundChanges} {rc : RoundChange} {a : Address} {g : Gathering}
    {x : Except Error (Option Justification)} (ha : C.checkRoundChange S rc = .ok a)
    (hn : a ∉ (p.gathering rc.round.number).votes.map (·.1))
    (hg : g.votes = (p.gathering rc.round.number).votes ++ [(a, rc)])
    (hx : x = .ok none ∨ x = Justification.assemble? S rc.round (g.votes.map (·.2)) C.quorum) :
    Appends S C rc p x ((p.announce a rc.round.number).store rc.round.number g) := by
  refine .gathered ha rfl hn (fun k => ?_) ?_
  · rw [votes_store, hg]
    split
    · next hk => rw [hk]
    · rfl
  · rwa [votes_store, if_pos rfl]

theorem append_leaves (rc : RoundChange) (p : RoundChanges) :
    ∃ x q, append S C rc p = ⟨x, q, []⟩ ∧ Leaves S C rc p x q := by
  unfold append
  cases ha : C.checkRoundChange S rc with
  | error e => exact ⟨_, _, rfl, .refused ha⟩
  | ok a =>
    rw [Handler.ofExcept_ok_bind, Handler.modify_bind, Handler.get_bind]
    split
    · next hfar => exact ⟨_, _, rfl, .far ha hfar⟩
    next hnear =>
    rw [gathering_announce]
    dsimp only
    split
    · next hg =>
      rw [Bool.or_eq_true, List.contains_iff_mem] at hg
      exact ⟨_, _, rfl, .known ha hnear hg⟩
    next hg =>
    rw [Bool.or_eq_true, List.contains_iff_mem] at hg
    have hadd : ∀ {x}, x = Justification.assemble? S rc.round
          (((p.gathering rc.round.number).votes ++ [(a, rc)]).map (·.2)) C.quorum →
        Leaves S C rc p x ((p.announce a rc.round.number).store rc.round.number
          ⟨(p.gathering rc.round.number).votes ++ [(a, rc)], justifies x⟩) :=
      .added ha hnear hg
    have hclear : (p.gathering rc.round.number).justified = false :=
      Bool.eq_false_iff.2 fun h => hg (.inl h)
    rw [Handler.set_bind, hclear]
    split
    · next hfew =>
      have hlength : (((p.gathering rc.round.number).votes ++ [(a, rc)]).map (·.2)).length <
          C.quorum := by
        rw [List.length_map]
        exact hfew
      exact ⟨.ok none, _, rfl, hadd (Justification.assemble?_of_few hlength).symm⟩
    cases hj : Justification.assemble? S rc.round
        (((p.gathering rc.round.number).votes ++ [(a, rc)]).map (·.2)) C.quorum with
    | error e => exact ⟨.error e, _, rfl, hadd hj.symm⟩
    | ok j =>
      cases j with
      | none => exact ⟨.ok none, _, rfl, hadd hj.symm⟩
      | some j =>
        exact ⟨.ok (some j), (p.announce a rc.round.number).store rc.round.number
          ⟨(p.gathering rc.round.number).votes ++ [(a, rc)], true⟩, rfl, hadd hj.symm⟩

theorem Leaves.appends {rc : RoundChange} {p q : RoundChanges}
    {x : Except Error (Option Justification)} (h : Leaves S C rc p x q) : Appends S C rc p x q := by
  cases h with
  | refused h => exact .refused h
  | far ha => exact .noted ha rfl fun _ => rfl
  | known ha => exact appends_noted ha rfl
  | added ha _ hg hx => exact appends_gathered ha (fun hm => hg (.inr hm)) rfl (.inr hx)

theorem append_appends (rc : RoundChange) (p : RoundChanges) :
    ∃ x q, append S C rc p = ⟨x, q, []⟩ ∧ Appends S C rc p x q := by
  obtain ⟨x, q, ho, h⟩ := append_leaves (S := S) (C := C) rc p
  exact ⟨x, q, ho, h.appends⟩

namespace Appends

variable {rc : RoundChange} {p q : RoundChanges} {x : Except Error (Option Justification)}

theorem gathers (h : Appends S C rc p x q) : Gathers S C rc p q := by
  cases h with
  | refused => exact .inl fun _ => rfl
  | noted _ _ hv => exact .inl hv
  | gathered ha _ hn hv => exact .inr ⟨_, ha, hn, hv⟩

/-- A justification comes of the votes that are gathered then. -/
theorem justified {j : Justification} (h : Appends S C rc p (.ok (some j)) q) :
    (∃ a, C.checkRoundChange S rc = .ok a) ∧
      Justification.assemble? S rc.round ((q.gathering rc.round.number).votes.map (·.2))
        C.quorum = .ok (some j) := by
  cases h with
  | gathered ha _ _ _ hx => exact ⟨⟨_, ha⟩, (hx.resolve_left nofun).symm⟩

end Appends

theorem append_spec (rc : RoundChange) (p : RoundChanges) :
    ∃ x q, append S C rc p = ⟨x, q, []⟩ ∧ Gathers S C rc p q ∧ ∀ j, x = .ok (some j) →
      (∃ a, C.checkRoundChange S rc = .ok a) ∧
        Justification.assemble? S rc.round ((q.gathering rc.round.number).votes.map (·.2))
          C.quorum = .ok (some j) := by
  obtain ⟨x, q, ho, h⟩ := append_appends rc p
  refine ⟨x, q, ho, h.gathers, ?_⟩
  rintro j rfl
  exact h.justified

theorem lt_of_earlyTarget {p : RoundChanges} {current target : UInt32}
    (h : p.earlyTarget? C current = some target) : current < target := by
  have hm := List.mem_mergeSort.1 (List.mem_of_getElem? h)
  simpa using (List.mem_filter.1 hm).2

/-- What holds of all checked round changes of the rounds that are gathered holds of them later. -/
theorem Gathers.forall_mem {rc : RoundChange} {p q : RoundChanges} (h : Gathers S C rc p q)
    {P : UInt32 → Address × RoundChange → Prop} (hp : ∀ k, ∀ v ∈ (p.gathering k).votes, P k v)
    (hrc : ∀ a, C.checkRoundChange S rc = .ok a → P rc.round.number (a, rc)) :
    ∀ k, ∀ v ∈ (q.gathering k).votes, P k v := by
  intro k v hv
  obtain h | ⟨a, ha, -, h⟩ := h
  · exact hp k v (h k ▸ hv)
  · rw [h] at hv
    split at hv
    · next hk =>
      rcases List.mem_append.1 hv with hv | hv
      · exact hp k v hv
      · rw [hk, List.mem_singleton.1 hv]
        exact hrc a ha
    · exact hp k v hv

theorem Gathers.nodup {rc : RoundChange} {p q : RoundChanges} (h : Gathers S C rc p q)
    (hp : ∀ k, ((p.gathering k).votes.map (·.1)).Nodup) (k : UInt32) :
    ((q.gathering k).votes.map (·.1)).Nodup := by
  obtain h | ⟨a, -, hn, h⟩ := h
  · exact h k ▸ hp k
  · rw [h]
    split
    · next hk =>
      rw [List.map_append, List.nodup_append]
      refine ⟨hp k, by simp, ?_⟩
      rintro b hb _ hm rfl
      rw [List.map_singleton, List.mem_singleton] at hm
      subst hm
      exact hn (hk ▸ hb)
    · exact hp k

/-! ### Checked gatherings -/

variable (S C) in
/-- All that is gathered is checked, round by round. -/
def Checked (p : RoundChanges) : Prop := ∀ k, (p.gathering k).Checked S C ⟨C.height, k⟩

theorem checked_new (horizon : Nat) : (new horizon).Checked S C :=
  fun _ => ⟨nofun, nofun, List.nodup_nil⟩

theorem Gathers.checked {rc : RoundChange} {p q : RoundChanges} (h : Gathers S C rc p q)
    (hp : p.Checked S C) : q.Checked S C := fun k =>
  { check := fun v hv => h.forall_mem (P := fun _ v => C.checkRoundChange S v.2 = .ok v.1)
      (fun k => (hp k).check) (fun _ ha => ha) k v hv
    target := fun v hv => h.forall_mem (P := fun k v => v.2.round = ⟨C.height, k⟩)
      (fun k => (hp k).target)
      (fun _ ha => by rw [← (Committee.checkRoundChange_eq_ok_iff.1 ha).2.1]) k v hv
    nodup := h.nodup (fun k => (hp k).nodup) k }

theorem Checked.discardBefore {p : RoundChanges} (hp : p.Checked S C) (n : UInt32) :
    (p.discardBefore n).Checked S C := by
  intro k
  rw [gathering_discardBefore]
  split
  · exact hp k
  · exact ⟨nofun, nofun, List.nodup_nil⟩

end RoundChanges

end BlockAgreement
