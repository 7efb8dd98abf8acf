import BlockAgreement.Proofs.Overlap
import BlockAgreement.Proofs.Steady

/-! Faulty validators do not push a node forward. A node goes to a later round with the round
changes of a quorum, with a proposal that carries them, or early, once more validators than may be
faulty are ahead of it. Each of the three takes a validator who is not faulty and moved on as well;
and what the node announces itself is never ahead of the round it is in. -/

namespace BlockAgreement

/-- The round changes in a message, alone or with a proposal. -/
def Message.roundChanges : Message → List (Signed RoundChangeStatement)
  | .proposal p => p.roundChanges
  | .roundChange rc => [rc.signed]
  | .prepare _ | .commit _ => []

section

variable {S : Scheme} {C : Committee} {faulty : Finset Address} {last : UInt32}

variable (S C faulty last) in
/-- Beyond the last round, only the faulty announce a round of the height. -/
def Lags (m : Signed RoundChangeStatement) : Prop :=
  m.statement.round.height = C.height → last < m.statement.round.number →
    ∀ a, C.author S m = .ok a → a ∈ faulty

/-- A proposal for a later round brings the round changes of a quorum. -/
theorem Committee.round_le_of_checkProposal (hf : faulty.card ≤ C.faultTolerance) {p : Proposal}
    {a : Address} (h : C.checkProposal S p = .ok a)
    (hp : ∀ m ∈ p.roundChanges, Lags S C faulty last m) : p.round.number ≤ last := by
  by_contra hlast
  rw [UInt32.not_le] at hlast
  obtain ⟨hheight, -, -, hj⟩ := checkProposal_eq_ok h
  have h0 : p.round.number ≠ 0 := by
    intro h0
    rw [h0] at hlast
    exact Nat.not_lt_zero _ hlast
  obtain ⟨⟨hround, hquorate⟩, -⟩ := (checkJustification_eq_ok_iff h0).1 hj
  obtain ⟨s, -, hs, hauthors⟩ := hquorate.exists_authors
  obtain ⟨b, hb, hbf⟩ := exists_notMem_of_quorum hf hs
  obtain ⟨m, hm, hmb⟩ := hauthors b hb
  have hmr := (hround m hm).1
  exact hbf (hp m hm (by rw [hmr, hheight]) (by rwa [hmr]) b hmb)

/-! ### What is gathered -/

namespace RoundChanges

variable {p q : RoundChanges}

variable (S C faulty last) in
/-- Beyond the last round, only the faulty are known to be, and only their round changes are
gathered. -/
structure Slow (p : RoundChanges) : Prop where
  announced : ∀ e ∈ p.announced.entries, last < e.2 → e.1 ∈ faulty
  gathered : ∀ k, ∀ v ∈ (p.gathering k).votes, last < k → v.1 ∈ faulty
  checked : p.Checked S C

theorem slow_new (horizon : Nat) : (new horizon).Slow S C faulty last where
  announced := nofun
  gathered := nofun
  checked := checked_new horizon

theorem Slow.discardBefore (hp : p.Slow S C faulty last) (n : UInt32) :
    (p.discardBefore n).Slow S C faulty last where
  announced := hp.announced
  gathered k v hv hk := by
    rw [gathering_discardBefore] at hv
    split at hv
    · exact hp.gathered k v hv hk
    · cases hv
  checked := hp.checked.discardBefore n

theorem max_eq_or (m n : UInt32) : max m n = m ∨ max m n = n := by
  show (if m ≤ n then n else m) = m ∨ (if m ≤ n then n else m) = n
  split <;> simp

theorem Slow.announce (hp : p.Slow S C faulty last) {a : Address} {n : UInt32}
    (ha : last < n → a ∈ faulty) :
    ∀ e ∈ (p.announce a n).announced.entries, last < e.2 → e.1 ∈ faulty := by
  have hold : last < (p.announced.find? a).getD n → a ∈ faulty := by
    cases hfind : p.announced.find? a with
    | none => exact ha
    | some k => exact hp.announced (a, k) (Table.find?_eq_some_iff.1 hfind)
  intro e he
  rcases Table.mem_of_mem_insert he with rfl | he
  · -- The higher of two announcements of the author is one of them.
    rcases max_eq_or ((p.announced.find? a).getD n) n with h | h
    · simpa only [h] using hold
    · simpa only [h] using ha
  · exact hp.announced e he

theorem Slow.append {rc : RoundChange} {x : Except Error (Option Justification)}
    (hp : p.Slow S C faulty last) (hrc : Lags S C faulty last rc.signed)
    (h : Appends S C rc p x q) : q.Slow S C faulty last := by
  have hauthor : ∀ a, C.checkRoundChange S rc = .ok a → last < rc.round.number → a ∈ faulty := by
    intro a ha hlast
    obtain ⟨hsigned, hheight, -⟩ := Committee.checkRoundChange_eq_ok_iff.1 ha
    exact hrc hheight hlast a hsigned
  refine ⟨?_, h.gathers.forall_mem (P := fun k v => last < k → v.1 ∈ faulty) hp.gathered hauthor,
    h.gathers.checked hp.checked⟩
  cases h with
  | refused => exact hp.announced
  | noted ha hq => exact hq ▸ hp.announce (hauthor _ ha)
  | gathered ha hq => exact hq ▸ hp.announce (hauthor _ ha)

/-- A justification takes a quorum. -/
theorem Slow.round_le_of_append {rc : RoundChange} {j : Justification}
    (hf : faulty.card ≤ C.faultTolerance) (hq : q.Slow S C faulty last)
    (h : Appends S C rc p (.ok (some j)) q) : j.round.number ≤ last := by
  obtain ⟨⟨b, hb⟩, hj⟩ := h.justified
  rw [Justification.round_of_assemble hj]
  by_contra hlast
  rw [UInt32.not_le] at hlast
  have hchecked := hq.checked rc.round.number
  rw [← (Committee.checkRoundChange_eq_ok_iff.1 hb).2.1] at hchecked
  obtain ⟨hquorum, -⟩ := hchecked.assembled hj
  have hcard : C.quorum ≤ ((q.gathering rc.round.number).votes.map (·.1)).toFinset.card := by
    rwa [List.toFinset_card_of_nodup hchecked.nodup, List.length_map]
  obtain ⟨a, ha, haf⟩ := Committee.exists_notMem_of_quorum hf hcard
  obtain ⟨v, hv, rfl⟩ := List.mem_map.1 (List.mem_toFinset.1 ha)
  exact haf (hq.gathered _ v hv hlast)

/-- Those who announced a round above `n`. -/
def ahead (p : RoundChanges) (n : UInt32) : Finset Address :=
  ((p.announced.entries.filter fun e => n < e.2).map (·.1)).toFinset

theorem mem_ahead {a : Address} {n : UInt32} : a ∈ p.ahead n ↔ ∃ k, p.announced.find? a = some k ∧ n < k := by
  simp only [ahead, List.mem_toFinset, List.mem_map, List.mem_filter, decide_eq_true_eq,
    Table.find?_eq_some_iff]
  constructor
  · rintro ⟨⟨b, k⟩, ⟨he, hk⟩, rfl⟩
    exact ⟨k, he, hk⟩
  · rintro ⟨k, he, hk⟩
    exact ⟨(a, k), ⟨he, hk⟩, rfl⟩

theorem card_ahead (p : RoundChanges) (n : UInt32) :
    (p.ahead n).card = p.announced.values.countP (n < ·) := by
  have hkeys : ((p.announced.entries.filter fun e => n < e.2).map (·.1)).Nodup :=
    p.announced.nodup_keys.sublist (List.filter_sublist.map _)
  rw [ahead, List.toFinset_card_of_nodup hkeys, List.length_map, Table.values, List.countP_map,
    List.countP_eq_length_filter]
  rfl

/-- At most the faulty are beyond the last round. -/
theorem Slow.length_ahead_le (hp : p.Slow S C faulty last) :
    (p.announced.values.countP (last < ·)) ≤ faulty.card := by
  rw [← card_ahead]
  refine Finset.card_le_card fun a ha => ?_
  obtain ⟨k, hk, hlast⟩ := mem_ahead.1 ha
  exact hp.announced (a, k) (Table.find?_eq_some_iff.1 hk) hlast

theorem sorted_mergeSort (l : List UInt32) :
    (l.mergeSort fun a b => b ≤ a).Pairwise fun a b => b ≤ a := by
  have htrans : ∀ a b c : UInt32, decide (b ≤ a) = true → decide (c ≤ b) = true →
      decide (c ≤ a) = true := by
    intro a b c hab hbc
    rw [decide_eq_true_eq] at *
    exact UInt32.le_trans hbc hab
  have htotal : ∀ a b : UInt32, (decide (b ≤ a) || decide (a ≤ b)) = true := by
    intro a b
    simpa using UInt32.le_total b a
  simpa using List.pairwise_mergeSort htrans htotal l

/-- Where a falling list is above a bound, all that comes before is so too. -/
theorem lt_countP_of_getElem? {l : List UInt32} {n : Nat} {t : UInt32}
    (hl : l.Pairwise fun a b => b ≤ a) (ht : l[n]? = some t) (hlast : last < t) :
    n < l.countP (last < ·) := by
  obtain ⟨hn, rfl⟩ := List.getElem?_eq_some_iff.1 ht
  have hall : ∀ x ∈ l.take (n + 1), last < x := by
    intro x hx
    obtain ⟨i, hi, rfl⟩ := List.mem_iff_getElem.1 hx
    rw [List.length_take] at hi
    rw [List.getElem_take]
    rcases Nat.lt_or_eq_of_le (Nat.le_of_lt_succ (hi.trans_le (Nat.min_le_left ..))) with hlt | heq
    · exact UInt32.lt_of_lt_of_le hlast (List.pairwise_iff_getElem.1 hl i n _ hn hlt)
    · subst heq
      exact hlast
  calc n
    _ < (l.take (n + 1)).length := by
      rw [List.length_take]
      omega
    _ = (l.take (n + 1)).countP (last < ·) :=
      (List.countP_eq_length.2 (by simpa using hall)).symm
    _ ≤ l.countP (last < ·) := (List.take_sublist ..).countP_le

/-- Going on early takes more validators than may be faulty. -/
theorem Slow.le_of_earlyTarget (hf : faulty.card ≤ C.faultTolerance) (hp : p.Slow S C faulty last)
    {current n : UInt32} (h : p.earlyTarget? C current = some n) : n ≤ last := by
  by_contra hlast
  rw [UInt32.not_le] at hlast
  have hcount := lt_countP_of_getElem? (sorted_mergeSort _) h hlast
  rw [(List.mergeSort_perm ..).countP_eq] at hcount
  have hfilter := (List.filter_sublist (p := (current < ·)) (l := p.announced.values)).countP_le
    (p := (last < ·))
  have := hp.length_ahead_le
  omega

end RoundChanges

end

theorem nextNumber_le {n last : UInt32} (h : n < last) : nextNumber n ≤ last := by
  rw [nextNumber]
  split
  · next hn =>
    have hone : UInt32.toNat 1 = 1 := rfl
    simp only [UInt32.lt_iff_toNat_lt, UInt32.le_iff_toNat_le, UInt32.toNat_add, UInt32.size,
      hone] at *
    omega
  · exact UInt32.le_of_lt h

/-! ### Instances -/

namespace Instance

variable {E : Setup} {C : Committee} {faulty : Finset Address} {last : UInt32}

variable (E C faulty last) in
/-- The node is not beyond the last round, and neither is what it gathered but for the faulty. -/
def Paced (id : RoundId) (p : RoundChanges) : Prop :=
  id.number ≤ last ∧ p.Slow E.scheme C faulty last

theorem keptBy_of_lags {rc : RoundChange} (hrc : Lags E.scheme C faulty last rc.signed) :
    KeptBy E C (Paced E C faulty last) rc := by
  rintro id p ⟨hid, hp⟩
  obtain ⟨x, q, ho, h⟩ := RoundChanges.append_appends (S := E.scheme) (C := C) rc p
  rw [ho]
  exact ⟨hid, hp.append hrc h⟩

theorem steady_paced (hf : faulty.card ≤ C.faultTolerance) :
    Steady E C (Paced E C faulty last) (· ≤ last) where
  enter hp hn := ⟨hn, hp.2.discardBefore _⟩
  own := by
    -- The node's own announcement is of the round it is in.
    rintro id p rc ⟨hid, -⟩ hround
    refine keptBy_of_lags fun _ hlast => ?_
    rw [← RoundChange.round, hround] at hlast
    exact absurd hid (UInt32.not_le.2 hlast)
  justified := by
    rintro id p rc j hq hj
    obtain ⟨x, q, ho, h⟩ := RoundChanges.append_appends (S := E.scheme) (C := C) rc p
    rw [ho] at hq hj
    cases hj
    exact hq.2.round_le_of_append hf h
  early hp hn := hp.2.le_of_earlyTarget hf hn

end Instance

/-! ### Runs -/

namespace History

variable {E : Setup} {C : Committee} {faulty : Finset Address} {last : UInt32}

/-- Faulty validators alone do not push a node beyond a round. If only they are heard to move on
from it, and no timer of it or of a later round runs out, the node stays there or before: whatever
else it hears, in whatever order, and whether or not it goes on early. -/
theorem never_pushed (E : Setup) (C : Committee) (first : Collaborators) (calls : List Call)
    (faulty : Finset Address) (last : UInt32) (hf : faulty.card ≤ C.faultTolerance)
    (hheard : ∀ c ∈ calls, ∀ m, c.input = .message m → ∀ rc ∈ m.roundChanges,
      rc.statement.round.height = C.height → last < rc.statement.round.number →
        ∀ a, C.author E.scheme rc = .ok a → a ∈ faulty)
    (hexpiries : ∀ before c, before ++ [c] <+: calls → ∀ round, c.input = .roundExpiry round →
      round = (run E C first before).inst.round.id → round.number < last) :
    (run E C first calls).inst.round.id.number ≤ last := by
  have hlags : ∀ c ∈ calls, ∀ m, c.input = .message m → ∀ rc ∈ m.roundChanges,
      Lags E.scheme C faulty last rc := hheard
  refine (run_has (Instance.steady_paced hf) ?_ first calls ?_ ?_ ?_).holds.1
  · exact ⟨UInt32.le_iff_toNat_le.2 (Nat.zero_le _), RoundChanges.slow_new _⟩
  · intro c hc p hinput a ha
    exact Committee.round_le_of_checkProposal hf ha (hlags c hc _ hinput)
  · intro c hc rc hinput
    exact Instance.keptBy_of_lags (hlags c hc _ hinput _ (List.mem_singleton_self _))
  · intro before c hc round hinput hround
    exact nextNumber_le (hexpiries before c hc round hinput hround)

/-- One of four validators moves on to round 5. -/
def straying : Signed RoundChangeStatement :=
  let statement : RoundChangeStatement := ⟨⟨1, 5⟩, none⟩
  ⟨statement, ⟨.ofNat 4, Statement.hash .plain statement, false⟩⟩

/-- It is heard of by another, whose timer of round 0 then runs out. -/
def strayingCalls : List Call :=
  [⟨.plain, .message (.roundChange ⟨straying, none, [], rfl⟩)⟩, ⟨.plain, .roundExpiry ⟨1, 0⟩⟩]

theorem never_pushed_straying :
    let E := Setup.plain (.ofNat 1)
    let C := Committee.plain 3
    let faulty : Finset Address := {.ofNat 4}
    faulty.card ≤ C.faultTolerance ∧
      (∀ c ∈ strayingCalls, ∀ m, c.input = .message m → ∀ rc ∈ m.roundChanges,
        rc.statement.round.height = C.height → 1 < rc.statement.round.number →
          ∀ a, C.author E.scheme rc = .ok a → a ∈ faulty) ∧
      (∀ before c, before ++ [c] <+: strayingCalls → ∀ round, c.input = .roundExpiry round →
        round = (run E C .plain before).inst.round.id → round.number < 1) ∧
      (run E C .plain strayingCalls).inst.round.id.number ≤ 1 := by
  intro E C faulty
  have hf : faulty.card ≤ C.faultTolerance := by decide +kernel
  have hheard : ∀ c ∈ strayingCalls, ∀ m, c.input = .message m → ∀ rc ∈ m.roundChanges,
      rc.statement.round.height = C.height → 1 < rc.statement.round.number →
        ∀ a, C.author E.scheme rc = .ok a → a ∈ faulty := by
    intro c hc m hm rc hrc _ _ a ha
    obtain rfl | rfl : c = strayingCalls[0] ∨ c = strayingCalls[1] := by
      simpa [strayingCalls] using hc
    · cases hm
      obtain rfl : rc = straying := List.mem_singleton.1 hrc
      have hauthor : C.author E.scheme straying = .ok (.ofNat 4) := by decide +kernel
      rw [hauthor] at ha
      cases ha
      exact Finset.mem_singleton_self _
    · cases hm
  have hexpiries : ∀ before c, before ++ [c] <+: strayingCalls → ∀ round,
      c.input = .roundExpiry round → round = (run E C .plain before).inst.round.id →
        round.number < 1 := by
    intro before c hc round hround _
    have hmem : c ∈ strayingCalls := hc.subset (by simp)
    obtain rfl | rfl : c = strayingCalls[0] ∨ c = strayingCalls[1] := by
      simpa [strayingCalls] using hmem
    · cases hround
    · cases hround
      decide
  exact ⟨hf, hheard, hexpiries, never_pushed E C .plain strayingCalls faulty 1 hf hheard hexpiries⟩

end History

end BlockAgreement
