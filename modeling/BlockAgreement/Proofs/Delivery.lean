import BlockAgreement.Proofs.Voting

/-! A node hands over one block at most, sealed by a quorum, and with that it is done: it stays in
the round and with the block, and says nothing more but votes for it. -/

namespace BlockAgreement

def Effect.isDelivery : Effect → Bool
  | .deliverBlock .. => true
  | _ => false

theorem exists_deliverBlock {log : List Effect} (h : log.any Effect.isDelivery = true) :
    ∃ b seals accepted, .deliverBlock b seals accepted ∈ log := by
  obtain ⟨e, he, hd⟩ := List.any_eq_true.1 h
  cases e with
  | deliverBlock b seals accepted => exact ⟨b, seals, accepted, he⟩
  | multicast | startTimer | cancelTimer | requestBlock => cases hd

/-- What a node may still ask for once it has handed over a block. -/
def Effect.Calm : Effect → Prop
  | .multicast m => m.kind = .prepare ∨ m.kind = .commit
  | .deliverBlock .. => False
  | .startTimer .. | .cancelTimer _ | .requestBlock .. => True

theorem Effect.Silent.isDelivery {e : Effect} (h : e.Silent) : e.isDelivery = false := by
  cases e with
  | deliverBlock => exact h.elim
  | multicast | startTimer | cancelTimer | requestBlock => rfl

theorem Effect.Silent.calm {e : Effect} (h : e.Silent) : e.Calm := by
  cases e with
  | multicast | deliverBlock => exact h.elim
  | startTimer | cancelTimer | requestBlock => trivial

namespace Round

variable {E : Setup} {C : Committee} {A : Outside} {own : Proposal → Prop} {r s : Round}
  {p : Proposal} {es : List Effect} {t : Tally}

/-- The round is over for the node, with this block. -/
structure Done (r : Round) (b : Block) : Prop where
  delivered : r.delivered = true
  decided : r.isCommitted = true
  block : ∃ p, r.tally.proposal = some p ∧ p.block = b

theorem Answers.not_delivery (h : Answers E C r p es t) : ∀ e ∈ es, e.isDelivery = false := by
  cases h with
  | silent => exact nofun
  | prepare => exact fun e he => List.mem_singleton.1 he ▸ rfl

theorem Move.delivers (h : Move E C A own r es s) : (∀ e ∈ es, e.isDelivery = false) ∨
    ∃ b seals accepted, es = [.deliverBlock b seals accepted] ∧ s.Done b := by
  cases h with
  | prepare | commit => exact .inl nofun
  | take hp hr h => exact .inl h.not_delivery
  | propose hp hr h => exact .inl (List.forall_mem_cons.2 ⟨rfl, h.not_delivery⟩)
  | confirm => exact .inl fun e he => List.mem_singleton.1 he ▸ rfl
  | @deliver b seals accepted hd hn =>
    obtain ⟨hc, p, hp, hb, -⟩ := Tally.decision?_eq_some hd
    exact .inr ⟨b, seals, accepted, rfl, rfl, hc, p, hp, hb.symm⟩

theorem Done.move {b : Block} (hr : r.Done b) (h : Move E C A own r es s) :
    s.Done b ∧ ∀ e ∈ es, e.Calm := by
  obtain ⟨p, hp, hb⟩ := hr.block
  have hx := h.follows.tally
  have hblock : ∃ p, s.tally.proposal = some p ∧ p.block = b := ⟨p, hx.proposal p hp, hb⟩
  have hdecided := hx.isCommitted hr.decided
  cases h with
  | prepare | commit => exact ⟨⟨hr.delivered, hdecided, hblock⟩, nofun⟩
  | take _ _ h => cases hp.symm.trans h.spec.1
  | propose _ _ h => cases hp.symm.trans h.spec.1
  | confirm =>
    exact ⟨⟨hr.delivered, hdecided, hblock⟩, fun e he => List.mem_singleton.1 he ▸ .inr rfl⟩
  | deliver _ hn => simp [hr.delivered] at hn

end Round

namespace Instance

variable {E : Setup} {C : Committee} {A : Outside} {i j : Instance} {es log : List Effect}

/-- A decided round is never left, and keeps its proposal. -/
theorem Move.follows (h : Move E A i es j) (hi : i.isCommitted = true) :
    j.round.Follows i.round := by
  cases h with
  | round h => exact h.follows
  | note | ask | mark | hold | gather => exact .refl _
  | enter hn => simp [hn.undecided] at hi

theorem follows_of_chain (h : Chain (Move E A) i es j) (hi : i.isCommitted = true) :
    j.round.Follows i.round :=
  h.preserves_state (P := fun j => j.round.Follows i.round)
    (fun _ _ _ hf hm => (hm.follows (hf.tally.isCommitted hi)).trans hf) (.refl _)

structure Delivered (i : Instance) (log : List Effect) : Prop where
  done : ∀ b seals accepted, .deliverBlock b seals accepted ∈ log → i.round.Done b
  calm : log.Pairwise fun x y => x.isDelivery = true → y.Calm

/-- New requests without a delivery, which are calm if there was one before. -/
theorem Delivered.append (h : Delivered i log) (hnone : ∀ e ∈ es, e.isDelivery = false)
    (hdone : ∀ b, i.round.Done b → j.round.Done b ∧ ∀ e ∈ es, e.Calm) :
    Delivered j (log ++ es) where
  done b seals accepted hm := by
    rcases List.mem_append.1 hm with hm | hm
    · exact (hdone b (h.done b seals accepted hm)).1
    · cases hnone _ hm
  calm := by
    refine List.pairwise_append.2 ⟨h.calm, List.pairwise_of_forall_mem_list fun x hx y _ hd => ?_,
      fun x hx y hy hd => ?_⟩
    · simp [hnone x hx] at hd
    · cases x with
      | deliverBlock b seals accepted => exact (hdone b (h.done b seals accepted hx)).2 y hy
      | multicast | startTimer | cancelTimer | requestBlock => cases hd

theorem Delivered.silent (h : Delivered i log) (hround : j.round = i.round)
    (hes : ∀ e ∈ es, e.Silent) : Delivered j (log ++ es) :=
  h.append (fun e he => (hes e he).isDelivery)
    fun _ hb => ⟨hround ▸ hb, fun e he => (hes e he).calm⟩

theorem Move.delivered (h : Move E A i es j) (hd : Delivered i log) : Delivered j (log ++ es) := by
  cases h with
  | @round _ r h =>
    rcases h.delivers with hnone | ⟨b, seals, accepted, rfl, hdone⟩
    · exact hd.append hnone fun b hb => hb.move h
    · have hlog : ∀ e ∈ log, e.isDelivery = false := by
        intro e he
        cases e with
        | deliverBlock b seals accepted =>
          exact ((hd.done b seals accepted he).move h).2 _ (List.mem_singleton.2 rfl) |>.elim
        | multicast | startTimer | cancelTimer | requestBlock => rfl
      constructor
      · intro c _ _ hm
        rcases List.mem_append.1 hm with hm | hm
        · cases hlog _ hm
        · cases List.mem_singleton.1 hm
          exact hdone
      · refine List.pairwise_append.2 ⟨hd.calm, List.pairwise_singleton .., fun x hx _ _ hx' => ?_⟩
        simp [hlog x hx] at hx'
  | note | mark | hold | gather => exact hd.silent rfl nofun
  | ask he => exact hd.silent rfl fun e h => List.mem_singleton.1 h ▸ he
  | enter hn hf h =>
    refine hd.append (fun e he => ?_) fun b hb => ?_
    · rcases List.mem_append.1 he with he | he
      · exact (hf e he).isDelivery
      · cases h with
        | silent => cases he
        | roundChange => exact List.mem_singleton.1 he ▸ rfl
    · have : i.isCommitted = true := hb.decided
      simp [hn.undecided] at this

theorem delivered_of_chain (h : Chain (Move E A) (Instance.new E C) log i) : Delivered i log :=
  h.preserves_nil (P := Delivered) (fun _ _ _ _ hd hm => hm.delivered hd) ⟨nofun, .nil⟩

end Instance

namespace History

variable (E : Setup) (C : Committee) (first : Collaborators) (calls more : List Call)

theorem run_delivered : Instance.Delivered (run E C first calls).inst (run E C first calls).log :=
  Instance.delivered_of_chain (run_moves E C first calls).2

/-- A block is handed over once at most. -/
theorem length_deliveries_le :
    ((run E C first calls).log.filter Effect.isDelivery).length ≤ 1 := by
  refine length_le_one_of_pairwise (List.pairwise_filter.2 ?_)
  refine (run_delivered E C first calls).calm.imp fun {x y} hxy hx hy => ?_
  have hcalm := hxy hx
  cases y with
  | deliverBlock => exact hcalm
  | multicast | startTimer | cancelTimer | requestBlock => cases hy

variable {E C first calls} in
theorem deliveries_eq {e : Effect} (hm : e ∈ (run E C first calls).log)
    (hd : e.isDelivery = true) : (run E C first calls).log.filter Effect.isDelivery = [e] := by
  have hm := List.mem_filter.2 ⟨hm, hd⟩
  obtain ⟨d, hd⟩ := List.length_eq_one_iff.1
    (Nat.le_antisymm (length_deliveries_le E C first calls) (List.length_pos_of_mem hm))
  rw [hd] at hm ⊢
  rw [List.mem_singleton.1 hm]

variable {E C first calls} in
/-- A block that is handed over is of the height, and sealed by a quorum. -/
theorem number_of_delivery (hfirst : first.Numbered) (hcalls : ∀ c ∈ calls, c.ext.Numbered)
    {b : Block} {seals : List Signature} {accepted : Bool}
    (hm : .deliverBlock b seals accepted ∈ (run E C first calls).log) :
    b.number = C.height ∧ C.Sealed E.scheme b seals := by
  have hnumbered : (Outside.any (fun b => b.number = C.height)
      (LastExpired E C first calls)).AdmitsBlocks C first := fun _ b hb => hfirst _ b hb
  obtain ⟨-, hbacked⟩ := Instance.backed_of_chain
    (run_chain hnumbered
      (admitsCalls_any E C first calls _ fun c hc _ b hb => hcalls c hc _ b hb)).2
    fun e _ => Outside.admitsOwn_any e
  obtain ⟨hfits, hsealed, -⟩ := hbacked _ hm
  exact ⟨hfits.elim id id, hsealed⟩

/-- A block is handed over once at most. It is of this height, and its seals are from a quorum of
different members. From then on the height stays decided, with this block in this round, and the
node sends no proposal and no round change. -/
theorem import_sound (hfirst : first.Numbered) (hcalls : ∀ c ∈ calls, c.ext.Numbered) :
    ((run E C first calls).log.filter Effect.isDelivery).length ≤ 1 ∧
    ∀ b seals accepted, .deliverBlock b seals accepted ∈ (run E C first calls).log →
      b.number = C.height ∧ C.Sealed E.scheme b seals ∧
      (run E C first (calls ++ more)).inst.phase = .committed ∧
      (run E C first (calls ++ more)).inst.round.id = (run E C first calls).inst.round.id ∧
      (∃ p, (run E C first (calls ++ more)).inst.round.tally.proposal = some p ∧ p.block = b) ∧
      ∀ before after,
        (run E C first (calls ++ more)).log = before ++ .deliverBlock b seals accepted :: after →
        ∀ m, .multicast m ∈ after → m.kind ≠ .proposal ∧ m.kind ≠ .roundChange := by
  obtain ⟨es, hlog, hmore⟩ := extend_chain (A := .any (fun _ => True) True)
    (fun _ _ _ => trivial) (admitsCalls_all (opening E C first) (calls ++ more))
  have hdelivered := run_delivered E C first calls
  have hlater := run_delivered E C first (calls ++ more)
  refine ⟨length_deliveries_le E C first calls, fun b seals accepted hm => ?_⟩
  obtain ⟨hnumber, hsealed⟩ := number_of_delivery hfirst hcalls hm
  have hdone := hlater.done b seals accepted (hlog ▸ List.mem_append_left _ hm)
  have hid := Instance.follows_of_chain hmore (hdelivered.done b seals accepted hm).decided
  refine ⟨hnumber, hsealed, if_pos hdone.decided, hid.tally.round, hdone.block, ?_⟩
  intro before after hsplit m hma
  have hcalm := hlater.calm
  rw [hsplit] at hcalm
  have hkind := List.rel_of_pairwise_cons (List.pairwise_append.1 hcalm).2.1 hma rfl
  constructor <;> rintro hk <;> simp [Effect.Calm, hk] at hkind

/-- The prepares of the first round and then the commits of two others of four. -/
def decidedCalls : List Call :=
  let digest := Scheme.plain.digest (.plain 1 [])
  preparedCalls ++ Call.plain [
    .commit <$> (Signer.plain (.ofNat 1)).commit .plain ⟨1, 0⟩ digest,
    .commit <$> (Signer.plain (.ofNat 2)).commit .plain ⟨1, 0⟩ digest]

theorem import_sound_decided :
    Collaborators.plain.Numbered ∧ (∀ c ∈ decidedCalls, c.ext.Numbered) ∧
    ∃ seals, .deliverBlock (.plain 1 []) seals true ∈
        (run (.plain (.ofNat 3)) (.plain 3) .plain decidedCalls).log ∧
      (Committee.plain 3).Sealed .plain (.plain 1 []) seals ∧
      (run (.plain (.ofNat 3)) (.plain 3) .plain
        (decidedCalls ++ [⟨.plain, .roundExpiry ⟨1, 0⟩⟩])).inst.phase = .committed := by
  have hcalls : ∀ c ∈ decidedCalls, c.ext.Numbered := by
    intro c hc
    rcases List.mem_append.1 hc with hc | hc <;> exact Call.plain_numbered _ c hc
  have hdelivered : (run (.plain (.ofNat 3)) (.plain 3) .plain decidedCalls).log.any (fun
      | .deliverBlock b _ true => b = .plain 1 []
      | _ => false) = true := by decide +kernel
  obtain ⟨e, he, hb⟩ := List.any_eq_true.1 hdelivered
  split at hb
  · next b seals =>
    cases of_decide_eq_true hb
    obtain ⟨-, hsealed, hphase, -⟩ := (import_sound (.plain (.ofNat 3)) (.plain 3) .plain
      decidedCalls [⟨.plain, .roundExpiry ⟨1, 0⟩⟩] Collaborators.plain_numbered hcalls).2 _ _ _ he
    exact ⟨Collaborators.plain_numbered, hcalls, seals, he, hsealed, hphase⟩
  · cases hb

end History

end BlockAgreement
