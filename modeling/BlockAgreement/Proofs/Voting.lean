import BlockAgreement.Proofs.Evidence

/-! A node says things in order: round by round, and within a round first that it moved there, then
what it proposes, prepares and commits, each once and for one block. Only the last round can break
the order, where the node enters the same round again each time its timer runs out. -/

namespace BlockAgreement

theorem length_le_one_of_pairwise {α : Type} {l : List α} (h : l.Pairwise fun _ _ => False) :
    l.length ≤ 1 := by
  cases l with
  | nil => exact Nat.zero_le 1
  | cons x l =>
    cases l with
    | nil => exact Nat.le_refl 1
    | cons y l => exact (List.rel_of_pairwise_cons h (List.mem_cons_self ..)).elim

/-- The place of a kind of message within a round. -/
def Kind.place : Kind → Nat
  | .roundChange => 0
  | .proposal => 1
  | .prepare => 2
  | .commit => 3

namespace Message

/-- The block that a message is for. -/
def digest? : Message → Option Digest
  | .proposal p => some p.digest
  | .prepare m => some m.statement.digest
  | .commit m => some m.statement.digest
  | .roundChange _ => none

/-- Within one round: `x` has its place before `y`, and they are for the same block. -/
structure Before (x y : Message) : Prop where
  place : x.kind.place < y.kind.place
  digest : ∀ d e, x.digest? = some d → y.digest? = some e → d = e

def Precedes (x y : Message) : Prop :=
  x.round.number < y.round.number ∨ x.round.number = y.round.number ∧ x.Before y

end Message

open Message

theorem Effect.Silent.message? {e : Effect} (h : e.Silent) : e.message? = none := by
  cases e with
  | multicast => exact h.elim
  | deliverBlock | startTimer | cancelTimer | requestBlock => rfl

/-- What the state of a round tells of what was sent in it. -/
structure Round.Sent (r : Round) (m : Message) : Prop where
  digest : ∀ d, m.digest? = some d → ∃ p, r.tally.proposal = some p ∧ p.digest = d
  commit : m.kind = .commit → r.commitSent = true

namespace Round

variable {E : Setup} {C : Committee} {A : Outside} {own : Proposal → Prop} {r s : Round}
  {p : Proposal} {es : List Effect} {t : Tally} {m x y : Message}

theorem Sent.follows (h : r.Sent m) (hf : s.Follows r) : s.Sent m where
  digest d hd := by
    obtain ⟨p, hp, hpd⟩ := h.digest d hd
    exact ⟨p, hf.tally.proposal p hp, hpd⟩
  commit hk := hf.commitSent (h.commit hk)

/-- Before the proposal nothing but a round change was sent. -/
theorem Sent.before_of_none (h : r.Sent x) (hn : r.tally.proposal = none)
    (hy : y.kind ≠ .roundChange) : x.Before y := by
  have hx : x.digest? = none := by
    rw [Option.eq_none_iff_forall_ne_some]
    intro d hd
    obtain ⟨p, hp, -⟩ := h.digest d hd
    cases hn.symm.trans hp
  refine ⟨?_, fun d e hd => by simp [hx] at hd⟩
  cases x <;> simp [digest?] at hx
  cases y <;> simp [kind] at hy <;> simp [kind, Kind.place]

variable (r s es) in
/-- New messages are for the round, in order among themselves and after those sent before. -/
structure Sends : Prop where
  ordered : (es.filterMap Effect.message?).Pairwise Before
  round : ∀ y ∈ es.filterMap Effect.message?, y.round = r.id
  sent : ∀ y ∈ es.filterMap Effect.message?, s.Sent y
  after : ∀ x, r.Sent x → ∀ y ∈ es.filterMap Effect.message?, x.Before y

theorem sends_nothing (h : es.filterMap Effect.message? = []) : Sends r s es := by
  constructor <;> simp [h]

theorem sends_single (hround : y.round = r.id) (hsent : s.Sent y)
    (hafter : ∀ x, r.Sent x → x.Before y) : Sends r s [.multicast y] := by
  have hlist : [Effect.multicast y].filterMap Effect.message? = [y] := rfl
  constructor <;> simp only [hlist, List.pairwise_singleton, List.forall_mem_singleton]
  · exact hround
  · exact hsent
  · exact hafter

theorem Sends.cons (h : Sends r s es) (hround : y.round = r.id) (hsent : s.Sent y)
    (hafter : ∀ x, r.Sent x → x.Before y)
    (hbefore : ∀ z ∈ es.filterMap Effect.message?, y.Before z) :
    Sends r s (.multicast y :: es) := by
  have hlist : (Effect.multicast y :: es).filterMap Effect.message? =
      y :: es.filterMap Effect.message? := rfl
  constructor <;> simp only [hlist, List.pairwise_cons, List.forall_mem_cons]
  · exact ⟨hbefore, h.ordered⟩
  · exact ⟨hround, h.round⟩
  · exact ⟨hsent, h.sent⟩
  · exact fun x hx => ⟨hafter x hx, h.after x hx⟩

theorem Answers.sends (h : Answers E C r p es t) : Sends r { r with tally := t } es ∧
    ∀ z ∈ es.filterMap Effect.message?, z.kind = .prepare ∧ z.digest? = some p.digest := by
  obtain ⟨hn, -, hp⟩ := h.spec
  cases h with
  | silent => exact ⟨sends_nothing rfl, nofun⟩
  | @prepare _ _ m ht hm hu =>
    have hm' := Signer.prepare_eq_ok hm
    have hdigest : digest? (.prepare m) = some p.digest := by rw [digest?, hm']
    constructor
    · refine sends_single ?_ ⟨fun d hd => ⟨p, hp, ?_⟩, nofun⟩ fun x hx => hx.before_of_none hn nofun
      · rw [Message.round, Signed.round, hm']
        rfl
      · exact Option.some.inj (hdigest.symm.trans hd)
    · intro z hz
      rw [List.mem_singleton.1 hz]
      exact ⟨rfl, hdigest⟩

theorem Move.sends (h : Move E C A own r es s) : Sends r s es := by
  have hf := h.follows
  cases h with
  | prepare | commit | deliver => exact sends_nothing rfl
  | take hp hr h => exact h.sends.1
  | @propose t p es hp hr h =>
    obtain ⟨hsends, hes⟩ := h.sends
    obtain ⟨hn, -, ht⟩ := h.spec
    refine hsends.cons hr ⟨fun d hd => ⟨p, ht, Option.some.inj hd⟩, nofun⟩
      (fun x hx => hx.before_of_none hn nofun) fun z hz => ?_
    obtain ⟨hk, hd⟩ := hes z hz
    refine ⟨?_, fun d e hd' he => ?_⟩
    · rw [hk]
      exact Nat.one_lt_two
    · exact Option.some.inj (hd'.symm.trans (hd.symm.trans he))
  | @confirm t p m hp hs hr hm ht =>
    obtain ⟨hround, hd, -⟩ := Signer.commit_eq_ok hm
    refine sends_single hround ⟨fun d hd' => ⟨p, hf.tally.proposal p hp, ?_⟩, fun _ => rfl⟩
      fun x hx => ⟨?_, fun d e hd' he => ?_⟩
    · exact hd.symm.trans (Option.some.inj hd')
    · have hk : x.kind ≠ .commit := fun hk => by
        have := hx.commit hk
        simp [hs] at this
      cases x with
      | commit => exact absurd rfl hk
      | proposal | prepare | roundChange => simp [kind, Kind.place]
    · obtain ⟨q, hq, rfl⟩ := hx.digest d hd'
      cases hp.symm.trans hq
      exact hd.symm.trans (Option.some.inj he)

end Round

namespace Instance

variable {E : Setup} {C : Committee} {A : Outside} {i j : Instance} {es log : List Effect}

variable (A) in
/-- The order may be broken in the last round, if that is entered again. -/
def Excused (m : Message) : Prop := m.round.number = lastNumber ∧ A.lastExpires

variable (A) in
structure Voted (i : Instance) (log : List Effect) : Prop where
  ordered : (log.filterMap Effect.message?).Pairwise fun x y =>
    x.Precedes y ∨ Excused A x ∧ Excused A y
  sent : ∀ m ∈ log.filterMap Effect.message?, m.round.number < i.round.id.number ∨
    m.round.number = i.round.id.number ∧ (Excused A m ∨ i.round.Sent m)

theorem filterMap_silent (hes : ∀ e ∈ es, e.Silent) : es.filterMap Effect.message? = [] :=
  List.filterMap_eq_nil_iff.2 fun e he => (hes e he).message?

theorem Voted.silent (h : Voted A i log) (hround : j.round = i.round)
    (hes : ∀ e ∈ es, e.Silent) : Voted A j (log ++ es) := by
  constructor <;> rw [List.filterMap_append, filterMap_silent hes, List.append_nil]
  · exact h.ordered
  · exact hround ▸ h.sent

theorem Voted.round {r : Round} (h : Voted A i log) (hr : r.Follows i.round)
    (hes : Round.Sends i.round r es) : Voted A { i with round := r } (log ++ es) := by
  have hid : r.id = i.round.id := hr.tally.round
  constructor <;> rw [List.filterMap_append]
  · refine List.pairwise_append.2 ⟨h.ordered, ?_, fun x hx y hy => ?_⟩
    · refine hes.ordered.imp_of_mem fun {x y} hx hy hb => .inl (.inr ⟨?_, hb⟩)
      rw [hes.round x hx, hes.round y hy]
    · have hyr : y.round.number = i.round.id.number := by rw [hes.round y hy]
      rcases h.sent x hx with hlt | ⟨heq, hx | hx⟩
      · exact .inl (.inl (hyr ▸ hlt))
      · exact .inr ⟨hx, by rw [hyr, ← heq]; exact hx.1, hx.2⟩
      · exact .inl (.inr ⟨heq.trans hyr.symm, hes.after x hx y hy⟩)
  · intro m hm
    simp only [hid]
    rcases List.mem_append.1 hm with hm | hm
    · exact (h.sent m hm).imp id fun ⟨heq, hx⟩ => ⟨heq, hx.imp id fun hx => hx.follows hr⟩
    · exact .inr ⟨by rw [hes.round m hm], .inr (hes.sent m hm)⟩

/-- Nothing was sent in a round that is entered, unless it is the last one once more. -/
theorem Voted.before_enter {n : UInt32} (h : Voted A i log) (hn : MayEnter E A i n) :
    ∀ m ∈ log.filterMap Effect.message?,
      m.round.number < n ∨ m.round.number = n ∧ Excused A m := by
  intro m hm
  obtain hlt | ⟨rfl, hcurrent, hlast⟩ := hn.later
  · rcases h.sent m hm with h | ⟨h, -⟩
    · exact .inl (UInt32.lt_trans h hlt)
    · exact .inl (h ▸ hlt)
  · rcases h.sent m hm with h | ⟨h, -⟩
    · exact .inl (hcurrent ▸ h)
    · exact .inr ⟨h.trans hcurrent, h.trans hcurrent, hlast⟩

theorem Voted.enter {n : UInt32} {q : RoundChanges} (h : Voted A i log) (hn : MayEnter E A i n)
    (hes : ∀ e ∈ es, e.Silent) :
    Voted A { i with
      round := freshRound E i.committee n
      roundChanges := q
      backlog := i.backlog.discardThrough n } (log ++ es) := by
  constructor <;> rw [List.filterMap_append, filterMap_silent hes, List.append_nil]
  · exact h.ordered
  · exact fun m hm => (h.before_enter hn m hm).imp id fun ⟨he, hx⟩ => ⟨he, .inl hx⟩

/-- The round change to a round that is entered comes after all that was sent. -/
theorem Voted.announce {rc : RoundChange} (h : Voted A i log)
    (hr : rc.round.number = i.round.id.number)
    (hold : ∀ m ∈ log.filterMap Effect.message?, m.round.number < i.round.id.number ∨
      m.round.number = i.round.id.number ∧ Excused A m) :
    Voted A i (log ++ [.multicast (.roundChange rc)]) := by
  constructor <;> rw [List.filterMap_append]
  · refine List.pairwise_append.2 ⟨h.ordered, List.pairwise_singleton .., fun x hx y hy => ?_⟩
    rw [List.mem_singleton.1 hy]
    rcases hold x hx with hlt | ⟨he, hx⟩
    · exact .inl (.inl (hr ▸ hlt))
    · exact .inr ⟨hx, (hr.trans he.symm).trans hx.1, hx.2⟩
  · intro m hm
    rcases List.mem_append.1 hm with hm | hm
    · exact h.sent m hm
    · rw [List.mem_singleton.1 hm]
      exact .inr ⟨hr, .inr ⟨nofun, nofun⟩⟩

theorem Move.voted (h : Move E A i es j) (hv : Voted A i log) : Voted A j (log ++ es) := by
  cases h with
  | round h => exact hv.round h.follows h.sends
  | note | mark | hold | gather => exact hv.silent rfl nofun
  | ask he => exact hv.silent rfl fun e h => List.mem_singleton.1 h ▸ he
  | enter hn hf h =>
    rw [← List.append_assoc]
    cases h with
    | silent =>
      rw [List.append_nil]
      exact hv.enter hn hf
    | roundChange hrc =>
      have hr := (Signer.changeRound_eq_ok hrc).1
      refine (hv.enter hn hf).announce (congrArg RoundId.number hr) ?_
      rw [List.filterMap_append, filterMap_silent hf, List.append_nil]
      exact hv.before_enter hn

theorem voted_new : Voted A (Instance.new E C) [] := ⟨List.Pairwise.nil, nofun⟩

theorem voted_of_chain (h : Chain (Move E A) (Instance.new E C) log i) : Voted A i log :=
  h.preserves_nil (P := Voted A) (fun _ _ _ _ hv hm => hm.voted hv) voted_new

section

variable {n : UInt32} {x y : Message}

theorem Voted.before (h : Voted A i log) (hn : n ≠ lastNumber ∨ ¬ A.lastExpires) :
    ((log.filterMap Effect.message?).filter fun m => m.round.number = n).Pairwise Before := by
  refine List.pairwise_filter.2 (h.ordered.imp fun {x y} hxy hx hy => ?_)
  simp only [decide_eq_true_eq] at hx hy
  obtain (hlt | ⟨-, hb⟩) | ⟨hexcused, -⟩ := hxy
  · rw [hx, hy] at hlt
    exact absurd hlt (UInt32.lt_irrefl n)
  · exact hb
  · exact absurd hexcused.2 (hn.resolve_left fun hne => hne (hx.symm.trans hexcused.1))

/-- All that is sent in one round is for one block. -/
theorem Voted.sameBlock (h : Voted A i log) (hn : n ≠ lastNumber ∨ ¬ A.lastExpires)
    (hx : x ∈ log.filterMap Effect.message?) (hy : y ∈ log.filterMap Effect.message?)
    (hxn : x.round.number = n) (hyn : y.round.number = n) :
    ∀ d e, x.digest? = some d → y.digest? = some e → d = e := by
  have hsame := (h.before hn).imp fun hb => hb.digest
  refine hsame.forall_of_forall_of_flip ?_ (hsame.imp fun h d e hd he => (h e d he hd).symm)
    (List.mem_filter.2 ⟨hx, by simpa using hxn⟩) (List.mem_filter.2 ⟨hy, by simpa using hyn⟩)
  intro z _ d e hd he
  exact Option.some.inj (hd.symm.trans he)

end

end Instance

namespace History

variable (E : Setup) (C : Committee) (first : Collaborators) (calls : List Call)

/-- The timer of the last round ran out while the node was in that round, undecided. -/
def LastExpired : Prop :=
  ∃ before c round, before ++ [c] <+: calls ∧ c.input = .roundExpiry round ∧
    round.number = lastNumber ∧ round = (run E C first before).inst.round.id ∧
      (run E C first before).inst.isCommitted = false

theorem admitsCalls_any (block : Block → Prop)
    (hblock : ∀ c ∈ calls, ∀ n b, c.ext.createBlock ⟨C.height, n⟩ = .ok b → block b) :
    (Outside.any block (LastExpired E C first calls)).AdmitsCalls C E (opening E C first) calls :=
  fun before c hc =>
    { blocks := hblock c (hc.subset (by simp))
      message := fun m _ => Outside.admits_any m
      expiry := fun round hi hn hr hu => ⟨before, c, round, hc, hi, hn, hr, hu⟩ }

/-- At most one message of each kind was sent in this round, and all are for one block. -/
structure VotesOnce (h : History) (n : UInt32) : Prop where
  once : ∀ kind, (h.sent.filter fun m => m.kind = kind ∧ m.round.number = n).length ≤ 1
  block : ∀ x ∈ h.sent, ∀ y ∈ h.sent, x.round.number = n → y.round.number = n →
    ∀ d e, x.digest? = some d → y.digest? = some e → d = e

/-- A node never votes twice in a round, whatever it is given, except in the last round once its
timer ran out there. -/
theorem votes_once (n : UInt32) (hn : n ≠ lastNumber ∨ ¬ LastExpired E C first calls) :
    (run E C first calls).VotesOnce n := by
  let A := Outside.any (fun _ => True) (LastExpired E C first calls)
  obtain ⟨-, hchain⟩ := run_chain (A := A) (fun _ _ _ => trivial)
    (admitsCalls_any E C first calls _ fun _ _ _ _ _ => trivial)
  have hvoted := Instance.voted_of_chain hchain
  refine ⟨fun kind => ?_, fun x hx y hy => hvoted.sameBlock hn hx hy⟩
  have hfalse : ((run E C first calls).sent.filter fun m =>
      m.kind = kind ∧ m.round.number = n).Pairwise fun _ _ => False := by
    simp only [Bool.decide_and, ← List.filter_filter]
    refine List.pairwise_filter.2 ((hvoted.before hn).imp fun {x y} hb hx hy => ?_)
    have hplace := hb.place
    rw [of_decide_eq_true hx, of_decide_eq_true hy] at hplace
    exact Nat.lt_irrefl _ hplace
  exact length_le_one_of_pairwise hfalse

theorem votes_once_prepared :
    (0 : UInt32) ≠ lastNumber ∧
      (run (.plain (.ofNat 3)) (.plain 3) .plain preparedCalls).sent.map Message.kind =
        [.prepare, .commit] ∧
      (run (.plain (.ofNat 3)) (.plain 3) .plain preparedCalls).VotesOnce 0 :=
  ⟨by decide, by decide +kernel, votes_once _ _ _ _ 0 (.inl (by decide))⟩

/-- A block for the last round, to which the validators 1, 2 and 4 have moved. -/
def lastProposal (block : Block) : Except Error Message := do
  let roundChanges ← [1, 2, 4].mapM fun k =>
    (Signer.plain (.ofNat k)).attest .plain (⟨⟨1, lastNumber⟩, none⟩ : RoundChangeStatement)
  .proposal <$> (Signer.plain (.ofNat 1)).propose .plain ⟨1, lastNumber⟩ block roundChanges []

/-- Two blocks for the last round, one before and one after its timer ran out. -/
def lastCalls : List Call :=
  Call.plain [lastProposal (.plain 1 [])] ++ [⟨.plain, .roundExpiry ⟨1, lastNumber⟩⟩] ++
    Call.plain [lastProposal (.plain 1 [1])]

/-- In the last round the node prepares the one block and then the other. -/
theorem last_votes_twice :
    ¬ (run (.plain (.ofNat 3)) (.plain 3) .plain lastCalls).VotesOnce lastNumber :=
  fun h => absurd (h.once .prepare) (by decide +kernel)

end History

end BlockAgreement
