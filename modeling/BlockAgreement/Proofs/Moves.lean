import BlockAgreement.Engine.Instance
import BlockAgreement.Proofs.Gathering
import BlockAgreement.Proofs.Round

/-! What can become of the consensus of a height, one move at a time. Most moves leave the round as
it is or are moves of the round. One enters another round: only before the decision, only a later
round unless the last one is entered again, and only once the lock covers the node's commit. Its
round change goes out in the move that enters the round. -/

namespace BlockAgreement

/-- Requests that are no statements and decide nothing. -/
def Effect.Silent : Effect → Prop
  | .multicast _ | .deliverBlock .. => False
  | .startTimer .. | .cancelTimer _ | .requestBlock .. => True

/-- Requests that may go out before a round is entered for good: of the messages only round
changes. -/
def Effect.Quiet : Effect → Prop
  | .multicast m => m.kind = .roundChange
  | .deliverBlock .. => False
  | .startTimer .. | .cancelTimer _ | .requestBlock .. => True

theorem Effect.Silent.quiet {e : Effect} (h : e.Silent) : e.Quiet := by
  cases e with
  | multicast | deliverBlock => exact h.elim
  | startTimer | cancelTimer | requestBlock => trivial

/-- The round number that is followed by itself. -/
def lastNumber : UInt32 := 0xFFFFFFFF

theorem lt_nextNumber (n : UInt32) (h : n ≠ lastNumber) : n < nextNumber n := by
  have hn : n.toNat ≠ 4294967295 := fun he => h (UInt32.toNat_inj.1 he)
  have := n.toNat_lt
  rw [nextNumber, if_pos (by simp only [UInt32.size]; omega), UInt32.lt_iff_toNat_lt,
    UInt32.toNat_add]
  simp only [UInt32.reduceToNat]
  omega

@[simp] theorem nextNumber_lastNumber : nextNumber lastNumber = lastNumber := by decide

theorem le_lastNumber (n : UInt32) : n ≤ lastNumber := by
  rw [UInt32.le_iff_toNat_le]
  exact Nat.le_of_lt_succ n.toNat_lt

namespace Instance

variable (E : Setup) (C : Committee) (A : Outside)

/-- The lock covers the commit that the node sent in its round, unless the round is decided. -/
def Noted (i : Instance) : Prop :=
  i.round.commitSent = true → i.isCommitted = true ∨
    ∃ l, i.lock = some l ∧ l.round = i.round.id.number

/-- A proposal of the node's own: a new block at round 0, later what the round changes that the
node gathered ask for. -/
structure MayPropose (i : Instance) (p : Proposal) : Prop where
  turn : i.committee.proposer p.round = .ok E.signer.address
  signed : E.signer.sign (Statement.hash E.scheme p.signed.statement) = .ok p.signed.signature
  digest : E.scheme.digest p.block = p.digest
  first : p.round.number = 0 → p.prepares = [] ∧ A.block p.block
  later : p.round.number ≠ 0 → ∃ j, Justification.assemble? E.scheme p.round
    ((i.roundChanges.gathering p.round.number).votes.map (·.2)) i.committee.quorum = .ok (some j) ∧
      p.roundChanges = j.roundChanges ∧ p.prepares = j.prepares ∧
        (j.block = some p.block ∨ j.block = none ∧ A.block p.block)

structure MayEnter (i : Instance) (n : UInt32) : Prop where
  undecided : i.isCommitted = false
  later : i.round.id.number < n ∨ n = lastNumber ∧ i.round.id.number = lastNumber ∧ A.lastExpires
  noted : E.Sound → i.Noted

/-- The round changes gathered once a round is entered, with the node's own if it sends one. -/
inductive Announces (i : Instance) (n : UInt32) : List Effect → RoundChanges → Prop
  | silent : Announces i n [] (i.roundChanges.discardBefore n)
  | roundChange {rc : RoundChange} {q : RoundChanges}
      (h : E.signer.changeRound E.scheme ⟨i.committee.height, n⟩ i.lock = .ok rc)
      (hq : RoundChanges.Gathers E.scheme i.committee rc (i.roundChanges.discardBefore n) q) :
      Announces i n [.multicast (.roundChange rc)] q

/-- A vote that may be held for its round. -/
def Holds (k : UInt32) (m : Message) : Prop :=
  A.Admits m ∧ m.round = ⟨C.height, k⟩ ∧ (m.kind = .prepare ∨ m.kind = .commit)

inductive Move : Instance → List Effect → Instance → Prop
  | round {i : Instance} {es : List Effect} {r : Round}
      (h : Round.Move E i.committee A (MayPropose E A i) i.round es r) :
      Move i es { i with round := r }
  | note {i : Instance} (hp : i.round.isPrepared = true) :
      Move i [] { i with lock := i.round.tally.lock? }
  | ask {i : Instance} {e : Effect} (he : e.Silent) : Move i [e] i
  | mark {i : Instance} (changing : Bool) : Move i [] { i with changing }
  | hold {i : Instance} {limit : Nat} {k : UInt32} {m : Message} (hm : Holds i.committee A k m) :
      Move i [] { i with backlog := i.backlog.push limit k m }
  | gather {i : Instance} {rc : RoundChange} {q : RoundChanges} (hm : A.Admits (.roundChange rc))
      (hq : RoundChanges.Gathers E.scheme i.committee rc i.roundChanges q) :
      Move i [] { i with roundChanges := q }
  | enter {i : Instance} {n : UInt32} {fs es : List Effect} {q : RoundChanges}
      (hn : MayEnter E A i n) (hf : ∀ e ∈ fs, e.Silent) (h : Announces E i n es q) :
      Move i (fs ++ es) { i with
        round := freshRound E i.committee n
        roundChanges := q
        backlog := i.backlog.discardThrough n }

/-- A move that does not leave the round. -/
def Stay (i : Instance) (es : List Effect) (j : Instance) : Prop :=
  Move E A i es j ∧ j.round.id = i.round.id

/-- A handler that ends so may have changed the round, quietly, before all else; then it stayed in
the round it had come to. -/
def Arrives {α : Type} (i : Instance) (o : Outcome Instance α)
    (Q : Except Error α → Instance → Prop) : Prop :=
  ∃ k es fs, o.effects = es ++ fs ∧ Chain (Move E A) i es k ∧ (∀ e ∈ es, e.Quiet) ∧
    Chain (Stay E A) k fs o.state ∧ Q o.result o.state

/-- What holds of the consensus of a height at all times. -/
structure Formed (i : Instance) : Prop where
  committee : i.committee = C
  height : i.round.id.height = C.height
  participates : i.round.participates = participates E C
  prepared : i.round.commitSent = true → i.round.isPrepared = true
  held : ∀ k, ∀ m ∈ i.backlog.queue k, Holds C A k m

variable {E C A} {i j : Instance} {es : List Effect}

theorem MayEnter.le {n : UInt32} (h : MayEnter E A i n) : i.round.id.number ≤ n := by
  rcases h.later with h | ⟨rfl, h, -⟩
  · exact UInt32.le_of_lt h
  · exact h ▸ UInt32.le_refl _

theorem formed_new : Formed E C A (Instance.new E C) where
  committee := rfl
  height := rfl
  participates := rfl
  prepared := nofun
  held := nofun

theorem Formed.member (hi : Formed E C A i) (h : i.round.participates = true) :
    i.committee.contains E.signer.address = true := by
  rw [hi.committee]
  exact hi.participates.symm.trans h

theorem Formed.move (hi : Formed E C A i) (h : Move E A i es j) : Formed E C A j := by
  cases h with
  | round h =>
    exact { hi with
      height := (congrArg RoundId.height h.follows.tally.round).trans hi.height
      participates := h.follows.participates.trans hi.participates
      prepared := h.follows.prepared hi.prepared }
  | note | ask | mark | gather => exact { hi with }
  | hold hm =>
    exact { hi with
      held := fun k m hk => by
        rcases Backlog.mem_queue_push hk with hk | ⟨rfl, rfl⟩
        · exact hi.held k m hk
        · exact hi.committee ▸ hm }
  | enter hn h =>
    exact { hi with
      height := congrArg Committee.height hi.committee
      participates := by rw [hi.committee]; rfl
      prepared := nofun
      held := fun k m hk => hi.held k m (Backlog.mem_queue_discardThrough hk) }

theorem Formed.chain (hi : Formed E C A i) (h : Chain (Move E A) i es j) : Formed E C A j :=
  h.preserves_state (fun _ _ _ hi h => hi.move h) hi

theorem move_of_stay (i : Instance) (es : List Effect) (j : Instance) (h : Stay E A i es j) :
    Move E A i es j :=
  h.1

theorem chain_of_stay (h : Chain (Stay E A) i es j) : Chain (Move E A) i es j :=
  h.lift id move_of_stay

namespace Arrives

variable {α β : Type} {h : Handler Instance α} {f : α → Handler Instance β}
  {Q : Except Error α → Instance → Prop} {P : Except Error β → Instance → Prop}

theorem does (hh : Arrives E A i (h i) Q) : Handler.Does (Move E A) h i Q := by
  obtain ⟨k, es, fs, he, hc, -, hs, hq⟩ := hh
  rw [Handler.Does, he]
  exact ⟨hc.trans (chain_of_stay hs), hq⟩

theorem of_stay (hh : Handler.Does (Stay E A) h i Q) : Arrives E A i (h i) Q :=
  ⟨i, [], _, rfl, .refl i, nofun, hh⟩

theorem of_quiet {x : Except Error α} (hc : Chain (Move E A) i es j) (hes : ∀ e ∈ es, e.Quiet)
    (hq : Q x j) : Arrives E A i ⟨x, j, es⟩ Q :=
  ⟨j, es, [], (List.append_nil _).symm, hc, hes, .refl j, hq⟩

/-- What comes before is quiet. -/
theorem after {o : Outcome Instance α} (hc : Chain (Move E A) i es j) (hes : ∀ e ∈ es, e.Quiet)
    (ho : Arrives E A j o Q) : Arrives E A i ⟨o.result, o.state, es ++ o.effects⟩ Q := by
  obtain ⟨k, fs, gs, he, hck, hfs, hs, hq⟩ := ho
  refine ⟨k, es ++ fs, gs, ?_, hc.trans hck, ?_, hs, hq⟩
  · rw [he, List.append_assoc]
  · exact fun e hm => (List.mem_append.1 hm).elim (hes e) (hfs e)

protected theorem get {f : Instance → Handler Instance β} (hf : Arrives E A i (f i i) P) :
    Arrives E A i ((get >>= f) i) P :=
  hf

/-- A first part that is quiet. -/
protected theorem bind (hh : Handler.Does (Move E A) h i Q) (hes : ∀ e ∈ (h i).effects, e.Quiet)
    (hok : ∀ a k, Q (.ok a) k → Arrives E A k (f a k) P)
    (herr : ∀ e k, Q (.error e) k → P (.error e) k) : Arrives E A i ((h >>= f) i) P := by
  obtain ⟨hc, hq⟩ := hh
  rcases ho : h i with ⟨x, k, fs⟩
  rw [ho] at hc hes hq
  cases x with
  | error e =>
    rw [Handler.bind_of_error f ho]
    exact of_quiet hc hes (herr e k hq)
  | ok a =>
    rw [Handler.bind_of_ok f ho]
    exact (hok a k hq).after hc hes

/-- A first part that only gives something. -/
protected theorem skip {a : α} (hh : h i = ⟨.ok a, i, []⟩) (hf : Arrives E A i (f a i) P) :
    Arrives E A i ((h >>= f) i) P := by
  rw [Handler.bind_of_ok f hh]
  exact hf

protected theorem absorb {h : Handler Instance Unit} {ok : Error → Bool}
    {Q Q' : Except Error Unit → Instance → Prop} (hh : Arrives E A i (h i) Q)
    (hq : ∀ r t, Q r t → Q' r t ∧ Q' (.ok ()) t) :
    Arrives E A i (Handler.absorb ok h i) Q' := by
  have hdoes : Handler.Does (Move E A) (Handler.absorb ok h) i Q' := hh.does.absorb hq
  obtain ⟨k, es, fs, he, hc, hes, hs, -⟩ := hh
  rw [← Handler.absorb_state ok] at hs
  exact ⟨k, es, fs, (Handler.absorb_effects ..).trans he, hc, hes, hs, hdoes.2⟩

end Arrives

end Instance

end BlockAgreement
