import BlockAgreement.Proofs.Redelivery
import BlockAgreement.Proofs.Stored

/-! Votes that come too early. What is put by for later rounds is written down, and at every moment,
also in the middle of a call, the backlog holds of it just what is for rounds that have not been
entered or passed. Where a round is entered, the votes for it are given to it, each of them once and
in the order in which they came. -/

namespace BlockAgreement

namespace Instance

open Handler (Keeps Anything)

variable (E : Setup) (C : Committee)

instance (i : Instance) (m : Message) : Decidable (Held E i m) :=
  decidable_of_iff ((m.kind = .prepare ∨ m.kind = .commit) ∧ m.round.height = i.height ∧
      i.round.id.number < m.round.number ∧
        ∃ a ∈ i.committee.validators, m.author E.scheme = .ok a) <| by
    constructor
    · rintro ⟨hkind, hheight, hlater, a, ha, hauthor⟩
      exact ⟨hkind, hheight, hlater, a, hauthor, Committee.contains_iff_mem.2 ha⟩
    · rintro ⟨hkind, hheight, hlater, a, hauthor, ha⟩
      exact ⟨hkind, hheight, hlater, a, Committee.contains_iff_mem.1 ha, hauthor⟩

/-- What an input adds to the votes that are held: a vote of a member for a later round, while there
is room. -/
def putBy? (i : Instance) : Input → Option Message
  | .message m =>
    if Held E i m ∧ i.backlog.held < E.config.bufferLimit.toNat then some m else none
  | .roundExpiry _ => none

/-- A vote of a member of the height. -/
structure Vote (m : Message) : Prop where
  height : m.round.height = C.height
  kind : m.kind = .prepare ∨ m.kind = .commit
  author : ∃ a ∈ C.validators, m.author E.scheme = .ok a

/-- The states that a height comes through, also in the middle of a call, with the votes that were
put by until then: besides all that leaves the round and the backlog as they are, votes are put by
and rounds are entered. -/
inductive Passes : List Message → Instance → Prop
  | new : Passes [] (.new E C)
  | aside {votes : List Message} {i j : Instance} (h : Passes votes i)
      (hc : j.committee = i.committee) (hr : j.round.id = i.round.id)
      (hb : j.backlog = i.backlog) : Passes votes j
  | put {votes : List Message} {i : Instance} {m : Message} (h : Passes votes i)
      (hm : Held E i m) (hroom : i.backlog.held < E.config.bufferLimit.toNat) :
      Passes (votes ++ [m]) { i with
        backlog := i.backlog.push E.config.bufferLimit.toNat m.round.number m }
  | enter {votes : List Message} {i : Instance} {n : UInt32} (ext : Collaborators)
      (h : Passes votes i) (hn : i.round.id.number ≤ n) : Passes votes (advance E ext n i).state

/-- Of the votes that were put by, those for later rounds are held. -/
structure Queued (votes : List Message) (i : Instance) : Prop where
  committee : i.committee = C
  valid : ∀ m ∈ votes, Vote E C m
  stores : i.backlog.Stores (·.round.number) E.config.bufferLimit.toNat
    (votes.filter (i.round.id.number < ·.round.number))

/-- A round is entered with the votes held for it, each once and in the order in which they came;
those for lower rounds are gone, and those for higher ones are held still. -/
def HandsOver (ext : Collaborators) (n : UInt32) (i : Instance) (held : List Message) : Prop :=
  ∃ fs, advance E ext n i = ⟨.ok (), { i with
      round := (freshRound E C n).afterVotes E C ext (held.filter (·.round.number = n))
      roundChanges := i.roundChanges.discardBefore n
      backlog := i.backlog.discardThrough n }, fs⟩ ∧
    ((freshRound E C n).afterVotes E C ext (held.filter (·.round.number = n))).id =
      ⟨C.height, n⟩ ∧
    (i.backlog.discardThrough n).Stores (·.round.number) E.config.bufferLimit.toNat
      (held.filter (n < ·.round.number))

variable {E C} {i : Instance} {votes : List Message} {m : Message} {n : UInt32}

/-! ### What is held -/

theorem Held.vote (h : Held E i m) : Vote E i.committee m := by
  obtain ⟨a, hauthor, ha⟩ := h.member
  exact ⟨h.height, h.kind, a, Committee.contains_iff_mem.1 ha, hauthor⟩

theorem Queued.orderly (hi : Queued E C votes i) : i.backlog.Orderly (·.round.number)
    E.config.bufferLimit.toNat i.round.id.number (Vote E C) :=
  hi.stores.orderly hi.valid

theorem Queued.hands_over (hi : Queued E C votes i) (ext : Collaborators) (n : UInt32) :
    HandsOver E C ext n i (votes.filter (i.round.id.number < ·.round.number)) := by
  have hheld : ∀ m ∈ i.backlog.queue n, Holds C (.any (fun _ => True) True) n m := by
    intro m hm
    rw [hi.stores.queue] at hm
    obtain ⟨hm, hnumber⟩ := List.mem_filter.1 hm
    obtain ⟨hheight, hkind, -⟩ := hi.valid m (List.mem_filter.1 hm).1
    have hround : m.round = ⟨C.height, n⟩ := by rw [← hheight, ← of_decide_eq_true hnumber]
    exact ⟨Outside.admits_any m, hround, hkind⟩
  obtain ⟨fs, ho, -, hwaits⟩ := advance_gives (E := E) ext hi.committee n hheld
  have hid := (Round.follows_of_chain hwaits.chain).tally.round
  rw [hi.stores.queue] at ho hid
  exact ⟨fs, ho, hid, hi.stores.discardThrough n⟩

theorem Queued.enter (hi : Queued E C votes i) (ext : Collaborators)
    (hn : i.round.id.number ≤ n) : Queued E C votes (advance E ext n i).state := by
  obtain ⟨fs, ho, hid, hstores⟩ := hi.hands_over ext n
  rw [ho]
  refine ⟨hi.committee, hi.valid, ?_⟩
  rw [filter_filter_of_imp fun _ => UInt32.lt_of_le_of_lt hn] at hstores
  simpa only [hid] using hstores

theorem Queued.put (hi : Queued E C votes i) (hm : Held E i m)
    (hroom : i.backlog.held < E.config.bufferLimit.toNat) : Queued E C (votes ++ [m]) { i with
      backlog := i.backlog.push E.config.bufferLimit.toNat m.round.number m } where
  committee := hi.committee
  valid := List.forall_mem_append.2 ⟨hi.valid, List.forall_mem_singleton.2 (hi.committee ▸ hm.vote)⟩
  stores := by
    have hstores := hi.stores.push (m := m) hroom
    simpa [List.filter_append, hm.later] using hstores

variable (ext : Collaborators)

end Instance

namespace History

variable (E : Setup) (C : Committee) (first : Collaborators) (calls : List Call)

/-- All votes that were put by for later rounds, in the order in which they came. -/
def putBy : List Message :=
  (calls.foldl (fun s c => (s.1.after E c, s.2 ++ (Instance.putBy? E s.1.inst c.input).toList))
    (opening E C first, [])).2

variable {E C first calls}

end History

end BlockAgreement
