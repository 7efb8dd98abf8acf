import BlockAgreement.Proofs.Heights
import Mathlib.Data.List.Perm.Subperm

/-! How many heights one call starts. Where more than one validator has to agree, a height is
decided at once only with messages that were held for it; so of the heights that a call starts every
one but the last had messages waiting, and there are only so many of those. -/

namespace BlockAgreement

namespace Backlog

variable {b : Backlog UInt64} {height k : UInt64}

/-- The heights from this one on that messages are held for. -/
def awaited (b : Backlog UInt64) (height : UInt64) : List UInt64 :=
  b.queues.keys.filter fun k => height ≤ k ∧ b.queue k ≠ []

/-- No height is counted twice. -/
theorem nodup_awaited (b : Backlog UInt64) (height : UInt64) : (b.awaited height).Nodup :=
  b.queues.nodup_keys.filter _

theorem mem_awaited : k ∈ b.awaited height ↔ height ≤ k ∧ b.queue k ≠ [] := by
  rw [awaited, List.mem_filter, decide_eq_true_eq]
  exact and_iff_right_of_imp fun ⟨_, hk⟩ => mem_keys_of_queue hk

theorem queue_ne_nil_of_discardThrough (h : (b.discardThrough height).queue k ≠ []) :
    b.queue k ≠ [] := by
  obtain ⟨m, hm⟩ := List.exists_mem_of_ne_nil _ h
  exact List.ne_nil_of_mem (mem_queue_discardThrough hm)

end Backlog

variable {E : Setup} (ext : Collaborators)

namespace Node

/-- Heights that are started one after the other, each but the last with messages held for it. -/
structure Climbs (b : Backlog UInt64) (heights : List UInt64) : Prop where
  sorted : heights.Pairwise (· < ·)
  held : ∀ h ∈ heights.dropLast, b.queue h ≠ []

namespace Climbs

variable {b : Backlog UInt64} {height : UInt64} {heights : List UInt64}

theorem nil : Climbs b [] := ⟨.nil, nofun⟩

theorem single : Climbs b [height] := ⟨.cons nofun .nil, nofun⟩

/-- One more height in front, whose messages are used up when the others are started. -/
theorem cons (h : Climbs (b.discardThrough height) heights) (hlt : ∀ k ∈ heights, height < k)
    (hheld : b.queue height ≠ []) : Climbs b (height :: heights) where
  sorted := h.sorted.cons hlt
  held := by
    cases heights with
    | nil => exact nofun
    | cons k heights =>
      rw [List.dropLast_cons_cons]
      exact List.forall_mem_cons.2
        ⟨hheld, fun x hx => Backlog.queue_ne_nil_of_discardThrough (h.held x hx)⟩

/-- Every height but the last is charged to the messages that are held for it. -/
theorem length_le (h : Climbs b (height :: heights)) :
    heights.length ≤ (b.awaited height).length := by
  have hsub : (height :: heights).dropLast ⊆ b.awaited height := by
    intro k hk
    refine Backlog.mem_awaited.2 ⟨?_, h.held k hk⟩
    rcases List.mem_cons.1 ((List.dropLast_sublist _).subset hk) with rfl | hmem
    · exact UInt64.le_refl _
    · exact UInt64.le_of_lt ((List.pairwise_cons.1 h.sorted).1 k hmem)
  have hnodup : (height :: heights).dropLast.Nodup :=
    (h.sorted.imp fun hlt => UInt64.ne_of_lt hlt).sublist (List.dropLast_sublist _)
  simpa using (List.subperm_of_subset hnodup hsub).length_le

end Climbs

/-- A call that starts heights starts at most one more than there are heights, from the first of
them on, that messages are held for. -/
def Bounded {α : Type} (n : Node) (o : Outcome Node α) : Prop :=
  ∀ first rest, starts o = first :: rest → rest.length ≤ (n.backlog.awaited first).length

theorem bounded_of_climbs {α : Type} {n : Node} {o : Outcome Node α}
    (h : Climbs n.backlog (starts o)) : Bounded n o :=
  fun _ _ hstarts => (hstarts ▸ h).length_le

section

variable (hmany : ∀ height, E.validatorsAt height ≠ [E.signer.address])
include hmany

/-- The node alone is no quorum, unless it is the only validator. -/
theorem one_lt_quorum_of_contains {C : Committee} {height : UInt64}
    (hC : C.validators = E.validatorsAt height) (h : C.contains E.signer.address = true) :
    1 < C.quorum := by
  refine one_lt_quorum ?_
  rw [Committee.contains, List.contains_iff_mem] at h
  obtain ⟨as, bs, hvs⟩ := List.append_of_mem h
  have hne := hC ▸ hmany height
  rw [hvs] at hne ⊢
  cases as with
  | nil =>
    cases bs with
    | nil => exact absurd rfl hne
    | cons => simp
  | cons =>
    simp only [List.cons_append, List.length_cons, List.length_append]
    omega

/-- A height that is decided at once is one that messages were held for. -/
theorem Launched.held {height : UInt64} {b : Backlog UInt64} {i : Instance} {es : List Effect}
    (hi : Launched E ext height b i es) (h : i.isCommitted = true) : b.queue height ≠ [] := by
  intro hempty
  obtain ⟨C, hC, rfl⟩ := hi.alone hempty
  rw [Instance.start_undecided ext (one_lt_quorum_of_contains hmany hC)] at h
  cases h

theorem Proceeds.climbs {height : UInt64} {n : Node} {o : Outcome Node Unit}
    (h : Proceeds E ext height n o) :
    Climbs n.backlog (starts o) ∧ ∀ k ∈ starts o, height ≤ k := by
  -- Along the loop: what is held for the later heights is what the launch of this one leaves.
  induction h with
  | fails _ _ hstarts =>
    rcases hstarts with hstarts | hstarts
    · rw [starts, hstarts]
      exact ⟨.nil, nofun⟩
    · rw [starts, hstarts]
      exact ⟨.single, by simp⟩
  | runs hi | ends hi =>
    rw [starts, hi.started]
    exact ⟨.single, by simp⟩
  | goesOn hi hdecided hnext _ ih =>
    obtain ⟨hclimbs, hle⟩ := ih
    rw [starts, List.filterMap_append, hi.started]
    have hlt := fun k hk => UInt64.lt_of_lt_of_le (lt_heightAfter hnext) (hle k hk)
    exact ⟨hclimbs.cons hlt (hi.held ext hmany hdecided), List.forall_mem_cons.2
      ⟨UInt64.le_refl _, fun k hk => UInt64.le_of_lt (hlt k hk)⟩⟩

theorem startHeight_climbs (height : UInt64) (n : Node) :
    Climbs n.backlog (starts (startHeight E ext height n)) :=
  ((startHeight_proceeds E ext height n).climbs ext hmany).1

omit hmany in
theorem climbs_of_behaves {Q : Error → Prop} {h : Handler Node Unit}
    (hh : Handler.Behaves Effect.Within Q h) (n : Node) : Climbs n.backlog (starts (h n)) := by
  rw [starts, filterMap_started (hh.asks n)]
  exact .nil

theorem handleMessage_climbs (m : Message) (n : Node) :
    Climbs n.backlog (starts (handleMessage E ext m n)) := by
  rw [handleMessage, Handler.get_bind]
  cases n.current with
  | none => exact .nil
  | some i =>
    dsimp only
    split
    · exact climbs_of_behaves (hold_behaves E ext i.height m) n
    split
    · have hquiet := filterMap_started ((Instance.handleMessage_behaves E ext m).asks i)
      rcases ho : Instance.handleMessage E ext m i with ⟨x, j, es⟩
      rw [ho] at hquiet
      have hon := onInstance_apply n ho
      cases x with
      | error e =>
        rw [Handler.bind_of_error _ hon]
        show Climbs _ (es.filterMap _)
        rw [hquiet]
        exact .nil
      | ok =>
        rw [Handler.bind_of_ok _ hon]
        show Climbs _ ((es ++ _).filterMap _)
        rw [List.filterMap_append, hquiet, Handler.get_bind]
        dsimp only
        split
        · cases heightAfter i.height with
          | error => exact .nil
          | ok next => exact startHeight_climbs ext hmany next { n with current := some j }
        · exact .nil
    · exact .nil

theorem handle_climbs (event : Event) (n : Node) :
    Climbs n.backlog (starts (handle E ext event n)) := by
  cases event with
  | message m => exact handleMessage_climbs ext hmany m n
  | roundExpiry round => exact climbs_of_behaves (handleRoundExpiry_behaves E ext round) n
  | chainHead number =>
    show Climbs _ (starts (handleChainHead E ext number n))
    rw [handleChainHead, Handler.get_bind]
    split
    · exact startHeight_climbs ext hmany (nextHeight number) n
    · exact .nil

/-- Where the node is not the only validator, every call ends after as many heights as had messages
waiting, from the first one that it starts on, and at most one more. -/
theorem starts_bounded (n : Node) : (∀ height, Bounded n (startHeight E ext height n)) ∧
    ∀ event, Bounded n (handle E ext event n) :=
  ⟨fun height => bounded_of_climbs (startHeight_climbs ext hmany height n),
    fun event => bounded_of_climbs (handle_climbs ext hmany event n)⟩

end

/-- Four validators at every height. -/
def four : Setup where
  __ := Setup.plain (.ofNat 1)
  validatorsAt _ := (Committee.plain 3).validators

/-- A node that holds the proposal of height 1 and the commits of the three others. -/
def waiting : Node where
  current := none
  backlog :=
    let block := Block.plain 1 []
    let proposal := Message.proposal <$>
      (Signer.plain (.ofNat 2)).propose .plain ⟨1, 0⟩ block [] []
    let commits := [2, 3, 4].map fun k => Message.commit <$>
      (Signer.plain (.ofNat k)).commit .plain ⟨1, 0⟩ (Scheme.plain.digest block)
    ((proposal :: commits).filterMap Except.toOption).foldl (fun b m => b.push 10 1 m) .empty

theorem starts_bounded_four : (∀ height, four.validatorsAt height ≠ [four.signer.address]) ∧
    waiting.backlog.awaited 1 = [1] ∧ starts (startHeight four .plain 1 waiting) = [1, 2] ∧
      (∀ height, Bounded waiting (startHeight four .plain height waiting)) ∧
        ∀ event, Bounded waiting (handle four .plain event waiting) := by
  have hmany : ∀ height, four.validatorsAt height ≠ [four.signer.address] := by
    intro height h
    have hlength : (Committee.plain 3).validators.length = 1 := congrArg List.length h
    exact absurd hlength (by decide)
  exact ⟨hmany, by decide +kernel, by decide +kernel, starts_bounded .plain hmany waiting⟩

end Node

end BlockAgreement
