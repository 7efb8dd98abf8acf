import BlockAgreement.Proofs.Heights

/-! When a node rests on a decided height instead of going on to the next one. A height that a
message decides, or what was held for it, or its own start, is left in the same call, unless the
call fails. Only an expiry of a round is handled without a look at what it decided: the node then
stays at the height. -/

namespace BlockAgreement

variable {E : Setup}

namespace Node

/-- What may happen to a node, with the answers of those who make and take blocks. -/
structure Call where
  ext : Collaborators
  event : Event

def after (E : Setup) (n : Node) (c : Call) : Node := (handle E c.ext c.event n).state

/-- A new node is started at a height, with the answers of `first`, and then called. -/
def run (E : Setup) (first : Collaborators) (height : UInt64) (calls : List Call) : Node :=
  calls.foldl (after E) (startHeight E first height new).state

theorem run_concat (first : Collaborators) (height : UInt64) (calls : List Call) (c : Call) :
    run E first height (calls ++ [c]) = (run E first height calls).after E c := by
  rw [run, List.foldl_append]
  rfl

/-- The node runs a height that is decided. -/
def Rests (n : Node) : Prop := ∃ i ∈ n.current, i.isCommitted = true

instance : DecidablePred Rests := fun _ => inferInstanceAs (Decidable (∃ i ∈ _, _ = _))

variable (E) in
/-- What holds of a node at all times. -/
def Sane (n : Node) : Prop := ∀ i ∈ n.current, i.Sane E

variable (ext : Collaborators) {n : Node}

/-- However far it goes, a node that starts a height does not rest. -/
theorem Proceeds.sane {height : UInt64} {o : Outcome Node Unit} (h : Proceeds E ext height n o) :
    o.state.Sane E ∧ ¬ o.state.Rests := by
  -- Along the loop: only the height at which it stops is looked at.
  induction h with
  | fails hm => simp [Sane, Rests, hm]
  | runs hi hopen =>
    refine ⟨?_, ?_⟩
    · rintro j ⟨⟩
      exact hi.sane
    · rintro ⟨j, ⟨⟩, hj⟩
      exact Bool.noConfusion (hopen.symm.trans hj)
  | goesOn _ _ _ _ ih => exact ih
  | ends => simp [Sane, Rests]

theorem startHeight_sane (height : UInt64) (n : Node) :
    (startHeight E ext height n).state.Sane E ∧ ¬ (startHeight E ext height n).state.Rests :=
  (startHeight_proceeds E ext height n).sane

theorem hold_current (height : UInt64) (m : Message) :
    (hold E height m n).state.current = n.current := by
  rw [hold]
  split
  · cases m.author E.scheme with
    | error => rfl
    | ok a =>
      dsimp only
      split <;> rfl
  · rfl

/-- After a message the node rests only if it did so before, or if the call failed. -/
theorem handleMessage_rests (hn : n.Sane E) (m : Message) :
    (handleMessage E ext m n).state.Sane E ∧ ((handleMessage E ext m n).state.Rests →
      n.Rests ∨ ∃ e, (handleMessage E ext m n).result = .error e) := by
  rw [handleMessage, Handler.get_bind]
  cases hcurrent : n.current with
  | none => exact ⟨hn, .inl⟩
  | some i =>
    dsimp only
    split
    · have hheld := hold_current (E := E) (n := n) i.height m
      exact ⟨by rwa [Sane, hheld], fun h => .inl (by rwa [Rests, hheld] at h)⟩
    split
    · have hj := ((hn i hcurrent).handleMessage ext m).1
      rcases ho : Instance.handleMessage E ext m i with ⟨x, j, es⟩
      rw [ho] at hj
      have hsane : Sane E { n with current := some j } := by
        rintro k ⟨⟩
        exact hj
      have hon := onInstance_apply n ho
      -- A failure leaves the height as it is, decided or not; else the node looks at it.
      cases x with
      | error e =>
        rw [Handler.bind_of_error _ hon]
        exact ⟨hsane, fun _ => .inr ⟨e, rfl⟩⟩
      | ok =>
        rw [Handler.bind_of_ok _ hon, Handler.get_bind]
        dsimp only
        split
        · cases heightAfter i.height with
          | error e =>
            rw [Handler.ofExcept_error_bind]
            exact ⟨hsane, fun _ => .inr ⟨e, rfl⟩⟩
          | ok next =>
            rw [Handler.ofExcept_ok_bind]
            obtain ⟨hsane, hrests⟩ :=
              startHeight_sane (E := E) ext next { n with current := some j }
            exact ⟨hsane, fun h => absurd h hrests⟩
        · next hopen =>
          refine ⟨hsane, ?_⟩
          rintro ⟨k, ⟨⟩, hk⟩
          exact absurd hk hopen
    · exact ⟨hn, .inl⟩

/-- An expiry never moves a node to another height, whatever it decides. -/
theorem handleRoundExpiry_stays (hn : n.Sane E) (round : RoundId) :
    (handleRoundExpiry E ext round n).state.Sane E ∧
      (handleRoundExpiry E ext round n).state.current.map Instance.height =
        n.current.map Instance.height := by
  rw [handleRoundExpiry, Handler.get_bind]
  cases hcurrent : n.current with
  | none => exact ⟨hn, congrArg (Option.map _) hcurrent⟩
  | some i =>
    dsimp only
    split
    · obtain ⟨hj, hcommittee⟩ := (hn i hcurrent).roundExpired ext round
      refine ⟨?_, congrArg (some ∘ Committee.height) hcommittee⟩
      rintro k ⟨⟩
      exact hj
    · exact ⟨hn, congrArg (Option.map _) hcurrent⟩

theorem handleChainHead_rests (hn : n.Sane E) (number : UInt64) :
    (handleChainHead E ext number n).state.Sane E ∧
      ((handleChainHead E ext number n).state.Rests → n.Rests) := by
  rw [handleChainHead, Handler.get_bind]
  split
  · obtain ⟨hsane, hrests⟩ := startHeight_sane (E := E) ext (nextHeight number) n
    exact ⟨hsane, fun h => absurd h hrests⟩
  · exact ⟨hn, id⟩

/-- One call: what brings a node to rest is an expiry, or a failure of the call. -/
theorem handle_rests (hn : n.Sane E) (event : Event) :
    (handle E ext event n).state.Sane E ∧ ((handle E ext event n).state.Rests →
      n.Rests ∨ (∃ round, event = .roundExpiry round) ∨
        ∃ e, (handle E ext event n).result = .error e) := by
  cases event with
  | message m =>
    obtain ⟨hsane, hrests⟩ := handleMessage_rests ext hn m
    exact ⟨hsane, fun h => (hrests h).imp_right .inr⟩
  | roundExpiry round =>
    exact ⟨(handleRoundExpiry_stays ext hn round).1, fun _ => .inr (.inl ⟨round, rfl⟩)⟩
  | chainHead number =>
    obtain ⟨hsane, hrests⟩ := handleChainHead_rests ext hn number
    exact ⟨hsane, fun h => .inl (hrests h)⟩

theorem run_sane (first : Collaborators) (height : UInt64) (calls : List Call) :
    (run E first height calls).Sane E := by
  induction calls using List.reverseRecOn with
  | nil => exact (startHeight_sane first height new).1
  | append_singleton calls c ih =>
    rw [run_concat]
    exact (handle_rests c.ext ih c.event).1

/-- In a run of calls a node that rests came to rest in a call that handled the expiry of a round,
or in one that failed. -/
theorem rests_by_expiry {first : Collaborators} {height : UInt64} {calls : List Call}
    (h : (run E first height calls).Rests) :
    ∃ before c after, calls = before ++ c :: after ∧
      ¬ (run E first height before).Rests ∧ (run E first height (before ++ [c])).Rests ∧
        ((∃ round, c.event = .roundExpiry round) ∨
          ∃ e, (handle E c.ext c.event (run E first height before)).result = .error e) := by
  induction calls using List.reverseRecOn with
  | nil => exact absurd h (startHeight_sane first height new).2
  | append_singleton calls c ih =>
    by_cases hbefore : (run E first height calls).Rests
    · obtain ⟨before, d, after, rfl, hrest⟩ := ih hbefore
      exact ⟨before, d, after ++ [c], by simp, hrest⟩
    · have hafter := h
      rw [run_concat] at h
      obtain hc := (handle_rests c.ext (run_sane first height calls) c.event).2 h
      exact ⟨calls, c, [], rfl, hbefore, hafter, hc.resolve_left hbefore⟩

/-- The first height has a single validator, the later ones have four. -/
def founding : Setup where
  __ := Setup.plain (.ofNat 1)
  validatorsAt height := if height = 1 then [.ofNat 1] else (Committee.plain 3).validators

/-- Nobody has a block to propose. -/
def idle : Collaborators where
  __ := Collaborators.plain
  createBlock _ := .error (.blockCreation "no block yet")

theorem rests_by_expiry_founding :
    (run founding idle 1 [⟨.plain, .roundExpiry ⟨1, 0⟩⟩]).Rests ∧
    ∃ before c after, [⟨.plain, .roundExpiry ⟨1, 0⟩⟩] = before ++ c :: after ∧
      ¬ (run founding idle 1 before).Rests ∧ (run founding idle 1 (before ++ [c])).Rests ∧
        ((∃ round, c.event = .roundExpiry round) ∨
          ∃ e, (handle founding c.ext c.event (run founding idle 1 before)).result = .error e) := by
  have hrests : (run founding idle 1 [⟨.plain, .roundExpiry ⟨1, 0⟩⟩]).Rests := by decide +kernel
  exact ⟨hrests, rests_by_expiry hrests⟩

/-- A call that succeeds may leave a node at rest on a height that the call decided. -/
theorem founding_rests : (∀ height, founding.validatorsAt height ≠ []) ∧
    (handle founding .plain (.roundExpiry ⟨1, 0⟩) (run founding idle 1 [])).result = .ok () ∧
      ¬ (run founding idle 1 []).Rests ∧
        (run founding idle 1 [⟨.plain, .roundExpiry ⟨1, 0⟩⟩]).Rests := by
  refine ⟨fun height => ?_, by decide +kernel, by decide +kernel, by decide +kernel⟩
  show (if height = 1 then _ else _) ≠ []
  split
  · exact List.cons_ne_nil _ _
  · exact (Committee.plain 3).validators_ne_nil

end Node

end BlockAgreement
