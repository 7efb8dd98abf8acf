import BlockAgreement.Proofs.Turns
import BlockAgreement.Simulation.Station

/-! The timers of a height. Until the decision the timer of the current round runs, and no other;
once a block was handed over and taken none runs. The timer of the deciding round is left running
only by a turn that fails, and where the key works a turn fails for one reason after the decision:
the block was refused. -/

namespace BlockAgreement

namespace Table

variable {κ α : Type} [Ranked κ]

def single (k : κ) (a : α) : Table κ α := Table.empty.insert k a

@[simp] theorem erase_empty (k : κ) : (empty : Table κ α).erase k = empty := rfl

@[simp] theorem erase_single (k : κ) (a : α) : (single k a).erase k = empty := by
  simp [single, erase, filter, insert, insertEntry, empty]

end Table

/-- The timers that were started and not cancelled, with their milliseconds. -/
def running (log : List Effect) : Table RoundId UInt64 :=
  (log.foldl Simulation.Record.note .empty).active

section

variable {log es : List Effect} {round : RoundId} {milliseconds : UInt64}

theorem running_append_of_untimed (hes : ∀ e ∈ es, e.Untimed) :
    running (log ++ es) = running log := by
  induction es using List.reverseRecOn with
  | nil => rw [List.append_nil]
  | append_singleton es e ih =>
    obtain ⟨hes, he⟩ := List.forall_mem_append.1 hes
    rw [← ih hes, ← List.append_assoc, running, List.foldl_append]
    have he := he e (List.mem_singleton_self e)
    cases e with
    | startTimer | cancelTimer => exact he.elim
    | multicast | requestBlock => rfl
    | deliverBlock _ _ accepted => cases accepted <;> rfl

theorem running_start : running (log ++ [.startTimer round milliseconds]) =
    (running log).insert round milliseconds := by
  rw [running, List.foldl_append]
  rfl

theorem running_cancel : running (log ++ [.cancelTimer round]) = (running log).erase round := by
  rw [running, List.foldl_append]
  rfl

end

namespace Instance

variable {E : Setup} {i j : Instance} {log es : List Effect}

theorem phase_eq_committed_iff : i.phase = .committed ↔ i.isCommitted = true := by
  constructor
  · intro h
    by_contra hopen
    rw [phase, if_neg hopen] at h
    split at h
    · cases h
    · split at h <;> cases h
  · exact fun hc => if_pos hc

variable (E) in
/-- The timer of the round, and no other. -/
def timer (i : Instance) : Table RoundId UInt64 :=
  .single i.round.id (E.config.timeout i.round.id.number)

variable (E) in
/-- The timer runs and no block was taken, or the height is decided and no timer runs. -/
inductive Clocked (i : Instance) (log : List Effect) : Prop
  | ticking (hrun : running log = i.timer E)
      (htaken : ∀ b seals, .deliverBlock b seals true ∉ log)
  | stopped (hc : i.isCommitted = true) (hrun : running log = .empty)

theorem not_taken_append (hlog : ∀ b seals, .deliverBlock b seals true ∉ log)
    (hes : ∀ b seals, .deliverBlock b seals true ∉ es) :
    ∀ b seals, .deliverBlock b seals true ∉ log ++ es :=
  fun b seals hm => (List.mem_append.1 hm).elim (hlog b seals) (hes b seals)

/-- A turn stops the timer of a decided round, or fails and leaves it as it is. -/
theorem Turn.clocked (h : Turn E i es j) (hi : Clocked E i log) : Clocked E j (log ++ es) := by
  cases h with
  | aside hc hr hes =>
    have hrun : running (log ++ es) = running log :=
      running_append_of_untimed fun e he => (hes e he).untimed
    cases hi with
    | ticking hticks htaken =>
      refine .ticking ?_ (not_taken_append htaken fun _ _ hm => hes _ hm)
      rw [hrun, hticks, timer, timer, hr]
    | stopped hdecided hstopped =>
      exact .stopped (by rw [isCommitted, hr]; exact hdecided) (hrun.trans hstopped)
  | @turn _ o hc hr ho =>
    have hid : o.state.id = i.round.id := ho.tally.round
    have hrun : running (log ++ o.effects) = running log := running_append_of_untimed ho.untimed
    have hdecided : i.isCommitted = true → o.state.isCommitted = true := ho.tally.isCommitted
    rw [← List.append_assoc]
    by_cases hend : (o.result.isOk && o.state.isCommitted) = true
    · rw [if_pos hend, hid]
      refine .stopped (by rw [isCommitted, hr]; exact (Bool.and_eq_true_iff.1 hend).2) ?_
      rw [running_cancel, hrun]
      cases hi with
      | ticking hticks => rw [hticks, timer, Table.erase_single]
      | stopped _ hstopped => rw [hstopped, Table.erase_empty]
    · rw [if_neg hend, List.append_nil]
      cases hi with
      | ticking hticks htaken =>
        refine .ticking ?_ (not_taken_append htaken fun b seals hm => hend ?_)
        · rw [hrun, hticks, timer, timer, hr, hid]
        · obtain ⟨hc, hx⟩ := ho.delivery b seals true hm
          rw [hx rfl, hc]
          rfl
      | stopped hc hstopped =>
        exact .stopped (by rw [isCommitted, hr]; exact hdecided hc) (hrun.trans hstopped)
  | @enter _ n hc hr hopen =>
    cases hi with
    | ticking hticks htaken =>
      refine .ticking ?_ (not_taken_append htaken fun _ _ => by simp)
      rw [List.append_cons, running_start, running_cancel, hticks, timer, timer,
        Table.erase_single, hr]
      rfl
    | stopped hdecided => simp [hopen] at hdecided

end Instance

namespace History

variable (E : Setup) (C : Committee) (first : Collaborators) (calls : List Call)

theorem run_clocked : (run E C first calls).inst.Clocked E (run E C first calls).log := by
  obtain ⟨es, hlog, hturns⟩ := run_turns E C first calls
  have hnew : (Instance.new E C).Clocked E [.startTimer ⟨C.height, 0⟩ (E.config.timeout 0)] :=
    .ticking rfl fun _ _ => by simp
  rw [hlog]
  exact hturns.preserves (P := Instance.Clocked E) (fun _ _ _ _ hi h => h.clocked hi) hnew

/-- Before the decision the timer of the current round runs and no other. After it none does, unless
the block was handed over and refused; then that of the deciding round may still run. -/
theorem timers_follow (hE : E.Able) :
    let h := run E C first calls
    (h.inst.phase ≠ .committed → running h.log = h.inst.timer E) ∧
      (h.inst.phase = .committed → running h.log = .empty ∨ running h.log = h.inst.timer E ∧
        ∃ b seals, h.log.filter Effect.isDelivery = [.deliverBlock b seals false]) := by
  intro h
  rw [ne_eq, Instance.phase_eq_committed_iff]
  cases run_clocked E C first calls with
  | stopped hc hstopped => exact ⟨fun hopen => absurd hc hopen, fun _ => .inl hstopped⟩
  | ticking hticks htaken =>
    refine ⟨fun _ => hticks, fun hc => .inr ⟨hticks, ?_⟩⟩
    obtain ⟨b, seals, accepted, hm⟩ := exists_delivery E C first calls hE hc
    cases accepted with
    | true => exact absurd hm (htaken b seals)
    | false => exact ⟨b, seals, deliveries_eq hm rfl⟩

/-- Blocks are made, but not taken. -/
def refusing : Collaborators where
  __ := Collaborators.plain
  importBlock _ _ := .error (.blockImport "refused")

theorem timers_follow_refusing :
    let E := Setup.plain (.ofNat 1)
    let h := run E (.plain 0) refusing []
    E.Able ∧ (h.inst.phase ≠ .committed → running h.log = h.inst.timer E) ∧
      (h.inst.phase = .committed → running h.log = .empty ∨ running h.log = h.inst.timer E ∧
        ∃ b seals, h.log.filter Effect.isDelivery = [.deliverBlock b seals false]) := by
  have hable : (Setup.plain (.ofNat 1)).Able := ⟨fun _ => ⟨_, rfl⟩, Setup.plain_sound _⟩
  exact ⟨hable, timers_follow _ _ _ _ hable⟩

/-- A sole validator decides its height at the start. Its block is refused, and the timer of the
decided round still runs. -/
theorem sole_keeps_ticking :
    let h := run (.plain (.ofNat 1)) (.plain 0) refusing []
    (Setup.plain (.ofNat 1)).Able ∧ h.inst.phase = .committed ∧
      running h.log = .single ⟨1, 0⟩ 10000 ∧ running h.log ≠ .empty := by
  refine ⟨⟨fun _ => ⟨_, rfl⟩, Setup.plain_sound _⟩, ?_, ?_, ?_⟩ <;> decide +kernel

end History

end BlockAgreement
