import BlockAgreement.Proofs.Abreast

/-! The justifications that come of the round changes of a height, written down. Beside the state of
the height a list is kept, to which a justification is added wherever round changes are gathered,
and nowhere else. Without the list these are the handlers of the height: they end in the same way,
leave the same state and ask for the same. -/

namespace BlockAgreement

namespace Instance

/-- The state of a height, with the justifications that came of its round changes until then. -/
structure Tracked where
  inst : Instance
  justifications : List Justification

namespace Tracked

open Handler (Keeps Anything)

/-- A handler that leaves the list alone. -/
def lift {α : Type} (h : Handler Instance α) : Handler Tracked α :=
  .focus Tracked.inst (fun i t => { t with inst := i }) h

variable (E : Setup) (ext : Collaborators)

def append (C : Committee) (rc : RoundChange) : Handler Tracked (Option Justification) := do
  let j ← lift (onRoundChanges (RoundChanges.append E.scheme C rc))
  modify fun t => { t with justifications := t.justifications ++ j.toList }
  return j

def changeRound (target : UInt32) : Handler Tracked Unit := do
  lift (advance E ext target)
  lift (modify fun i => { i with changing := true })
  let i ← lift get
  if i.round.participates then
    let rc ← .ofExcept (E.signer.changeRound E.scheme i.round.id i.lock)
    .multicast (.roundChange rc)
    match ← append E i.committee rc with
    | some j => lift (enter E ext j)
    | none => return

def handleRoundChange (rc : RoundChange) : Handler Tracked Unit := do
  let i ← lift get
  if i.round.id.number ≤ rc.round.number && !i.isCommitted then
    match ← append E i.committee rc with
    | some j => lift (enter E ext j)
    | none =>
      let p ← lift (Instance.roundChanges <$> get)
      if E.config.earlyRoundChange then
        match p.earlyTarget? i.committee i.round.id.number with
        | some target => changeRound E ext target
        | none => return

def handleMessage (m : Message) : Handler Tracked Unit := do
  let i ← lift get
  if m.round.height = i.height then
    .absorb survives (match m with
      | .proposal p => lift (handleProposal E ext p)
      | .roundChange rc => handleRoundChange E ext rc
      | .prepare _ | .commit _ => lift (handleVote E ext m))

def roundExpired (round : RoundId) : Handler Tracked Unit := do
  let i ← lift get
  if round = i.round.id && !i.isCommitted then
    .absorb survives (changeRound E ext (nextNumber round.number))

def handle (c : Call) : Handler Tracked Unit :=
  match c.input with
  | .message m => handleMessage E c.ext m
  | .roundExpiry round => roundExpired E c.ext round

/-- A node that starts with an empty list and is then called. -/
def run (C : Committee) (first : Collaborators) (calls : List Call) : Tracked :=
  calls.foldl (fun t c => (handle E c t).state) (lift (start E first) ⟨.new E C, []⟩).state

section

variable {α : Type} (t : Tracked)

theorem lift_get_bind (f : Instance → Handler Tracked α) : (lift get >>= f) t = f t.inst t := rfl

theorem lift_roundChanges_bind (f : RoundChanges → Handler Tracked α) :
    (lift (Instance.roundChanges <$> get) >>= f) t = f t.inst.roundChanges t := rfl

theorem lift_modify_bind (g : Instance → Instance) (f : PUnit → Handler Tracked α) :
    (lift (modify g) >>= f) t = f ⟨⟩ { t with inst := g t.inst } := rfl

end

/-! ### Without the list -/

/-- Without the list, the handler does as the other one. -/
def Shows {α : Type} (h' : Handler Tracked α) (h : Handler Instance α) : Prop :=
  ∀ t, let o := h' t; h t.inst = ⟨o.result, o.state.inst, o.effects⟩

namespace Shows

variable {α β : Type} {h' : Handler Tracked α} {h : Handler Instance α}
  {f' : α → Handler Tracked β} {f : α → Handler Instance β}

protected theorem lift (h : Handler Instance α) : Shows (lift h) h := fun _ => rfl

protected theorem pure (a : α) : Shows (pure a) (pure a) := fun _ => rfl

protected theorem ofExcept (r : Except Error α) : Shows (.ofExcept r) (.ofExcept r) := fun _ => rfl

protected theorem multicast (m : Message) : Shows (.multicast m) (.multicast m) := fun _ => rfl

protected theorem bind (hh : Shows h' h) (hf : ∀ a, Shows (f' a) (f a)) :
    Shows (h' >>= f') (h >>= f) := by
  intro t
  have ht := hh t
  rcases ho : h' t with ⟨x, u, es⟩
  rw [ho] at ht
  cases x with
  | error e => rw [Handler.bind_of_error _ ho, Handler.bind_of_error _ ht]
  | ok a =>
    rw [Handler.bind_of_ok _ ho, Handler.bind_of_ok _ ht, hf a u]

protected theorem absorb {h' : Handler Tracked Unit} {h : Handler Instance Unit}
    (hh : Shows h' h) (ok : Error → Bool) : Shows (.absorb ok h') (.absorb ok h) := by
  intro t
  have ht := hh t
  rcases ho : h' t with ⟨x, u, es⟩
  rw [ho] at ht
  simp only [Handler.absorb, ho, ht]
  cases x with
  | error e =>
    dsimp only
    split <;> rfl
  | ok => rfl

end Shows

variable {E}

theorem append_shows (C : Committee) (rc : RoundChange) :
    Shows (append E C rc) (onRoundChanges (RoundChanges.append E.scheme C rc)) := by
  have hnote : ∀ j : Option Justification, Shows (do
      modify fun t => { t with justifications := t.justifications ++ j.toList }
      return j) (pure j) := fun j t => rfl
  have h := (Shows.lift (onRoundChanges (RoundChanges.append E.scheme C rc))).bind hnote
  rwa [bind_pure] at h

theorem changeRound_shows (target : UInt32) :
    Shows (changeRound E ext target) (Instance.changeRound E ext target) := by
  refine .bind (.lift _) fun _ => .bind (.lift _) fun _ => .bind (.lift get) fun i => ?_
  split
  · refine .bind (.ofExcept _) fun rc => .bind (.multicast _) fun _ =>
      .bind (append_shows _ rc) fun j => ?_
    cases j with
    | some j => exact .lift _
    | none => exact .pure _
  · exact .pure _

theorem handleRoundChange_shows (rc : RoundChange) :
    Shows (handleRoundChange E ext rc) (Instance.handleRoundChange E ext rc) := by
  refine .bind (.lift get) fun i => ?_
  split
  · refine .bind (append_shows _ rc) fun j => ?_
    cases j with
    | some j => exact .lift _
    | none =>
      refine .bind (.lift _) fun p => ?_
      split
      · cases p.earlyTarget? i.committee i.round.id.number with
        | some target => exact changeRound_shows ext target
        | none => exact .pure _
      · exact .pure _
  · exact .pure _

theorem handleMessage_shows (m : Message) :
    Shows (handleMessage E ext m) (Instance.handleMessage E ext m) := by
  refine .bind (.lift get) fun i => ?_
  split
  · refine Shows.absorb ?_ survives
    cases m with
    | proposal => exact .lift _
    | roundChange rc => exact handleRoundChange_shows ext rc
    | prepare | commit => exact .lift _
  · exact .pure _

theorem roundExpired_shows (round : RoundId) :
    Shows (roundExpired E ext round) (Instance.roundExpired E ext round) := by
  refine .bind (.lift get) fun i => ?_
  split
  · exact .absorb (changeRound_shows ext _) survives
  · exact .pure _

theorem handle_shows (c : Call) : Shows (handle E c) (Instance.handle E c) := by
  unfold handle Instance.handle
  cases c.input with
  | message m => exact handleMessage_shows c.ext m
  | roundExpiry round => exact roundExpired_shows c.ext round

theorem run_append (C : Committee) (first : Collaborators) (calls more : List Call) :
    run E C first (calls ++ more) =
      more.foldl (fun t c => (handle E c t).state) (run E C first calls) :=
  List.foldl_append

theorem inst_run (C : Committee) (first : Collaborators) (calls : List Call) :
    (run E C first calls).inst = (History.run E C first calls).inst := by
  induction calls using List.reverseRecOn with
  | nil => rfl
  | append_singleton calls c ih =>
    rw [run_append, History.run_append]
    show (handle E c (run E C first calls)).state.inst =
      (Instance.handle E c (History.run E C first calls).inst).state
    rw [← ih, handle_shows c (run E C first calls)]

end Tracked

end Instance

end BlockAgreement
