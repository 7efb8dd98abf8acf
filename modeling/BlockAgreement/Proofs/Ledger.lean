import BlockAgreement.Proofs.Resting

/-! The ledger of a node. It is kept beside the node, call by call: what was put by for later
heights, the heights that were entered, and what the running height was given. A call either enters
heights, from a later one on, or the running height goes on with what the call gives to it. -/

namespace BlockAgreement

namespace Node

variable (E : Setup)

/-- What an event adds to the messages that are held: a message for a height that is not too far
ahead, from a member of that height, while there is room. -/
def putBy? (n : Node) : Event → Option Message
  | .message m =>
    match n.current with
    | some i =>
      if i.height < m.round.height ∧ m.round.height - i.height ≤ E.config.horizon ∧
          n.backlog.held < E.config.bufferLimit.toNat ∧
          ∃ a ∈ E.validatorsAt m.round.height, m.author E.scheme = .ok a then
        some m
      else none
    | none => none
  | .roundExpiry _ | .chainHead _ => none

/-- What a call gives to the running height. -/
def given? (n : Node) (c : Call) : Option BlockAgreement.Call :=
  n.current.bind fun i =>
    match c.event with
    | .message m => if m.round.height = i.height then some ⟨c.ext, .message m⟩ else none
    | .roundExpiry round =>
      if i.height = round.height then some ⟨c.ext, .roundExpiry round⟩ else none
    | .chainHead _ => none

/-- A node with what is known of its calls until then. -/
structure Ledger where
  node : Node
  /-- The messages that were put by for later heights, in the order in which they came. -/
  putBy : List Message
  /-- What the running height was given since it was entered. -/
  given : List BlockAgreement.Call
  /-- The heights that were entered. -/
  heights : List UInt64

namespace Ledger

def opening (first : Collaborators) (height : UInt64) : Ledger :=
  let o := startHeight E first height new
  ⟨o.state, [], [], starts o⟩

/-- A height that is entered is given what was put by for it; otherwise the call may be for the
running height. -/
def after (l : Ledger) (c : Call) : Ledger :=
  let o := handle E c.ext c.event l.node
  { node := o.state
    putBy := l.putBy ++ (putBy? E l.node c.event).toList
    given := match (starts o).getLast? with
      | some height => (l.putBy.filter (·.round.height = height)).map fun m => ⟨c.ext, .message m⟩
      | none => l.given ++ (given? l.node c).toList
    heights := l.heights ++ starts o }

end Ledger

variable (first : Collaborators) (height : UInt64) (calls : List Call)

def ledger : Ledger := calls.foldl (Ledger.after E) (.opening E first height)

theorem ledger_concat (c : Call) :
    ledger E first height (calls ++ [c]) = (ledger E first height calls).after E c := by
  rw [ledger, List.foldl_append]
  rfl

theorem node_ledger : (ledger E first height calls).node = run E first height calls := by
  induction calls using List.reverseRecOn with
  | nil => rfl
  | append_singleton calls c ih =>
    rw [run_concat, ← ih, ledger_concat]
    rfl

/-- The heights that a call enters come last. -/
theorem heights_concat (c : Call) : (ledger E first height (calls ++ [c])).heights =
    (ledger E first height calls).heights ++
      starts (handle E c.ext c.event (run E first height calls)) := by
  rw [ledger_concat, ← node_ledger]
  rfl

theorem heights_subset (more : List Call) : (ledger E first height calls).heights ⊆
    (ledger E first height (calls ++ more)).heights := by
  induction more using List.reverseRecOn with
  | nil => rw [List.append_nil]; exact List.Subset.refl _
  | append_singleton more c ih =>
    rw [← List.append_assoc, heights_concat]
    exact List.subset_append_of_subset_left _ ih

/-! ### Calls -/

variable {E first height calls} {n : Node} {i : Instance}

/-- The failures of a call at a height that is not left: what escapes the handlers of the height,
and that there is no other to go to. -/
def Halts (E : Setup) (ext : Collaborators) (height : UInt64) (e : Error) : Prop :=
  E.Escapes ext e ∨ e = .overflow ∧ height = lastHeight

/-- How a call ends: heights from a later one on are entered, or the running one goes on. -/
inductive Ends (E : Setup) (c : Call) (n : Node) (i : Instance) (o : Outcome Node Unit) : Prop
  | enters {height : UInt64} {m : Node} (hlater : i.height < height)
      (hbacklog : m.backlog = n.backlog) (hput : putBy? E n c.event = none)
      (hresult : o.result = (startHeight E c.ext height m).result)
      (hstate : o.state = (startHeight E c.ext height m).state)
      (hstarts : starts o = starts (startHeight E c.ext height m))
  | stays (hfails : Fails (Halts E c.ext i.height) o.result) (hstarts : starts o = [])
      (hcurrent : o.state.current =
        some ((given? n c).elim i fun b => (Instance.handle E b i).state))
      (hbacklog : o.state.backlog = (putBy? E n c.event).elim n.backlog fun m =>
        n.backlog.push E.config.bufferLimit.toNat m.round.height m)

theorem of_putBy {e : Event} {m : Message} (h : putBy? E n e = some m) :
    ∃ i, n.current = some i ∧ i.height < m.round.height ∧
      n.backlog.held < E.config.bufferLimit.toNat ∧
        ∃ a ∈ E.validatorsAt m.round.height, m.author E.scheme = .ok a := by
  cases e with
  | message x =>
    rw [putBy?] at h
    split at h
    · next i hn =>
      split at h
      · next hput =>
        cases h
        exact ⟨i, hn, hput.1, hput.2.2⟩
      · cases h
    · cases h
  | roundExpiry => cases h
  | chainHead => cases h

theorem Ends.rests {c : Call} (hn : n.current = some i) (hgiven : given? n c = none)
    (hput : putBy? E n c.event = none) : Ends E c n i ⟨.ok (), n, []⟩ :=
  .stays (.pure ()) rfl (by rw [hgiven]; exact hn) (by rw [hput]; rfl)

/-- A message for a later height is put by, and nothing else happens. -/
theorem hold_apply (hn : n.current = some i) {m : Message} (hlater : i.height < m.round.height) :
    hold E i.height m n = ⟨.ok (), ⟨some i, (putBy? E n (.message m)).elim n.backlog fun m =>
      n.backlog.push E.config.bufferLimit.toNat m.round.height m⟩, []⟩ := by
  obtain ⟨current, b⟩ := n
  cases hn
  have hput : putBy? E ⟨some i, b⟩ (.message m) =
      if m.round.height - i.height ≤ E.config.horizon ∧ b.held < E.config.bufferLimit.toNat ∧
        ∃ a ∈ E.validatorsAt m.round.height, m.author E.scheme = .ok a then some m else none := by
    simp [putBy?, hlater]
  rw [hold, hput]
  by_cases hnear : m.round.height - i.height ≤ E.config.horizon
  · rw [if_pos hnear]
    cases hauthor : m.author E.scheme with
    | error e =>
      have hnone : ¬ ∃ a ∈ E.validatorsAt m.round.height,
          (.error e : Except Error Address) = .ok a := by
        rintro ⟨_, _, ⟨⟩⟩
      rw [if_neg fun h => hnone h.2.2]
      rfl
    | ok a =>
      dsimp only
      by_cases ha : a ∈ E.validatorsAt m.round.height
      · rw [if_pos (List.contains_iff_mem.2 ha)]
        rcases Nat.lt_or_ge b.held E.config.bufferLimit.toNat with hroom | hfull
        · rw [if_pos ⟨hnear, hroom, a, ha, rfl⟩]
          rfl
        · rw [if_neg fun h => Nat.not_lt.2 hfull h.2.1]
          exact congrArg (fun b => (⟨.ok (), ⟨some i, b⟩, []⟩ : Outcome Node Unit))
            (Backlog.push_of_full hfull _ m)
      · have hnone : ¬ ∃ x ∈ E.validatorsAt m.round.height,
            (.ok a : Except Error Address) = .ok x := by
          rintro ⟨_, hx, ⟨⟩⟩
          exact ha hx
        rw [if_neg (mt List.contains_iff_mem.1 ha), if_neg fun h => hnone h.2.2]
        rfl
  · rw [if_neg hnear, if_neg fun h => hnear h.1]
    rfl

theorem handleMessage_ends (ext : Collaborators) (m : Message) (hn : n.current = some i) :
    Ends E ⟨ext, .message m⟩ n i (handleMessage E ext m n) := by
  rw [handleMessage, Handler.get_bind, hn]
  dsimp only
  split
  · next hlater =>
    have hgiven : given? n ⟨ext, .message m⟩ = none := by
      have hne : m.round.height ≠ i.height := fun h => UInt64.lt_irrefl _ (h ▸ hlater)
      simp [given?, hn, hne]
    rw [hold_apply hn hlater]
    exact .stays (.pure ()) rfl (by rw [hgiven]; rfl) rfl
  next hnot =>
  have hput : putBy? E n (.message m) = none := by simp [putBy?, hn, hnot]
  split
  · next hheight =>
    have hgiven : given? n ⟨ext, .message m⟩ = some ⟨ext, .message m⟩ := by
      simp [given?, hn, hheight]
    have hbehaves := Instance.handleMessage_behaves E ext m
    have hwithin := filterMap_started (hbehaves.asks i)
    have hfails := hbehaves.fails i
    rcases ho : Instance.handleMessage E ext m i with ⟨x, j, es⟩
    rw [ho] at hwithin hfails
    have hj : some j = some ((given? n ⟨ext, .message m⟩).elim i fun b =>
        (Instance.handle E b i).state) := by
      rw [hgiven]
      exact congrArg (fun o => some o.state) ho.symm
    have hstays : ∀ {x : Except Error Unit}, Fails (Halts E ext i.height) x →
        Ends E ⟨ext, .message m⟩ n i ⟨x, { n with current := some j }, es⟩ :=
      fun hx => .stays hx hwithin hj (by rw [hput]; rfl)
    have hon := onInstance_apply n ho
    cases x with
    | error e =>
      rw [Handler.bind_of_error _ hon]
      exact hstays (hfails.mono fun _ => .inl)
    | ok =>
      rw [Handler.bind_of_ok _ hon, Handler.get_bind]
      dsimp only
      split
      · cases hnext : heightAfter i.height with
        | ok next =>
          refine .enters (m := { n with current := some j }) (lt_heightAfter hnext) rfl hput rfl rfl
            ?_
          rw [starts, List.filterMap_append, hwithin]
          rfl
        | error e =>
          rw [Handler.ofExcept_error_bind, List.append_nil]
          exact hstays (.throw (.inr (of_heightAfter_error hnext)))
      · show Ends E _ n i ⟨.ok (), _, es ++ []⟩
        rw [List.append_nil]
        exact hstays (.pure ())
  · next hne => exact .rests hn (by simp [given?, hn, hne]) hput

theorem handleRoundExpiry_ends (ext : Collaborators) (round : RoundId) (hn : n.current = some i) :
    Ends E ⟨ext, .roundExpiry round⟩ n i (handleRoundExpiry E ext round n) := by
  rw [handleRoundExpiry, Handler.get_bind, hn]
  dsimp only
  split
  · next hheight =>
    have hgiven : given? n ⟨ext, .roundExpiry round⟩ = some ⟨ext, .roundExpiry round⟩ := by
      simp [given?, hn, hheight]
    have hbehaves := Instance.roundExpired_behaves E ext round
    rw [onInstance_apply n rfl]
    exact .stays ((hbehaves.fails i).mono fun _ => .inl) (filterMap_started (hbehaves.asks i))
      (by rw [hgiven]; rfl) rfl
  · next hne => exact .rests hn (by simp [given?, hn, hne]) rfl

theorem handleChainHead_ends (ext : Collaborators) (number : UInt64) (hn : n.current = some i) :
    Ends E ⟨ext, .chainHead number⟩ n i (handleChainHead E ext number n) := by
  rw [handleChainHead, Handler.get_bind, hn]
  split
  · next hnext =>
    refine .enters ?_ rfl rfl rfl rfl rfl
    simpa using hnext
  · exact .rests hn (by simp [given?, hn]) rfl

/-- A call gives to the running height what is for it, and heights are entered only upwards. -/
theorem handle_ends (c : Call) (hn : n.current = some i) :
    Ends E c n i (handle E c.ext c.event n) := by
  obtain ⟨ext, event⟩ := c
  cases event with
  | message m => exact handleMessage_ends ext m hn
  | roundExpiry round => exact handleRoundExpiry_ends ext round hn
  | chainHead number => exact handleChainHead_ends ext number hn

end Node

end BlockAgreement
