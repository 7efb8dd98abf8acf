import BlockAgreement.Proofs.Alone
import BlockAgreement.Proofs.Conduct

/-! From height to height. A node that is started goes on as long as heights are decided by what was
held for them, and where several validators decide, each height but the first takes up messages that
were held. It comes to rest at a decided height only when the end of a round decided it. -/

namespace BlockAgreement

variable {E : Setup}

theorem Committee.new?_eq_ok {height : UInt64} {validators : List Address} {rotation : Rotation}
    {C : Committee} (h : new? height validators rotation = .ok C) :
    C.height = height ∧ C.validators = validators := by
  unfold new? at h
  split at h
  · cases h
    exact ⟨rfl, rfl⟩
  · cases h

theorem Collaborators.plain_mild : Collaborators.plain.Mild := by
  rintro e (⟨_, ⟨⟩⟩ | ⟨_, _, ⟨⟩⟩)

namespace Instance

variable {C : Committee} {i : Instance}

variable (E) in
/-- What holds of a height whatever it is given. -/
def Sane (i : Instance) : Prop := Settled E i.committee (.any (fun _ => True) True) i

theorem sane_of_settled (h : Settled E C (.any (fun _ => True) True) i) :
    i.Sane E ∧ i.committee = C := by
  have hc := h.formed.committee
  subst hc
  exact ⟨h, rfl⟩

theorem Sane.handleMessage (hi : i.Sane E) (ext : Collaborators) (m : Message) :
    (handleMessage E ext m i).state.Sane E ∧
      (Instance.handleMessage E ext m i).state.committee = i.committee :=
  sane_of_settled (handleMessage_arrives ext (fun _ _ _ => trivial) hi
    (Outside.admits_any m)).does.2

theorem Sane.roundExpired (hi : i.Sane E) (ext : Collaborators) (round : RoundId) :
    (roundExpired E ext round i).state.Sane E ∧
      (Instance.roundExpired E ext round i).state.committee = i.committee :=
  sane_of_settled (roundExpired_arrives ext (fun _ _ _ => trivial) hi fun _ _ _ => trivial).does.2

theorem Sane.handle (hi : i.Sane E) (c : Call) :
    (handle E c i).state.Sane E ∧ (Instance.handle E c i).state.committee = i.committee := by
  rcases c with ⟨ext, m | round⟩
  · exact hi.handleMessage ext m
  · exact hi.roundExpired ext round

theorem handle_within (c : Call) (i : Instance) : ∀ e ∈ (handle E c i).effects, e.Within := by
  rcases c with ⟨ext, m | round⟩
  · exact (handleMessage_behaves E ext m).asks i
  · exact (roundExpired_behaves E ext round).asks i

end Instance

theorem filterMap_started {es : List Effect} (h : ∀ e ∈ es, e.Within) :
    es.filterMap Effect.started? = [] :=
  List.filterMap_eq_nil_iff.2 h

namespace History

variable (E)

/-- The only height that is started is the one of the run. -/
theorem run_started (C : Committee) (first : Collaborators) (calls : List Call) :
    (run E C first calls).log.filterMap Effect.started? = [C.height] := by
  induction calls using List.reverseRecOn with
  | nil =>
    have hrest := filterMap_started
      ((Instance.proposeIfProposer_behaves E first none).asks (Instance.new E C))
    show (Instance.start E first (Instance.new E C)).effects.filterMap _ = _
    rw [Instance.start, Handler.get_bind, Handler.ask_bind, Handler.absorb_effects]
    exact congrArg (C.height :: ·) hrest
  | append_singleton calls c ih =>
    rw [run_append]
    show ((run E C first calls).log ++ _).filterMap _ = _
    rw [List.filterMap_append, ih, filterMap_started (Instance.handle_within c _)]
    rfl

/-- Messages that are handled one after the other are calls, up to the first that fails. -/
theorem exists_replayed (ext : Collaborators) (ms : List Message) (h : History) :
    ∃ calls : List Call, (∀ c ∈ calls, c.ext = ext) ∧
      let o := ms.forM (Instance.handleMessage E ext) h.inst
      (o.result = .ok ⟨⟩ → calls = ms.map fun m => ⟨ext, .message m⟩) ∧
        calls.foldl (after E) h = ⟨o.state, h.log ++ o.effects⟩ := by
  induction ms generalizing h with
  | nil =>
    exact ⟨[], List.forall_mem_nil _, fun _ => rfl,
      congrArg (History.mk h.inst) (List.append_nil h.log).symm⟩
  | cons m ms ih =>
    rcases ho : Instance.handleMessage E ext m h.inst with ⟨x, i, es⟩
    have hafter : h.after E ⟨ext, .message m⟩ = ⟨i, h.log ++ es⟩ :=
      congrArg (fun o : Outcome Instance Unit => (⟨o.state, h.log ++ o.effects⟩ : History)) ho
    have hforM : (m :: ms).forM (Instance.handleMessage E ext) =
        Instance.handleMessage E ext m >>= fun _ => ms.forM (Instance.handleMessage E ext) := rfl
    rw [hforM]
    cases x with
    | error e =>
      refine ⟨[⟨ext, .message m⟩], List.forall_mem_singleton.2 rfl, ?_⟩
      rw [Handler.bind_of_error _ ho]
      exact ⟨nofun, hafter⟩
    | ok =>
      obtain ⟨calls, hcalls, hall, hfold⟩ := ih (h.after E ⟨ext, .message m⟩)
      refine ⟨⟨ext, .message m⟩ :: calls, List.forall_mem_cons.2 ⟨rfl, hcalls⟩, ?_⟩
      rw [Handler.bind_of_ok _ ho, List.foldl_cons, hfold]
      rw [hafter] at hall ⊢
      exact ⟨fun hok => congrArg _ (hall hok), by simp only [List.append_assoc]⟩

end History

namespace Node

/-- The height that none comes after. -/
def lastHeight : UInt64 := 0xFFFFFFFFFFFFFFFF

theorem eq_of_heightAfter {height next : UInt64} (h : heightAfter height = .ok next) :
    next = height + 1 := by
  unfold heightAfter at h
  split at h <;> cases h
  rfl

theorem lt_heightAfter {height next : UInt64} (h : heightAfter height = .ok next) :
    height < next := by
  rw [UInt64.lt_iff_toNat_lt, toNat_heightAfter h]
  exact Nat.lt_succ_self _

theorem of_heightAfter_error {height : UInt64} {e : Error} (h : heightAfter height = .error e) :
    e = .overflow ∧ height = lastHeight := by
  unfold heightAfter at h
  split at h
  · cases h
  · next hge =>
    cases h
    have hmax : lastHeight.toNat = UInt64.size - 1 := rfl
    have hlt := height.toNat_lt_size
    exact ⟨rfl, UInt64.toNat_inj.1 (by omega)⟩

variable (E) (ext : Collaborators) (height : UInt64) (n : Node)

/-- The heights that are started by what a call asks for. -/
def starts {α : Type} (o : Outcome Node α) : List UInt64 := o.effects.filterMap Effect.started?

theorem leave_apply : ∃ es, leave n = ⟨.ok (), { n with current := none }, es⟩ ∧
    ∀ e ∈ es, ∃ round, e = .cancelTimer round := by
  obtain ⟨current, backlog⟩ := n
  cases current with
  | none => exact ⟨[], rfl, List.forall_mem_nil _⟩
  | some i => exact ⟨_, rfl, fun e he => ⟨_, List.mem_singleton.1 he⟩⟩

theorem on_apply {σ τ : Type} {h : Handler τ Unit} {s : σ} {t u : τ} {x : Except Error Unit}
    {es : List Effect} (hh : h t = ⟨x, u, es⟩) :
    Handler.on t h s = ⟨x.map fun _ => u, s, es⟩ := by
  rw [Handler.on, hh]

theorem onInstance_apply {i j : Instance} {h : Handler Instance Unit} {x : Except Error Unit}
    {es : List Effect} (hh : h i = ⟨x, j, es⟩) :
    onInstance i h n = ⟨x, { n with current := some j }, es⟩ := by
  rw [onInstance, Handler.focus, hh]

/-- The messages that are held for a height, as calls. -/
def handed (b : Backlog UInt64) : List BlockAgreement.Call :=
  (b.queue height).map fun m => ⟨ext, .message m⟩

theorem ext_of_mem_handed (b : Backlog UInt64) : ∀ c ∈ handed ext height b, c.ext = ext :=
  List.forall_mem_map.2 fun _ _ => rfl

/-- How the start of a height comes out: unless there are no validators, the height is run with the
messages that were held for it, up to the first that fails. -/
inductive Launches : Outcome Node Instance → Prop
  | vacant {e : Error} : Launches ⟨.error e, n, []⟩
  | failed {C : Committee} {calls : List Call} {e : Error} {m : Node} (hC : C.height = height)
      (hcalls : ∀ c ∈ calls, c.ext = ext) (hm : m.current = n.current) :
      Launches ⟨.error e, m, (History.run E C ext calls).log⟩
  | launched {C : Committee} (hC : C.height = height)
      (hvalidators : C.validators = E.validatorsAt height) :
      Launches ⟨.ok (History.run E C ext (handed ext height n.backlog)).inst,
        { n with backlog := n.backlog.discardThrough height },
        (History.run E C ext (handed ext height n.backlog)).log⟩

theorem launch_launches : Launches E ext height n (launch E ext height n) := by
  rw [launch]
  cases hC : Committee.new? height (E.validatorsAt height) E.rotation with
  | error e => exact .vacant
  | ok C =>
    obtain ⟨rfl, hvalidators⟩ := Committee.new?_eq_ok hC
    rw [Handler.ofExcept_ok_bind]
    rcases ho : Instance.start E ext (Instance.new E C) with ⟨x, i, es⟩
    have hopening : History.run E C ext [] = ⟨i, es⟩ := by
      rw [History.run, History.opening, ho]
      rfl
    have hon := on_apply (s := n) ho
    cases x with
    | error e =>
      rw [Handler.bind_of_error _ hon]
      have hfailed : Launches E ext C.height n ⟨.error e, n, (History.run E C ext []).log⟩ :=
        .failed rfl (List.forall_mem_nil _) rfl
      rwa [hopening] at hfailed
    | ok =>
      rw [Handler.bind_of_ok _ hon, Handler.get_bind, Handler.modify_bind]
      obtain ⟨calls, hcalls, hall, hreplayed⟩ :=
        History.exists_replayed E ext (n.backlog.queue C.height) (History.run E C ext [])
      rw [← History.run_append, List.nil_append] at hreplayed
      rw [hopening] at hall hreplayed
      rcases ho' : (n.backlog.queue C.height).forM (Instance.handleMessage E ext) i with ⟨y, j, fs⟩
      rw [ho'] at hall hreplayed
      rw [on_apply ho']
      cases y with
      | error e =>
        have hfailed : Launches E ext C.height n ⟨.error e,
            { n with backlog := n.backlog.discardThrough C.height },
            (History.run E C ext calls).log⟩ := .failed rfl hcalls rfl
        rwa [hreplayed] at hfailed
      | ok =>
        have hlaunched : Launches E ext C.height n _ := .launched rfl hvalidators
        rw [handed, ← hall rfl, hreplayed] at hlaunched
        exact hlaunched

/-- What a height has become once it was started and what was held for it was handled. -/
structure Launched (b : Backlog UInt64) (i : Instance) (es : List Effect) : Prop where
  run : ∃ C, C.height = height ∧ C.validators = E.validatorsAt height ∧
    i = (History.run E C ext (handed ext height b)).inst
  started : es.filterMap Effect.started? = [height]

namespace Launched

variable {E ext height} {b : Backlog UInt64} {i : Instance} {es : List Effect}

theorem sane (h : Launched E ext height b i es) : i.Sane E := by
  obtain ⟨C, -, -, rfl⟩ := h.run
  exact (Instance.sane_of_settled (History.run_moves E C ext _).1).1

theorem reached (h : Launched E ext height b i es) : i.height = height := by
  obtain ⟨C, hC, -, rfl⟩ := h.run
  rw [Instance.height, History.run_committee, hC]

/-- Nothing but the start, where nothing was held. -/
theorem alone (h : Launched E ext height b i es) (hb : b.queue height = []) :
    ∃ C, C.validators = E.validatorsAt height ∧
      i = (Instance.start E ext (Instance.new E C)).state := by
  obtain ⟨C, -, hvalidators, rfl⟩ := h.run
  rw [handed, hb]
  exact ⟨C, hvalidators, rfl⟩

end Launched

theorem launch_cases :
    (∃ e m es, launch E ext height n = ⟨.error e, m, es⟩ ∧ m.current = n.current ∧
      (es.filterMap Effect.started? = [] ∨ es.filterMap Effect.started? = [height])) ∨
    ∃ i es, launch E ext height n =
      ⟨.ok i, { n with backlog := n.backlog.discardThrough height }, es⟩ ∧
        Launched E ext height n.backlog i es := by
  have hlaunch := launch_launches E ext height n
  generalize launch E ext height n = o at hlaunch
  cases hlaunch with
  | vacant => exact .inl ⟨_, _, _, rfl, rfl, .inl rfl⟩
  | failed hC hcalls hm =>
    exact .inl ⟨_, _, _, rfl, hm, .inr (hC ▸ History.run_started E _ ext _)⟩
  | @launched C hC hvalidators =>
    exact .inr ⟨_, _, rfl, ⟨C, hC, hvalidators, rfl⟩, hC ▸ History.run_started E C ext _⟩

theorem startHeight_eq : startHeight E ext height = (do
    leave
    let i ← launch E ext height
    if i.isCommitted then
      let next ← .ofExcept (heightAfter height)
      modify fun n => { n with current := some i }
      startHeight E ext next
    else modify fun n => { n with current := some i }) := by
  rw [startHeight]
  refine bind_congr fun _ => bind_congr fun i => ?_
  split
  · split
    all_goals
      next h =>
      rw [h]
      rfl
  · rfl

/-- How the start of a height comes out, with all that it leads to. -/
inductive Proceeds : UInt64 → Node → Outcome Node Unit → Prop
  | fails {height : UInt64} {n m : Node} {e : Error} {es : List Effect} (hm : m.current = none)
      (hlaunch : (launch E ext height { n with current := none }).result = .error e)
      (hstarts : es.filterMap Effect.started? = [] ∨ es.filterMap Effect.started? = [height]) :
      Proceeds height n ⟨.error e, m, es⟩
  | runs {height : UInt64} {n : Node} {i : Instance} {es : List Effect}
      (hi : Launched E ext height n.backlog i es) (hopen : i.isCommitted = false) :
      Proceeds height n ⟨.ok (), ⟨some i, n.backlog.discardThrough height⟩, es⟩
  /-- It is decided, and the next one is started. -/
  | goesOn {height next : UInt64} {n : Node} {i : Instance} {es : List Effect}
      {o : Outcome Node Unit} (hi : Launched E ext height n.backlog i es)
      (hdecided : i.isCommitted = true) (hnext : heightAfter height = .ok next)
      (h : Proceeds next ⟨some i, n.backlog.discardThrough height⟩ o) :
      Proceeds height n ⟨o.result, o.state, es ++ o.effects⟩
  /-- It is decided, and there is no next one. -/
  | ends {height : UInt64} {n : Node} {i : Instance} {es : List Effect}
      (hi : Launched E ext height n.backlog i es) (hdecided : i.isCommitted = true)
      (hlast : height = lastHeight) :
      Proceeds height n ⟨.error .overflow, ⟨none, n.backlog.discardThrough height⟩, es⟩

theorem startHeight_proceeds : Proceeds E ext height n (startHeight E ext height n) := by
  induction height using startHeight.induct generalizing n with
  | _ height ih =>
    obtain ⟨fs, hleave, hcancels⟩ := leave_apply n
    have hfs : fs.filterMap Effect.started? = [] := by
      refine filterMap_started fun e he => ?_
      obtain ⟨round, rfl⟩ := hcancels e he
      rfl
    rw [startHeight_eq, Handler.bind_of_ok _ hleave]
    rcases launch_cases E ext height { n with current := none } with
      ⟨e, m, es, ho, hm, hes⟩ | ⟨i, es, ho, hi⟩
    · rw [Handler.bind_of_error _ ho]
      refine .fails hm (congrArg Outcome.result ho) ?_
      rwa [List.filterMap_append, hfs]
    · have hlaunched : Launched E ext height n.backlog i (fs ++ es) := by
        refine ⟨hi.run, ?_⟩
        rw [List.filterMap_append, hfs]
        exact hi.started
      rw [Handler.bind_of_ok _ ho]
      split
      · next hdecided =>
        cases hnext : heightAfter height with
        | ok next =>
          rw [Handler.ofExcept_ok_bind, Handler.modify_bind, ← List.append_assoc]
          exact .goesOn hlaunched hdecided hnext (ih next hnext _)
        | error e =>
          obtain ⟨rfl, hlast⟩ := of_heightAfter_error hnext
          rw [Handler.ofExcept_error_bind, List.append_nil]
          exact .ends hlaunched hdecided hlast
      · next hopen =>
        show Proceeds E ext height n ⟨_, _, fs ++ (es ++ [])⟩
        rw [List.append_nil]
        exact .runs hlaunched (Bool.eq_false_iff.2 hopen)

end Node

end BlockAgreement
