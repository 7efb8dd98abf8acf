import BlockAgreement.Proofs.Stopping
import BlockAgreement.Proofs.Turns
import Mathlib.Data.List.TakeWhile

/-! How one height follows another. A diary tells what happened to a node and what it asked for, in
this order, so that the start of a height stands after all that made the node start it. Where the
chain has not asked for a height, the node goes there from the height before, and that height has
handed over its one block by then. Whether the block was taken does not matter. -/

namespace BlockAgreement

/-- Something that happened to a node, or something that it asked for. -/
inductive Entry
  | event (e : Event)
  | effect (e : Effect)
deriving DecidableEq

namespace Entry

def effect? : Entry → Option Effect
  | effect e => some e
  | event _ => none

/-- The height that is started. -/
def started? : Entry → Option UInt64
  | effect e => e.started?
  | event _ => none

/-- The height that the chain asks for. -/
def forced? : Entry → Option UInt64
  | event (.chainHead number) => some (nextHeight number)
  | event (.message _) | event (.roundExpiry _) | effect _ => none

theorem started_eq_none_of_forced {x : Entry} {height : UInt64} (hx : x.forced? = some height) :
    x.started? = none := by
  cases x with
  | event => rfl
  | effect => cases hx

end Entry

/-- The blocks that were handed over, with what became of them. -/
def deliveries (es : List Entry) : List Effect :=
  (es.filterMap Entry.effect?).filter Effect.isDelivery

/-- A block was handed over and taken. -/
def Effect.isTaken : Effect → Bool
  | .deliverBlock _ _ accepted => accepted
  | .multicast _ | .startTimer .. | .cancelTimer _ | .requestBlock .. => false

/-- The diary goes from one height to another, the node being at the first one `during` these
entries, in which the chain does not ask for the other one. -/
structure Passes (diary : List Entry) (height next : UInt64) (during : List Entry) : Prop where
  told : ∃ before x y after, diary = before ++ x :: during ++ y :: after ∧
    x.started? = some height ∧ y.started? = some next
  within : ∀ x ∈ during, x.started? = none
  unforced : ∀ x ∈ during, x.forced? ≠ some next

/-- The next height comes after this one, in which one block of the height was handed over. -/
structure Succeeds (next height : UInt64) (during : List Entry) : Prop where
  follows : next = height + 1
  /-- As numbers too, unless this is the last one. -/
  past : height ≠ Node.lastHeight → next.toNat = height.toNat + 1
  block : ∃ b seals accepted,
    deliveries during = [.deliverBlock b seals accepted] ∧ b.number = height

/-! ### The height that is running -/

/-- The height that is running at the end of a diary, and what was written since its start. -/
def chapter (diary : List Entry) : Option (UInt64 × List Entry) :=
  diary.foldl (fun c x => match x.started? with
    | some height => some (height, [x])
    | none => c.map fun c => (c.1, c.2 ++ [x])) none

/-- Where the chain has not asked for a height, it may be started after this diary only if it
succeeds the one that is running. -/
def Due (diary : List Entry) (next : UInt64) : Prop :=
  ∀ height es, chapter diary = some (height, es) → (∀ x ∈ es, x.forced? ≠ some next) →
    Succeeds next height es

/-- No height is started before it is due. -/
def Lawful (diary : List Entry) : Prop :=
  ∀ before x next, before ++ [x] <+: diary → x.started? = some next → Due before next

section

variable {diary es during : List Entry} {x : Entry} {height next : UInt64}

theorem chapter_append (hes : ∀ x ∈ es, x.started? = none) :
    chapter (diary ++ es) = (chapter diary).map fun c => (c.1, c.2 ++ es) := by
  induction es using List.reverseRecOn with
  | nil => simp
  | append_singleton es x ih =>
    obtain ⟨hes, hx⟩ := List.forall_mem_append.1 hes
    have hx := hx x (List.mem_singleton_self x)
    rw [← List.append_assoc, chapter, List.foldl_append, ← chapter, ih hes]
    simp [hx, Function.comp_def]

theorem chapter_start (hx : x.started? = some height) (hes : ∀ x ∈ es, x.started? = none) :
    chapter (diary ++ x :: es) = some (height, x :: es) := by
  have hstart : chapter (diary ++ [x]) = some (height, [x]) := by
    rw [chapter, List.foldl_append]
    simp [hx]
  rw [List.append_cons, chapter_append hes, hstart]
  rfl

theorem due_of_forced (hx : x.forced? = some next) : Due (diary ++ [x]) next := by
  intro height es hes hunforced
  rw [chapter_append fun y hy => by
    rw [List.mem_singleton.1 hy]
    exact Entry.started_eq_none_of_forced hx] at hes
  obtain ⟨c, -, hc⟩ := Option.map_eq_some_iff.1 hes
  cases hc
  exact absurd hx (hunforced x (List.mem_append_right _ (List.mem_singleton_self x)))

theorem deliveries_append : deliveries (diary ++ es) = deliveries diary ++ deliveries es := by
  rw [deliveries, List.filterMap_append, List.filter_append]
  rfl

theorem Due.append (hd : Due diary next) (hes : ∀ x ∈ es, x.started? = none)
    (hnone : deliveries es = []) : Due (diary ++ es) next := by
  intro height fs hfs hunforced
  rw [chapter_append hes] at hfs
  obtain ⟨⟨k, gs⟩, hgs, hc⟩ := Option.map_eq_some_iff.1 hfs
  cases hc
  obtain ⟨hnext, hpast, hblock⟩ := hd k gs hgs fun x hx => hunforced x (List.mem_append_left _ hx)
  refine ⟨hnext, hpast, ?_⟩
  rwa [deliveries_append, hnone, List.append_nil]

theorem Lawful.concat (hd : Lawful diary) (hx : ∀ next, x.started? = some next → Due diary next) :
    Lawful (diary ++ [x]) := by
  intro before y next hbefore hy
  rcases List.prefix_concat_iff.1 hbefore with h | h
  · obtain ⟨rfl, hxy⟩ := List.append_inj' h rfl
    obtain rfl := List.singleton_inj.1 hxy
    exact hx next hy
  · exact hd before y next h hy

theorem Lawful.append (hd : Lawful diary) (hes : ∀ x ∈ es, x.started? = none) :
    Lawful (diary ++ es) := by
  induction es using List.reverseRecOn with
  | nil => rwa [List.append_nil]
  | append_singleton es x ih =>
    obtain ⟨hes, hx⟩ := List.forall_mem_append.1 hes
    rw [← List.append_assoc]
    refine (ih hes).concat fun next hnext => ?_
    rw [hx x (List.mem_singleton_self x)] at hnext
    cases hnext

/-- In a lawful diary each height that is passed to succeeds the one before. -/
theorem Lawful.succeeds (hd : Lawful diary) (hp : Passes diary height next during) :
    Succeeds next height during := by
  obtain ⟨before, x, y, after, rfl, hx, hy⟩ := hp.told
  have hdue : Due (before ++ x :: during) next := by
    refine hd _ y next ?_ hy
    rw [List.append_cons _ y after]
    exact List.prefix_append ..
  have hbegins : x.forced? = none ∧ deliveries [x] = [] := by
    rcases x with _ | ⟨_ | _ | _ | _ | _⟩
    case effect.startTimer => exact ⟨rfl, rfl⟩
    all_goals cases hx
  obtain ⟨hnext, hpast, hblock⟩ := hdue height _ (chapter_start hx hp.within) <|
    List.forall_mem_cons.2 ⟨by rw [hbegins.1]; exact nofun, hp.unforced⟩
  refine ⟨hnext, hpast, ?_⟩
  rwa [← List.singleton_append, deliveries_append, hbegins.2] at hblock

/-- What is written down from the first start to the second. -/
def firstChapter (diary : List Entry) : List Entry :=
  diary.tail.takeWhile fun x => x.started?.isNone

theorem passes_firstChapter (hheight : diary.head?.bind Entry.started? = some height)
    (hnext : (diary.tail.dropWhile fun x => x.started?.isNone).head?.bind Entry.started? =
      some next)
    (hunforced : ∀ x ∈ firstChapter diary, x.forced? ≠ some next) :
    Passes diary height next (firstChapter diary) := by
  obtain ⟨x, hx, hstart⟩ := Option.bind_eq_some_iff.1 hheight
  obtain ⟨y, hy, hstart'⟩ := Option.bind_eq_some_iff.1 hnext
  obtain ⟨rest, rfl⟩ := List.head?_eq_some_iff.1 hx
  obtain ⟨after, hafter⟩ := List.head?_eq_some_iff.1 hy
  refine ⟨⟨[], x, y, after, ?_, hstart, hstart'⟩, fun z hz => ?_, hunforced⟩
  · rw [← hafter]
    exact congrArg (x :: ·) List.takeWhile_append_dropWhile.symm
  · have hz := List.mem_takeWhile_imp hz
    exact Option.isNone_iff_eq_none.1 hz

end

namespace Node

/-! ### The diary of a node -/

structure Story where
  node : Node
  diary : List Entry

/-- A call is written down before what is asked for in it. -/
def Story.after (E : Setup) (s : Story) (c : Call) : Story :=
  let o := handle E c.ext c.event s.node
  ⟨o.state, s.diary ++ .event c.event :: o.effects.map .effect⟩

/-- What becomes of a new node that is started at a height, with the answers of `first`, and then
called. -/
def story (E : Setup) (first : Collaborators) (height : UInt64) (calls : List Call) : Story :=
  let o := startHeight E first height new
  calls.foldl (Story.after E) ⟨o.state, o.effects.map .effect⟩

theorem story_concat (E : Setup) (first : Collaborators) (height : UInt64) (calls : List Call)
    (c : Call) : story E first height (calls ++ [c]) = (story E first height calls).after E c := by
  rw [story, List.foldl_append]
  rfl

/-- The diary is kept beside a run of calls. -/
theorem node_story (E : Setup) (first : Collaborators) (height : UInt64) (calls : List Call) :
    (story E first height calls).node = run E first height calls := by
  induction calls using List.reverseRecOn with
  | nil => rfl
  | append_singleton calls c ih =>
    rw [story_concat, run_concat, ← ih]
    rfl

variable {E : Setup} {i : Instance} {diary es : List Entry}

variable (E) in
/-- The running height is what a run has come to that asked for what stands since its start. -/
def Chronicled (diary : List Entry) (i : Instance) : Prop :=
  ∃ (C : Committee) (first : Collaborators) (calls : List BlockAgreement.Call) (es : List Entry),
    first.Numbered ∧ (∀ c ∈ calls, c.ext.Numbered) ∧ (History.run E C first calls).inst = i ∧
      chapter diary = some (C.height, es) ∧
      es.filterMap Entry.effect? = (History.run E C first calls).log

variable (E) in
/-- What holds of a node and its diary at all times. -/
structure Told (n : Node) (diary : List Entry) : Prop where
  lawful : Lawful diary
  current : ∀ i ∈ n.current, Chronicled E diary i

theorem Told.idle {n : Node} (hd : Lawful diary) (hn : n.current = none) : Told E n diary := by
  refine ⟨hd, fun i hi => ?_⟩
  rw [hn] at hi
  cases hi

theorem Told.running {b : Backlog UInt64} (hd : Lawful diary) (hi : Chronicled E diary i) :
    Told E ⟨some i, b⟩ diary := by
  refine ⟨hd, ?_⟩
  rintro j ⟨⟩
  exact hi

variable (E) in
/-- With what is asked for, the diary is right. -/
def Tells (diary : List Entry) (o : Outcome Node Unit) : Prop :=
  Told E o.state (diary ++ o.effects.map .effect)

theorem Tells.after {o : Outcome Node Unit} {es : List Effect}
    (h : Tells E (diary ++ es.map .effect) o) :
    Tells E diary ⟨o.result, o.state, es ++ o.effects⟩ := by
  rwa [Tells, List.append_assoc, ← List.map_append] at h

theorem tells_silent {n : Node} {x : Except Error Unit} (h : Told E n diary) :
    Tells E diary ⟨x, n, []⟩ := by
  rwa [← List.append_nil diary] at h

theorem started_map {es : List Effect} (hes : ∀ e ∈ es, e.Within) :
    ∀ x ∈ es.map Entry.effect, x.started? = none :=
  List.forall_mem_map.2 hes

theorem effects_map (es : List Effect) : (es.map Entry.effect).filterMap Entry.effect? = es := by
  rw [List.filterMap_map]
  exact List.filterMap_some

theorem Chronicled.append (h : Chronicled E diary i) (hes : ∀ x ∈ es, x.started? = none)
    (hnone : es.filterMap Entry.effect? = []) : Chronicled E (diary ++ es) i := by
  obtain ⟨C, first, calls, fs, hfirst, hcalls, hi, hchapter, hlog⟩ := h
  refine ⟨C, first, calls, fs ++ es, hfirst, hcalls, hi, ?_, ?_⟩
  · rw [chapter_append hes, hchapter]
    rfl
  · rw [List.filterMap_append, hnone, List.append_nil, hlog]

/-- The running height goes on. -/
theorem Chronicled.handle (h : Chronicled E diary i) {c : BlockAgreement.Call}
    (hc : c.ext.Numbered) :
    Chronicled E (diary ++ (Instance.handle E c i).effects.map .effect)
      (Instance.handle E c i).state := by
  obtain ⟨C, first, calls, es, hfirst, hcalls, rfl, hchapter, hlog⟩ := h
  have hrun : History.run E C first (calls ++ [c]) = (History.run E C first calls).after E c :=
    History.run_append E C first calls [c]
  generalize History.run E C first calls = run at *
  let o := Instance.handle E c run.inst
  refine ⟨C, first, calls ++ [c], es ++ o.effects.map .effect, hfirst, ?_, ?_, ?_, ?_⟩
  · exact List.forall_mem_append.2 ⟨hcalls, List.forall_mem_singleton.2 hc⟩
  · rw [hrun]
    rfl
  · rw [chapter_append (started_map (Instance.handle_within c _)), hchapter]
    rfl
  · rw [List.filterMap_append, hlog, effects_map, hrun]
    rfl

/-- A height that is decided has handed over its block, so the next one is due. -/
theorem Chronicled.due (h : Chronicled E diary i) (hE : E.Able) (hi : i.isCommitted = true)
    {next : UInt64} (hnext : heightAfter i.height = .ok next) : Due diary next := by
  obtain ⟨C, first, calls, es, hfirst, hcalls, rfl, hchapter, hlog⟩ := h
  have hheight : (History.run E C first calls).inst.height = C.height :=
    congrArg Committee.height (History.run_committee E C first calls)
  rw [hheight] at hnext
  intro height fs hfs _
  cases hchapter.symm.trans hfs
  obtain ⟨b, seals, accepted, hm⟩ := History.exists_delivery E C first calls hE hi
  refine ⟨eq_of_heightAfter hnext, fun _ => toNat_heightAfter hnext, b, seals, accepted, ?_,
    (History.number_of_delivery hfirst hcalls hm).1⟩
  rw [deliveries, hlog]
  exact History.deliveries_eq hm rfl

/-- A height that is due is started, and handles what was held for it. -/
theorem chronicled_start (hd : Lawful diary) {C : Committee} (hdue : Due diary C.height)
    {first : Collaborators} {calls : List BlockAgreement.Call} (hfirst : first.Numbered)
    (hcalls : ∀ c ∈ calls, c.ext.Numbered) :
    let run := History.run E C first calls
    Lawful (diary ++ run.log.map .effect) ∧
      Chronicled E (diary ++ run.log.map .effect) run.inst := by
  obtain ⟨es, hlog, -⟩ := History.run_turns E C first calls
  have hstart : (Entry.effect (.startTimer ⟨C.height, 0⟩ (E.config.timeout 0))).started? =
      some C.height := rfl
  have hes : ∀ e ∈ es, e.Within := by
    have hstarted := History.run_started E C first calls
    rw [hlog] at hstarted
    exact List.filterMap_eq_nil_iff.1 (List.cons.inj hstarted).2
  dsimp only
  refine ⟨?_, C, first, calls, _, hfirst, hcalls, rfl, ?_, effects_map _⟩
  · rw [hlog, List.map_cons, List.append_cons]
    refine (hd.concat fun next hnext => ?_).append (started_map hes)
    cases hstart.symm.trans hnext
    exact hdue
  · rw [hlog, List.map_cons]
    exact chapter_start hstart (started_map hes)

/-! ### What a call does to the diary -/

variable (ext : Collaborators)

theorem Told.event {n : Node} (h : Told E n diary) (e : Event) :
    Told E n (diary ++ [.event e]) := by
  have he : ∀ x ∈ [Entry.event e], x.started? = none := List.forall_mem_singleton.2 rfl
  exact ⟨h.lawful.append he, fun i hi => (h.current i hi).append he rfl⟩

theorem hold_tells {n : Node} (h : Told E n diary) (height : UInt64) (m : Message) :
    Tells E diary (hold E height m n) := by
  rw [hold]
  split
  · cases m.author E.scheme with
    | error => exact tells_silent h
    | ok a =>
      dsimp only
      split
      · exact tells_silent ⟨h.lawful, h.current⟩
      · exact tells_silent h
  · exact tells_silent h

section

variable {ext} (hext : ext.Numbered)

include hext in
theorem handleRoundExpiry_tells {n : Node} (h : Told E n diary) (round : RoundId) :
    Tells E diary (handleRoundExpiry E ext round n) := by
  rw [handleRoundExpiry, Handler.get_bind]
  cases hcurrent : n.current with
  | none => exact tells_silent h
  | some i =>
    dsimp only
    split
    · exact .running
        (h.lawful.append (started_map ((Instance.roundExpired_behaves E ext round).asks i)))
        ((h.current i hcurrent).handle (c := ⟨ext, .roundExpiry round⟩) hext)
    · exact tells_silent h

variable (hE : E.Able)
include hE hext

/-- However many heights are gone through, each is due where it is started. -/
theorem startHeight_tells {height : UInt64} (n : Node) (hd : Lawful diary)
    (hdue : Due diary height) : Tells E diary (startHeight E ext height n) := by
  -- Along the loop: a height that is left was decided, so its block stands in the diary.
  induction height using startHeight.induct generalizing n diary with
  | _ height ih =>
    obtain ⟨fs, hleave, hcancels⟩ := leave_apply n
    have hquiet : ∀ x ∈ fs.map Entry.effect, x.started? = none := by
      refine started_map fun e he => ?_
      obtain ⟨round, rfl⟩ := hcancels e he
      rfl
    have hnone : deliveries (fs.map .effect) = [] := by
      rw [deliveries, effects_map, List.filter_eq_nil_iff]
      intro e he
      obtain ⟨round, rfl⟩ := hcancels e he
      exact Bool.false_ne_true
    rw [startHeight_eq, Handler.bind_of_ok _ hleave]
    refine .after ?_
    replace hd := hd.append hquiet
    replace hdue := hdue.append hquiet hnone
    generalize diary ++ fs.map .effect = diary at hd hdue
    have hlaunch := launch_launches E ext height { n with current := none }
    rcases ho : launch E ext height { n with current := none } with ⟨x, m, es⟩
    rw [ho] at hlaunch
    cases hlaunch with
    | vacant =>
      rw [Handler.bind_of_error _ ho]
      exact tells_silent (.idle hd rfl)
    | failed hC hcalls hm =>
      obtain ⟨hlawful, -⟩ := chronicled_start (E := E) hd (hC ▸ hdue) hext
        fun c hc => hcalls c hc ▸ hext
      rw [Handler.bind_of_error _ ho]
      exact .idle hlawful hm
    | @launched C hC =>
      have hcalls := ext_of_mem_handed ext height n.backlog
      dsimp only at ho
      generalize handed ext height n.backlog = calls at ho hcalls
      obtain ⟨hlawful, hchronicled⟩ := chronicled_start (E := E) hd (hC ▸ hdue) hext
        fun c hc => hcalls c hc ▸ hext
      have hheight : (History.run E C ext calls).inst.height = height := by
        rw [Instance.height, History.run_committee, hC]
      rw [Handler.bind_of_ok _ ho]
      refine .after ?_
      split
      · next hdecided =>
        cases hnext : heightAfter height with
        | error => exact tells_silent (.idle hlawful rfl)
        | ok next =>
          rw [Handler.ofExcept_ok_bind, Handler.modify_bind]
          exact ih next hnext _ hlawful (hchronicled.due hE hdecided (hheight ▸ hnext))
      · exact tells_silent (.running hlawful hchronicled)

theorem handleMessage_tells {n : Node} (h : Told E n diary) (m : Message) :
    Tells E diary (handleMessage E ext m n) := by
  rw [handleMessage, Handler.get_bind]
  cases hcurrent : n.current with
  | none => exact tells_silent h
  | some i =>
    dsimp only
    split
    · exact hold_tells h i.height m
    split
    · have hlawful :=
        h.lawful.append (started_map ((Instance.handleMessage_behaves E ext m).asks i))
      have hchronicled := (h.current i hcurrent).handle (c := ⟨ext, .message m⟩) hext
      change Chronicled E (diary ++ (Instance.handleMessage E ext m i).effects.map .effect)
        (Instance.handleMessage E ext m i).state at hchronicled
      have hcommittee := Instance.committee_of_turns
        (Instance.handleMessage_turn (E := E) (i := i) ext m).1
      rcases ho : Instance.handleMessage E ext m i with ⟨x, j, es⟩
      rw [ho] at hlawful hchronicled hcommittee
      have hon := onInstance_apply n ho
      have hrest : Told E { n with current := some j } (diary ++ es.map .effect) :=
        .running hlawful hchronicled
      cases x with
      | error e =>
        rw [Handler.bind_of_error _ hon]
        exact hrest
      | ok =>
        rw [Handler.bind_of_ok _ hon, Handler.get_bind]
        refine .after ?_
        have hheight : j.height = i.height := congrArg Committee.height hcommittee
        dsimp only
        split
        · next hdecided =>
          cases hnext : heightAfter i.height with
          | error => exact tells_silent hrest
          | ok next =>
            rw [Handler.ofExcept_ok_bind]
            exact startHeight_tells hext hE _ hlawful
              (hchronicled.due hE hdecided (hheight ▸ hnext))
        · exact tells_silent hrest
    · exact tells_silent h

/-- A call keeps the diary right, if it is written down first. -/
theorem handle_tells {n : Node} (h : Told E n diary) (e : Event) :
    Tells E (diary ++ [.event e]) (handle E ext e n) := by
  cases e with
  | message m => exact handleMessage_tells hext hE (h.event _) m
  | roundExpiry round => exact handleRoundExpiry_tells hext (h.event _) round
  | chainHead number =>
    rw [handle, handleChainHead, Handler.get_bind]
    split
    · exact startHeight_tells hext hE n (h.event _).lawful (due_of_forced rfl)
    · exact tells_silent (h.event _)

end

theorem story_told (hE : E.Able) {first : Collaborators} (hfirst : first.Numbered) (height : UInt64)
    {calls : List Call} (hcalls : ∀ c ∈ calls, c.ext.Numbered) :
    Told E (story E first height calls).node (story E first height calls).diary := by
  induction calls using List.reverseRecOn with
  | nil =>
    have hempty : Lawful [] := fun _ _ _ h => by simp at h
    exact startHeight_tells hfirst hE new hempty nofun
  | append_singleton calls c ih =>
    obtain ⟨hcalls, hc⟩ := List.forall_mem_append.1 hcalls
    have hafter := handle_tells (hc c (List.mem_singleton_self c)) hE (ih hcalls) c.event
    rw [Tells, List.append_assoc] at hafter
    rw [story_concat]
    exact hafter

/-- Where the chain has not asked for a height, a node goes there from the height before, which has
by then handed over one block, of its own number, taken or not. -/
theorem one_block_each (hE : E.Able) {first : Collaborators} (hfirst : first.Numbered)
    {start height next : UInt64} {calls : List Call} (hcalls : ∀ c ∈ calls, c.ext.Numbered)
    {during : List Entry} (hp : Passes (story E first start calls).diary height next during) :
    Succeeds next height during :=
  (story_told hE hfirst start hcalls).lawful.succeeds hp

theorem second_able : second.Able := ⟨fun _ => ⟨_, rfl⟩, Setup.plain_sound (.ofNat 2)⟩

theorem roughCalls_numbered : ∀ c ∈ roughCalls, c.ext.Numbered := by
  have hbarren : barren.Numbered := fun _ _ => nofun
  exact fun c hc => ext_of_mem_roughCalls c hc ▸ hbarren

theorem rough_passes : Passes (story second .plain 1 roughCalls).diary 1 2
    (firstChapter (story second .plain 1 roughCalls).diary) :=
  passes_firstChapter (by decide +kernel) (by decide +kernel) (by decide +kernel)

theorem one_block_each_rough : second.Able ∧ Collaborators.plain.Numbered ∧
    (∀ c ∈ roughCalls, c.ext.Numbered) ∧
    Passes (story second .plain 1 roughCalls).diary 1 2
      (firstChapter (story second .plain 1 roughCalls).diary) ∧
    Succeeds 2 1 (firstChapter (story second .plain 1 roughCalls).diary) :=
  ⟨second_able, Collaborators.plain_numbered, roughCalls_numbered, rough_passes,
    one_block_each second_able Collaborators.plain_numbered roughCalls_numbered rough_passes⟩

/-- The validator 4 of four, whose key signs nothing. -/
def mute : Setup where
  __ := Setup.plain (.ofNat 4)
  signer := ⟨.ofNat 4, fun _ => .error "locked"⟩
  validatorsAt _ := (Committee.plain 3).validators

/-- The commits of the others, and then the proposal twice. -/
def hurriedCalls : List Call :=
  let block := Block.plain 1 []
  let digest := Scheme.plain.digest block
  let proposal := .proposal <$> (Signer.plain (.ofNat 2)).propose .plain ⟨1, 0⟩ block [] []
  let messages : List (Except Error Message) :=
    [.commit <$> (Signer.plain (.ofNat 1)).commit .plain ⟨1, 0⟩ digest,
      .commit <$> (Signer.plain (.ofNat 2)).commit .plain ⟨1, 0⟩ digest,
      .commit <$> (Signer.plain (.ofNat 3)).commit .plain ⟨1, 0⟩ digest, proposal, proposal]
  (messages.filterMap Except.toOption).map fun m => ⟨.plain, .message m⟩

/-- A node goes on from a height whose block was refused, and, if its key fails, from one whose
block it has not handed over. -/
theorem goes_on_untaken :
    (second.Able ∧ Collaborators.plain.Numbered ∧ (∀ c ∈ roughCalls, c.ext.Numbered) ∧
      ∃ during, Passes (story second .plain 1 roughCalls).diary 1 2 during ∧
        ∀ e ∈ deliveries during, e.isTaken = false) ∧
    Collaborators.plain.Numbered ∧ (∀ c ∈ hurriedCalls, c.ext.Numbered) ∧
      ∃ during, Passes (story mute .plain 1 hurriedCalls).diary 1 2 during ∧
        deliveries during = [] := by
  refine ⟨⟨second_able, Collaborators.plain_numbered, roughCalls_numbered, _, rough_passes,
    by decide +kernel⟩, Collaborators.plain_numbered, fun c hc => ?_, _,
    passes_firstChapter (by decide +kernel) (by decide +kernel) (by decide +kernel),
    by decide +kernel⟩
  obtain ⟨m, -, rfl⟩ := List.mem_map.1 hc
  exact Collaborators.plain_numbered

end Node

end BlockAgreement
