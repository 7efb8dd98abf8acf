import BlockAgreement.Proofs.Ledger
import BlockAgreement.Proofs.Range

/-! What stops a node. Nothing that a peer sends does, and nothing that those who make and take
blocks answer as long as they fail mildly: a node then fails only for its own key, where it is to
start a height without validators, and where it has decided the last height there is. -/

namespace BlockAgreement

/-- The failures that keep a height from being run. -/
def Setup.Stops (E : Setup) (ext : Collaborators) (e : Error) : Prop :=
  E.Escapes ext e ∨ e = .emptyValidatorSet ∧ ∃ height, E.validatorsAt height = []

namespace Handler.Behaves

variable {σ τ : Type} {P : Effect → Prop} {Q : Error → Prop}

protected theorem on {h : Handler τ Unit} (t : τ) (hh : Behaves P Q h) :
    Behaves P Q (Handler.on t h : Handler σ τ) where
  asks _ := hh.asks t
  fails s := by
    have hx := hh.fails t
    rcases ho : h t with ⟨x, u, es⟩
    rw [ho] at hx
    rw [Node.on_apply ho]
    cases x with
    | error e => exact .throw (hx e rfl)
    | ok => exact .pure u

end Handler.Behaves

open Handler (Behaves)

namespace Node

variable (E : Setup) (ext : Collaborators)

/-- Whatever it asks for, the handler fails only in ways that stop a node. -/
abbrev Endures {σ α : Type} (h : Handler σ α) : Prop := Behaves (fun _ => True) (E.Stops ext) h

theorem committee_fails (height : UInt64) :
    Fails (E.Stops ext) (Committee.new? height (E.validatorsAt height) E.rotation) := by
  rw [Committee.new?]
  split
  · exact .pure _
  · next hempty => exact .throw (.inr ⟨rfl, height, not_not.1 hempty⟩)

theorem start_endures : Endures E ext (Instance.start E ext) :=
  ⟨fun _ _ _ => trivial, fun i => (Instance.start_fails E ext i).mono fun _ => .inl⟩

theorem handleMessage_endures (m : Message) : Endures E ext (Instance.handleMessage E ext m) :=
  ⟨fun _ _ _ => trivial,
    fun i => ((Instance.handleMessage_behaves E ext m).fails i).mono fun _ => .inl⟩

theorem launch_endures (height : UInt64) : Endures E ext (launch E ext height) := by
  refine .bind (.ofExcept (committee_fails E ext height)) fun C => ?_
  refine .bind (.on _ (start_endures E ext)) fun i => .get_bind fun n => ?_
  exact .bind (.modify _) fun _ => .on _ (.forM (handleMessage_endures E ext))

variable {E} {n : Node} {i : Instance}

theorem not_escapes (hsigns : ∀ h, ∃ g, E.signer.sign h = .ok g) {ext : Collaborators}
    (hext : ext.Mild) (e : Error) : ¬ E.Escapes ext e := by
  intro he
  obtain ⟨h, text, hrefused, -⟩ := he.refuses hext
  obtain ⟨g, hg⟩ := hsigns h
  cases hg.symm.trans hrefused

section

variable (hvalidators : ∀ height, E.validatorsAt height ≠ [])
  (hsigns : ∀ h, ∃ g, E.signer.sign h = .ok g)
include hvalidators hsigns

theorem launch_ok {ext : Collaborators} (hext : ext.Mild) (height : UInt64) (n : Node) :
    ∃ i, (launch E ext height n).result = .ok i := by
  have hfails := (launch_endures E ext height).fails n
  cases hx : (launch E ext height n).result with
  | ok i => exact ⟨i, rfl⟩
  | error e =>
    rcases hfails e hx with he | ⟨-, k, hempty⟩
    · exact absurd he (not_escapes hsigns hext e)
    · exact absurd hempty (hvalidators k)

/-- A start ends well and comes to a height that it entered, or it has entered the last height. -/
theorem Proceeds.enters {ext : Collaborators} (hext : ext.Mild) {height : UInt64}
    {o : Outcome Node Unit} (h : Proceeds E ext height n o) :
    (o.result = .ok () ∧ ∃ i, o.state.current = some i ∧ i.height ∈ starts o) ∨
      lastHeight ∈ starts o := by
  induction h with
  | @fails height n _ _ _ _ hlaunch =>
    obtain ⟨i, hok⟩ := launch_ok hvalidators hsigns hext height { n with current := none }
    cases hok.symm.trans hlaunch
  | @runs _ _ i _ hi => exact .inl ⟨rfl, i, rfl, by simp [starts, hi.started, hi.reached]⟩
  | goesOn _ _ _ _ ih =>
    rw [starts, List.filterMap_append]
    refine ih.imp ?_ fun hlast => List.mem_append_right _ hlast
    rintro ⟨hok, j, hj, hentered⟩
    exact ⟨hok, j, hj, List.mem_append_right _ hentered⟩
  | ends hi _ hlast => exact .inr (by simp [starts, hi.started, hlast])

/-- So does a call, or it stays at the height that was running. -/
theorem handle_enters {c : Call} (hext : c.ext.Mild) (hn : n.current = some i) (hi : i.Sane E)
    (hlow : i.height ≠ lastHeight) :
    let o := handle E c.ext c.event n
    (o.result = .ok () ∧ ∃ j, o.state.current = some j ∧
      (j.height = i.height ∨ j.height ∈ starts o)) ∨ lastHeight ∈ starts o := by
  cases handle_ends (E := E) c hn with
  | @enters height m _ _ _ hresult hstate hstarts =>
    dsimp only
    rw [hresult, hstate, hstarts]
    refine ((startHeight_proceeds E c.ext height m).enters hvalidators hsigns hext).imp_left ?_
    rintro ⟨hok, j, hj, hentered⟩
    exact ⟨hok, j, hj, .inr hentered⟩
  | stays hfails _ hcurrent =>
    refine .inl ⟨?_, _, hcurrent, .inl ?_⟩
    · cases hx : (handle E c.ext c.event n).result with
      | ok => rfl
      | error e =>
        rcases hfails e hx with he | ⟨-, hlast⟩
        · exact absurd he (not_escapes hsigns hext e)
        · exact absurd hlast hlow
    · cases given? n c with
      | none => rfl
      | some b => exact congrArg Committee.height (hi.handle b).2

variable {first : Collaborators} {height : UInt64} {calls : List Call}

/-- In a run of calls, as long as the last height is not entered. -/
theorem call_enters {c : Call} (hext : c.ext.Mild)
    (hi : (run E first height calls).current = some i)
    (hentered : i.height ∈ (ledger E first height calls).heights)
    (hlow : lastHeight ∉ (ledger E first height (calls ++ [c])).heights) :
    (handle E c.ext c.event (run E first height calls)).result = .ok () ∧
      ∃ j, (run E first height (calls ++ [c])).current = some j ∧
        j.height ∈ (ledger E first height (calls ++ [c])).heights := by
  rw [heights_concat, List.mem_append, not_or] at hlow
  obtain ⟨hok, j, hj, hreached⟩ := (handle_enters hvalidators hsigns hext hi
    (run_sane first height calls i hi) fun h => hlow.1 (h ▸ hentered)).resolve_right hlow.2
  rw [run_concat, heights_concat]
  refine ⟨hok, j, hj, List.mem_append.2 (hreached.imp_left fun h => ?_)⟩
  rwa [h]

theorem run_enters (hfirst : first.Mild) (hcalls : ∀ c ∈ calls, c.ext.Mild)
    (hlow : lastHeight ∉ (ledger E first height calls).heights) :
    ∃ i, (run E first height calls).current = some i ∧
      i.height ∈ (ledger E first height calls).heights := by
  induction calls using List.reverseRecOn with
  | nil =>
    have hstart := (startHeight_proceeds E first height new).enters hvalidators hsigns hfirst
    exact (hstart.resolve_right hlow).2
  | append_singleton calls c ih =>
    obtain ⟨hcalls, hc⟩ := List.forall_mem_append.1 hcalls
    obtain ⟨i, hi, hentered⟩ := ih hcalls (mt (heights_subset E first height calls [c] ·) hlow)
    exact (call_enters hvalidators hsigns (hc c (List.mem_singleton_self c)) hi hentered hlow).2

theorem run_ends_well (hfirst : first.Mild) (hcalls : ∀ c ∈ calls, c.ext.Mild)
    (hlow : lastHeight ∉ (ledger E first height calls).heights) :
    (startHeight E first height new).result = .ok () ∧ ∀ before c, before ++ [c] <+: calls →
      (handle E c.ext c.event (run E first height before)).result = .ok () := by
  refine ⟨?_, ?_⟩
  · have hlow : lastHeight ∉ (ledger E first height []).heights :=
      mt (heights_subset E first height [] calls ·) hlow
    have hstart := (startHeight_proceeds E first height new).enters hvalidators hsigns hfirst
    exact (hstart.resolve_right hlow).1
  · rintro before c ⟨after, rfl⟩
    obtain ⟨hbefore, hc⟩ := List.forall_mem_append.1 (List.forall_mem_append.1 hcalls).1
    have hlow := mt (heights_subset E first height _ after ·) hlow
    obtain ⟨i, hi, hentered⟩ := run_enters hvalidators hsigns hfirst hbefore
      (mt (heights_subset E first height before [c] ·) hlow)
    exact (call_enters hvalidators hsigns (hc c (List.mem_singleton_self c)) hi hentered hlow).1

end

/-- With validators at every height and a key that signs, every start and every event ends well as
long as the last height is not entered, also where blocks are neither made nor taken, if only for
reasons that a node survives; and everything that is computed on the way is in range. -/
theorem intake_goes_on {E : Setup} (hvalidators : ∀ height, E.validatorsAt height ≠ [])
    (hsigns : ∀ h, ∃ g, E.signer.sign h = .ok g) {first : Collaborators} (hfirst : first.Mild)
    {height : UInt64} {calls : List Call} (hcalls : ∀ c ∈ calls, c.ext.Mild)
    (hlow : lastHeight ∉ (ledger E first height calls).heights) :
    (startHeight E first height new).result = .ok () ∧
      (∀ before c, before ++ [c] <+: calls →
        (handle E c.ext c.event (run E first height before)).result = .ok ()) ∧ E.InRange := by
  obtain ⟨hstart, hcall⟩ := run_ends_well hvalidators hsigns hfirst hcalls hlow
  exact ⟨hstart, hcall, E.inRange⟩

/-- The validator 2 of four, at every height. -/
def second : Setup where
  __ := Setup.plain (.ofNat 2)
  validatorsAt _ := (Committee.plain 3).validators

/-- Blocks are neither made nor taken. -/
def barren : Collaborators where
  createBlock _ := .error (.blockCreation "no block yet")
  importBlock _ _ := .error (.blockImport "refused")

theorem barren_mild : barren.Mild := by
  rintro e (⟨_, ⟨⟩⟩ | ⟨_, _, ⟨⟩⟩)
  all_goals rfl

/-- Votes of four validators decide the first height while blocks are refused, and then a timer runs
out and the chain goes on to another height. -/
def roughCalls : List Call :=
  let block := Block.plain 1 []
  let digest := Scheme.plain.digest block
  let messages : List (Except Error Message) :=
    [.commit <$> (Signer.plain (.ofNat 1)).commit .plain ⟨1, 0⟩ digest,
      .commit <$> (Signer.plain (.ofNat 3)).commit .plain ⟨1, 0⟩ digest,
      .commit <$> (Signer.plain (.ofNat 4)).commit .plain ⟨1, 0⟩ digest]
  (messages.filterMap Except.toOption).map (fun m => ⟨barren, .message m⟩) ++
    [⟨barren, .roundExpiry ⟨2, 0⟩⟩, ⟨barren, .chainHead 4⟩]

theorem ext_of_mem_roughCalls : ∀ c ∈ roughCalls, c.ext = barren := by
  intro c hc
  rcases List.mem_append.1 hc with hc | hc
  · obtain ⟨m, -, rfl⟩ := List.mem_map.1 hc
    rfl
  · rcases hc with _ | ⟨_, _ | ⟨_, ⟨⟩⟩⟩ <;> rfl

theorem intake_goes_on_rough : (∀ height, second.validatorsAt height ≠ []) ∧
    (∀ h, ∃ g, second.signer.sign h = .ok g) ∧ Collaborators.plain.Mild ∧
      (∀ c ∈ roughCalls, c.ext.Mild) ∧
      (ledger second .plain 1 roughCalls).heights = [1, 2, 5] ∧
        (startHeight second .plain 1 new).result = .ok () ∧
        (∀ before c, before ++ [c] <+: roughCalls →
          (handle second c.ext c.event (run second .plain 1 before)).result = .ok ()) ∧
        second.InRange := by
  have hheights : (ledger second .plain 1 roughCalls).heights = [1, 2, 5] := by decide +kernel
  have hmild : ∀ c ∈ roughCalls, c.ext.Mild := fun c hc => ext_of_mem_roughCalls c hc ▸ barren_mild
  have hlow : lastHeight ∉ (ledger second .plain 1 roughCalls).heights := by
    rw [hheights]
    decide
  exact ⟨fun _ => (Committee.plain 3).validators_ne_nil, fun _ => ⟨_, rfl⟩,
    Collaborators.plain_mild, hmild, hheights,
    intake_goes_on (fun _ => (Committee.plain 3).validators_ne_nil) (fun _ => ⟨_, rfl⟩)
      Collaborators.plain_mild hmild hlow⟩

end Node

end BlockAgreement
