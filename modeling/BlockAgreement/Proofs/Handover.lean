import BlockAgreement.Proofs.Stopping
import BlockAgreement.Proofs.Waiting

/-! Messages that come too early for their height. The backlog of a node holds of the messages that
were put by, as its ledger has them, just those for later heights; and what the running height was
given on entering it is what was put by for it. -/

namespace BlockAgreement

namespace Node

variable {E : Setup} {n : Node} {i j : Instance} {ms : List Message} {height k : UInt64}

/-! ### Entering heights -/

/-- What is held for a later height stays held for it when a height is entered. -/
theorem handed_discardThrough (ext : Collaborators) (b : Backlog UInt64) (hk : height < k) :
    handed ext k (b.discardThrough height) = handed ext k b := by
  have hrank : rank height < rank k := UInt64.lt_iff_toNat_lt.1 hk
  rw [handed, Backlog.queue_discardThrough, if_pos hrank, handed]

/-- How it ends to enter a height and maybe more that follow it: the last one runs with what was
held for it, and what is for later ones is held still. -/
structure Begun (E : Setup) (ext : Collaborators) (height : UInt64) (b : Backlog UInt64)
    (ms : List Message) (o : Outcome Node Unit) (i : Instance) : Prop where
  current : o.state.current = some i
  run : ∃ C, C.validators = E.validatorsAt C.height ∧
    i = (History.run E C ext (handed ext i.height b)).inst
  stores : o.state.backlog.Stores (·.round.height) E.config.bufferLimit.toNat
    (ms.filter (i.height < ·.round.height))
  sorted : (starts o).Pairwise (· < ·)
  between : ∀ k ∈ starts o, height ≤ k ∧ k ≤ i.height
  last : (starts o).getLast? = some i.height

section

variable (hvalidators : ∀ height, E.validatorsAt height ≠ [])
  (hsigns : ∀ h, ∃ g, E.signer.sign h = .ok g) {ext : Collaborators} (hext : ext.Mild)
include hvalidators hsigns hext

theorem Proceeds.begins {o : Outcome Node Unit} (h : Proceeds E ext height n o)
    (hms : n.backlog.Stores (·.round.height) E.config.bufferLimit.toNat ms)
    (hresult : o.result ≠ .error .overflow) : ∃ i, Begun E ext height n.backlog ms o i := by
  induction h generalizing ms with
  | @fails height n _ _ _ _ hlaunch =>
    obtain ⟨i, hok⟩ := launch_ok hvalidators hsigns hext height { n with current := none }
    cases hok.symm.trans hlaunch
  | ends => exact absurd rfl hresult
  | @runs height n i es hi =>
    obtain rfl : i.height = height := hi.reached
    refine ⟨i, rfl, ?_, hms.discardThrough i.height, ?_, ?_, ?_⟩
    · obtain ⟨C, hC, hvalidators, hrun⟩ := hi.run
      exact ⟨C, hC ▸ hvalidators, hrun⟩
    all_goals rw [starts, hi.started]
    · exact List.pairwise_singleton _ _
    · exact List.forall_mem_singleton.2 ⟨UInt64.le_refl _, UInt64.le_refl _⟩
    · rfl
  | @goesOn height next n i es o hi _ hnext _ ih =>
    obtain ⟨j, hj⟩ := ih (hms.discardThrough height) hresult
    have hlt : ∀ k ∈ starts o, height < k := fun k hk =>
      UInt64.lt_of_lt_of_le (lt_heightAfter hnext) (hj.between k hk).1
    have hreached : height < j.height := hlt _ (List.mem_of_getLast? hj.last)
    refine ⟨j, hj.current, ?_, ?_, ?_, ?_, ?_⟩
    · obtain ⟨C, hC, hrun⟩ := hj.run
      exact ⟨C, hC, by rwa [handed_discardThrough ext _ hreached] at hrun⟩
    · have hstores := hj.stores
      rwa [filter_filter_of_imp fun _ => UInt64.lt_trans hreached] at hstores
    all_goals rw [starts, List.filterMap_append, hi.started]
    · exact hj.sorted.cons hlt
    · exact List.forall_mem_cons.2 ⟨⟨UInt64.le_refl _, UInt64.le_of_lt hreached⟩,
        fun k hk => ⟨UInt64.le_of_lt (hlt k hk), (hj.between k hk).2⟩⟩
    · show (height :: starts o).getLast? = _
      rw [List.getLast?_cons, hj.last]
      rfl

end

/-! ### Runs of calls -/

namespace Ledger

variable {l : Ledger}

/-- Of what was put by, what is for later heights is held. The running height was given what was put
by for it, and since then the calls for it, and every height was entered after the lower ones. -/
structure Balanced (E : Setup) (l : Ledger) (i : Instance) : Prop where
  current : l.node.current = some i
  run : ∃ C ext, C.validators = E.validatorsAt C.height ∧ i = (History.run E C ext l.given).inst
  stores : l.node.backlog.Stores (·.round.height) E.config.bufferLimit.toNat
    (l.putBy.filter (i.height < ·.round.height))
  sorted : l.heights.Pairwise (· < ·)
  reached : ∀ k ∈ l.heights, k ≤ i.height
  last : l.heights.getLast? = some i.height

theorem Balanced.orderly (hb : l.Balanced E i) {valid : Message → Prop}
    (hvalid : ∀ m ∈ l.putBy, valid m) : l.node.backlog.Orderly (·.round.height)
      E.config.bufferLimit.toNat i.height valid :=
  hb.stores.orderly hvalid

theorem Balanced.stays (hb : l.Balanced E i) {c : Call}
    (hstarts : starts (handle E c.ext c.event l.node) = [])
    (hcurrent : (handle E c.ext c.event l.node).state.current =
      some ((given? l.node c).elim i fun b => (Instance.handle E b i).state))
    (hbacklog : (handle E c.ext c.event l.node).state.backlog =
      (putBy? E l.node c.event).elim l.node.backlog fun m =>
        l.node.backlog.push E.config.bufferLimit.toNat m.round.height m) :
    ∃ j, (l.after E c).Balanced E j := by
  obtain ⟨C, ext, hC, hrun⟩ := hb.run
  have hgiven : (l.after E c).given = l.given ++ (given? l.node c).toList := by
    simp [Ledger.after, hstarts]
  have hheights : (l.after E c).heights = l.heights := by simp [Ledger.after, hstarts]
  have hj : (given? l.node c).elim i (fun b => (Instance.handle E b i).state) =
      (History.run E C ext (l.after E c).given).inst := by
    rw [hgiven, History.run_append, hrun]
    cases given? l.node c <;> rfl
  have hheight : (History.run E C ext (l.after E c).given).inst.height = i.height := by
    rw [hrun, Instance.height, History.run_committee, Instance.height, History.run_committee]
  refine ⟨(History.run E C ext (l.after E c).given).inst, hcurrent.trans (congrArg some hj),
    ⟨C, ext, hC, rfl⟩, ?_, ?_, ?_, ?_⟩
  · have hstate : (l.after E c).node.backlog = _ := hbacklog
    rw [hheight, hstate, Ledger.after, List.filter_append]
    cases hput : putBy? E l.node c.event with
    | none => simpa using hb.stores
    | some m =>
      obtain ⟨k, hk, hlater, hroom, -⟩ := of_putBy hput
      cases hb.current.symm.trans hk
      have hstores := hb.stores.push (m := m) hroom
      simpa [hlater] using hstores
  · rw [hheights]
    exact hb.sorted
  · rw [hheights, hheight]
    exact hb.reached
  · rw [hheights, hheight]
    exact hb.last

theorem Balanced.enters (hb : l.Balanced E i) {c : Call} {n : Node} (hlater : i.height < height)
    (hbegun : Begun E c.ext height l.node.backlog (l.putBy.filter (i.height < ·.round.height))
      (startHeight E c.ext height n) j)
    (hput : putBy? E l.node c.event = none)
    (hstate : (handle E c.ext c.event l.node).state = (startHeight E c.ext height n).state)
    (hstarts : starts (handle E c.ext c.event l.node) = starts (startHeight E c.ext height n)) :
    (l.after E c).Balanced E j := by
  have hlast := hstarts ▸ hbegun.last
  have hreached : i.height < j.height :=
    UInt64.lt_of_lt_of_le hlater (hbegun.between _ (List.mem_of_getLast? hbegun.last)).1
  have hheights : (l.after E c).heights = l.heights ++ starts (startHeight E c.ext height n) :=
    congrArg (l.heights ++ ·) hstarts
  have hnode : (l.after E c).node = (startHeight E c.ext height n).state := hstate
  have hputBy : (l.after E c).putBy = l.putBy := by simp [Ledger.after, hput]
  have hgiven : (l.after E c).given =
      (l.putBy.filter (·.round.height = j.height)).map fun m => ⟨c.ext, .message m⟩ := by
    simp [Ledger.after, hlast]
  refine ⟨by rw [hnode]; exact hbegun.current, ?_, ?_, ?_, ?_, ?_⟩
  · obtain ⟨C, hC, hrun⟩ := hbegun.run
    refine ⟨C, c.ext, hC, ?_⟩
    have hhanded : handed c.ext j.height l.node.backlog = (l.after E c).given := by
      rw [hgiven, handed, hb.stores.queue, filter_filter_of_imp fun _ hm => hm ▸ hreached]
    rwa [hhanded] at hrun
  · have hstores := hbegun.stores
    rw [hnode, hputBy]
    rwa [filter_filter_of_imp fun _ => UInt64.lt_trans hreached] at hstores
  · rw [hheights]
    exact List.pairwise_append.2 ⟨hb.sorted, hbegun.sorted, fun a ha b hb' =>
      UInt64.lt_of_lt_of_le (UInt64.lt_of_le_of_lt (hb.reached a ha) hlater)
        (hbegun.between b hb').1⟩
  · rw [hheights, List.forall_mem_append]
    exact ⟨fun k hk => UInt64.le_of_lt (UInt64.lt_of_le_of_lt (hb.reached k hk) hreached),
      fun k hk => (hbegun.between k hk).2⟩
  · rw [hheights, List.getLast?_append, hbegun.last]
    rfl

variable (hvalidators : ∀ height, E.validatorsAt height ≠ [])
  (hsigns : ∀ h, ∃ g, E.signer.sign h = .ok g)
include hvalidators hsigns

theorem Balanced.after (hb : l.Balanced E i) {c : Call} (hext : c.ext.Mild)
    (hcall : (handle E c.ext c.event l.node).result ≠ .error .overflow) :
    ∃ j, (l.after E c).Balanced E j := by
  cases handle_ends (E := E) c hb.current with
  | @enters height n hlater hbacklog hput hresult hstate hstarts =>
    obtain ⟨j, hj⟩ := (startHeight_proceeds E c.ext height n).begins hvalidators hsigns hext
      (hbacklog ▸ hb.stores) (hresult ▸ hcall)
    rw [hbacklog] at hj
    exact ⟨j, hb.enters hlater hj hput hstate hstarts⟩
  | stays _ hstarts hcurrent hbacklog => exact hb.stays hstarts hcurrent hbacklog

end Ledger

/-- A height is entered with the messages held for it, each once and in the order in which they
came; those for lower heights are gone, and those for higher ones are held still. -/
def HandsOver (E : Setup) (ext : Collaborators) (height : UInt64) (n : Node) (ms : List Message) :
    Prop :=
  ∃ C : Committee, C.height = height ∧ C.validators = E.validatorsAt height ∧
    let h := History.run E C ext
      ((ms.filter (·.round.height = height)).map fun m => ⟨ext, .message m⟩)
    launch E ext height n =
        ⟨.ok h.inst, { n with backlog := n.backlog.discardThrough height }, h.log⟩ ∧
      (n.backlog.discardThrough height).Stores (·.round.height) E.config.bufferLimit.toNat
        (ms.filter (height < ·.round.height))

end Node

end BlockAgreement
