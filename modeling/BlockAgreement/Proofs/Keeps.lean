import BlockAgreement.Proofs.Round

/-! What handlers keep. A handler keeps a property of states when it leads from such states to such
states, however it ends; beside that, what it gives may be known. The rules follow the parts that
handlers are put together from, so that a property is followed through a handler as it is
written. -/

namespace BlockAgreement

namespace Handler

variable {σ τ α β : Type}

/-- From states with `P` the handler leads to states with `P`, and gives what has `Q`. -/
def Keeps (P : σ → Prop) (Q : α → Prop) (h : Handler σ α) : Prop :=
  ∀ s, P s → P (h s).state ∧ ∀ a, (h s).result = .ok a → Q a

/-- Nothing is said of what a handler gives. -/
def Anything : α → Prop := fun _ => True

namespace Keeps

variable {P : σ → Prop} {P' : τ → Prop} {Q : α → Prop} {Q' : β → Prop} {h : Handler σ α}
  {f : α → Handler σ β}

protected theorem pure {a : α} (ha : Q a) : Keeps P Q (pure a : Handler σ α) := by
  intro s hs
  refine ⟨hs, ?_⟩
  rintro _ ⟨⟩
  exact ha

protected theorem done {a : α} : Keeps P Anything (pure a : Handler σ α) := .pure trivial

protected theorem set {t : σ} (ht : P t) : Keeps P Anything (set t : Handler σ PUnit) :=
  fun _ _ => ⟨ht, fun _ _ => trivial⟩

protected theorem modify {g : σ → σ} (hg : ∀ s, P s → P (g s)) :
    Keeps P Anything (modify g : Handler σ PUnit) :=
  fun s hs => ⟨hg s hs, fun _ _ => trivial⟩

protected theorem ask (e : Effect) : Keeps P Anything (ask e : Handler σ Unit) :=
  fun _ hs => ⟨hs, fun _ _ => trivial⟩

protected theorem ofExcept {r : Except Error α} (hr : ∀ a, r = .ok a → Q a) :
    Keeps P Q (ofExcept r : Handler σ α) :=
  fun _ hs => ⟨hs, hr⟩

protected theorem bind (hh : Keeps P Q h) (hf : ∀ a, Q a → Keeps P Q' (f a)) :
    Keeps P Q' (h >>= f) := by
  intro s hs
  obtain ⟨ht, ha⟩ := hh s hs
  rcases ho : h s with ⟨x, t, es⟩
  rw [ho] at ht ha
  cases x with
  | error e =>
    rw [bind_of_error f ho]
    exact ⟨ht, nofun⟩
  | ok a =>
    rw [bind_of_ok f ho]
    exact hf a (ha a rfl) t ht

/-- What the first part leaves is kept by what comes after it. -/
theorem after {s : σ} (hs : P (h s).state) (hf : ∀ a, Keeps P Anything (f a)) :
    P ((h >>= f) s).state := by
  rcases ho : h s with ⟨x, t, es⟩
  rw [ho] at hs
  cases x with
  | error e =>
    rw [bind_of_error f ho]
    exact hs
  | ok a =>
    rw [bind_of_ok f ho]
    exact (hf a t hs).1

protected theorem ofExcept_bind {r : Except Error α} (hf : ∀ a, r = .ok a → Keeps P Q' (f a)) :
    Keeps P Q' (Handler.ofExcept r >>= f) :=
  .bind (.ofExcept fun _ ha => ha) hf

/-- The state that is read has the property. -/
protected theorem get_bind {f : σ → Handler σ β} (hf : ∀ s, P s → Keeps P Q' (f s)) :
    Keeps P Q' (get >>= f) :=
  fun s hs => hf s hs s hs

protected theorem absorb {h : Handler σ Unit} {ok : Error → Bool} (hh : Keeps P Anything h) :
    Keeps P Anything (absorb ok h) := by
  intro s hs
  rw [absorb_state]
  exact ⟨(hh s hs).1, fun _ _ => trivial⟩

/-- A handler on a part of the state. -/
protected theorem focus {get : σ → τ} {set : τ → σ → σ} {h : Handler τ α} (hh : Keeps P' Q h)
    (hget : ∀ s, P s → P' (get s)) (hset : ∀ s t, P s → P' t → P (set t s)) :
    Keeps P Q (focus get set h) := by
  intro s hs
  obtain ⟨ht, ha⟩ := hh (get s) (hget s hs)
  exact ⟨hset s _ hs ht, ha⟩

protected theorem forM {ms : List β} {f : β → Handler σ PUnit}
    (hf : ∀ m ∈ ms, Keeps P Anything (f m)) : Keeps P Anything (ms.forM f) := by
  induction ms with
  | nil => exact .done
  | cons m ms ih =>
    obtain ⟨hm, hms⟩ := List.forall_mem_cons.1 hf
    exact .bind hm fun _ _ => ih hms

end Keeps

end Handler

open Handler (Keeps Anything)

/-! ### A round stays the same round -/

namespace Round

variable {E : Setup} {C : Committee} {id : RoundId} (ext : Collaborators)

theorem addPrepare_keeps (m : Prepare) :
    Keeps (fun r => r.id = id) Anything (addPrepare E C m) := by
  refine .get_bind fun r hr => .ofExcept_bind fun t ht => .set ?_
  exact (Tally.addPrepare_extends ht).1.round.trans hr

theorem addCommit_keeps (m : Commit) :
    Keeps (fun r => r.id = id) Anything (addCommit E C m) := by
  refine .get_bind fun r hr => .ofExcept_bind fun t ht => .set ?_
  exact (Tally.addCommit_extends ht).1.round.trans hr

theorem commitIfPrepared_keeps : Keeps (fun r => r.id = id) Anything (commitIfPrepared E C) := by
  refine .get_bind fun r hr => ?_
  split
  · split
    · exact .ofExcept_bind fun _ _ => .bind (.set hr) fun _ _ =>
        .bind (.ask _) fun _ _ => addCommit_keeps _
    · exact .done
  · exact .done

theorem deliverIfCommitted_keeps :
    Keeps (fun r => r.id = id) Anything (deliverIfCommitted ext) := by
  refine .get_bind fun r hr => ?_
  split
  · split
    · exact .bind (.set hr) fun _ _ => .bind (.ask _) fun _ _ => .ofExcept fun _ _ => trivial
    · exact .done
  · exact .done

theorem progress_keeps : Keeps (fun r => r.id = id) Anything (progress E C ext) :=
  .bind commitIfPrepared_keeps fun _ _ => deliverIfCommitted_keeps ext

theorem acceptProposal_keeps (p : Proposal) :
    Keeps (fun r => r.id = id) Anything (acceptProposal E C ext p) := by
  refine .get_bind fun r hr => ?_
  split
  · exact .done
  · next t ht =>
    obtain ⟨-, rfl⟩ := Tally.setProposal?_eq_some ht
    refine .bind (.set hr) fun _ _ => ?_
    split
    · exact .ofExcept_bind fun _ _ => .bind (.ask _) fun _ _ =>
        .bind (addPrepare_keeps _) fun _ _ => progress_keeps ext
    · exact progress_keeps ext

theorem propose_keeps (b : Block) (rcs : List (Signed RoundChangeStatement))
    (prepares : List Prepare) :
    Keeps (fun r => r.id = id) Anything (propose E C ext b rcs prepares) :=
  .get_bind fun _ _ => .ofExcept_bind fun _ _ =>
    .bind (.ask _) fun _ _ => acceptProposal_keeps ext _

theorem handlePrepare_keeps (m : Prepare) :
    Keeps (fun r => r.id = id) Anything (handlePrepare E C ext m) :=
  .bind (addPrepare_keeps m) fun _ _ => progress_keeps ext

theorem handleCommit_keeps (m : Commit) :
    Keeps (fun r => r.id = id) Anything (handleCommit E C ext m) :=
  .bind (addCommit_keeps m) fun _ _ => progress_keeps ext

end Round

end BlockAgreement
