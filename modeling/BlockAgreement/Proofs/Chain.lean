import BlockAgreement.Engine.Handler

/-! Handlers read as chains of moves. A relation says what one move may do to a state and what it
asks for; a handler does such a chain when every change it makes is one of the moves, in whatever
way it ends. What the moves preserve is then preserved by the handler, and how the handler is
written no longer matters. -/

namespace BlockAgreement

variable {σ τ α β : Type}

/-- Moves one after the other, with what they asked for. -/
inductive Chain (R : σ → List Effect → σ → Prop) : σ → List Effect → σ → Prop
  | refl (s : σ) : Chain R s [] s
  | snoc {s t u : σ} {es fs : List Effect} : Chain R s es t → R t fs u → Chain R s (es ++ fs) u

namespace Chain

variable {R : σ → List Effect → σ → Prop}

theorem single {s t : σ} {es : List Effect} (h : R s es t) : Chain R s es t := by
  simpa using (Chain.refl s).snoc h

theorem trans {s t u : σ} {es fs : List Effect} (h : Chain R s es t) (h' : Chain R t fs u) :
    Chain R s (es ++ fs) u := by
  induction h' with
  | refl => simpa using h
  | snoc _ hr ih => simpa [List.append_assoc] using ih.snoc hr

theorem cons {s t u : σ} {es fs : List Effect} (hr : R s es t) (h : Chain R t fs u) :
    Chain R s (es ++ fs) u :=
  (single hr).trans h

/-- What each move preserves, a chain preserves. The predicate may speak of all that was asked for
so far. -/
theorem preserves {P : σ → List Effect → Prop}
    (hR : ∀ s t log es, P s log → R s es t → P t (log ++ es)) {s t : σ} {log es : List Effect}
    (hs : P s log) (h : Chain R s es t) : P t (log ++ es) := by
  induction h with
  | refl => simpa using hs
  | snoc _ hr ih => simpa [List.append_assoc] using hR _ _ _ _ ih hr

theorem preserves_nil {P : σ → List Effect → Prop}
    (hR : ∀ s t log es, P s log → R s es t → P t (log ++ es)) {s t : σ} {es : List Effect}
    (hs : P s []) (h : Chain R s es t) : P t es := by
  simpa using h.preserves hR hs

theorem preserves_state {P : σ → Prop} (hR : ∀ s t es, P s → R s es t → P t) {s t : σ}
    {es : List Effect} (hs : P s) (h : Chain R s es t) : P t := by
  induction h with
  | refl => exact hs
  | snoc _ hr ih => exact hR _ _ _ ih hr

/-- Moves on a part of the state are moves of the whole. -/
theorem lift {T : τ → List Effect → τ → Prop} (put : σ → τ)
    (hR : ∀ s es t, R s es t → T (put s) es (put t)) {s t : σ} {es : List Effect}
    (h : Chain R s es t) : Chain T (put s) es (put t) := by
  induction h with
  | refl => exact .refl _
  | snoc _ hr ih => exact ih.snoc (hR _ _ _ hr)

end Chain

namespace Handler

section Evaluation

variable {s t : σ} {a : α} {e : Error} {es : List Effect} (f : α → Handler σ β)

theorem bind_of_ok {h : Handler σ α} (hh : h s = ⟨.ok a, t, es⟩) :
    (h >>= f) s = ⟨(f a t).result, (f a t).state, es ++ (f a t).effects⟩ := by
  show Handler.bind h f s = _
  rw [Handler.bind, hh]

theorem bind_of_error {h : Handler σ α} (hh : h s = ⟨.error e, t, es⟩) :
    (h >>= f) s = ⟨.error e, t, es⟩ := by
  show Handler.bind h f s = _
  rw [Handler.bind, hh]

theorem get_bind (f : σ → Handler σ β) (s : σ) : (get >>= f) s = f s s := rfl

theorem set_bind (f : PUnit → Handler σ β) (s t : σ) : (set t >>= f) s = f ⟨⟩ t := rfl

theorem modify_bind (g : σ → σ) (f : PUnit → Handler σ β) (s : σ) :
    (modify g >>= f) s = f ⟨⟩ (g s) := rfl

theorem ask_bind (e : Effect) (f : Unit → Handler σ β) (s : σ) :
    (ask e >>= f) s = ⟨(f () s).result, (f () s).state, e :: (f () s).effects⟩ := rfl

theorem ofExcept_ok_bind (a : α) (f : α → Handler σ β) : (ofExcept (.ok a) >>= f) = f a := rfl

theorem ofExcept_error_bind (e : Error) (f : α → Handler σ β) (s : σ) :
    (ofExcept (.error e) >>= f) s = ⟨.error e, s, []⟩ := rfl

theorem absorb_effects (ok : Error → Bool) (h : Handler σ Unit) (s : σ) :
    (absorb ok h s).effects = (h s).effects := by
  unfold absorb
  dsimp only
  split
  · split <;> rfl
  · rfl

theorem absorb_state (ok : Error → Bool) (h : Handler σ Unit) (s : σ) :
    (absorb ok h s).state = (h s).state := by
  unfold absorb
  dsimp only
  split
  · split <;> rfl
  · rfl

end Evaluation

/-- From `s` the handler makes moves of `R` only, and ends as `Q` says. -/
def Does (R : σ → List Effect → σ → Prop) (h : Handler σ α) (s : σ)
    (Q : Except Error α → σ → Prop) : Prop :=
  Chain R s (h s).effects (h s).state ∧ Q (h s).result (h s).state

namespace Does

variable {R : σ → List Effect → σ → Prop} {h : Handler σ α} {f : α → Handler σ β} {s : σ}
  {Q Q' : Except Error α → σ → Prop} {P : Except Error β → σ → Prop}

theorem weaken (hh : Does R h s Q) (hq : ∀ r t, Q r t → Q' r t) : Does R h s Q' :=
  ⟨hh.1, hq _ _ hh.2⟩

theorem mono {T : σ → List Effect → σ → Prop} (hh : Does R h s Q)
    (hR : ∀ s es t, R s es t → T s es t) : Does T h s Q :=
  ⟨hh.1.lift id hR, hh.2⟩

protected theorem pure {a : α} (hq : Q (.ok a) s) : Does R (pure a) s Q := ⟨.refl s, hq⟩

protected theorem bind (hh : Does R h s Q) (hok : ∀ a t, Q (.ok a) t → Does R (f a) t P)
    (herr : ∀ e t, Q (.error e) t → P (.error e) t) : Does R (h >>= f) s P := by
  obtain ⟨hc, hq⟩ := hh
  have hb : (h >>= f) s = Handler.bind h f s := rfl
  unfold Does
  rw [hb, Handler.bind]
  cases hr : (h s).result with
  | error e =>
    rw [hr] at hq
    exact ⟨hc, herr e _ hq⟩
  | ok a =>
    rw [hr] at hq
    obtain ⟨hc', hp⟩ := hok a _ hq
    exact ⟨hc.trans hc', hp⟩

/-- A first part that is known for what it gives. -/
protected theorem step {a : α} {t : σ} {es : List Effect} (hh : h s = ⟨.ok a, t, es⟩)
    (hr : Chain R s es t) (hf : Does R (f a) t P) : Does R (h >>= f) s P := by
  rw [Does, bind_of_ok f hh]
  exact ⟨hr.trans hf.1, hf.2⟩

/-- A first part that only gives something. -/
protected theorem skip {a : α} (hh : h s = ⟨.ok a, s, []⟩) (hf : Does R (f a) s P) :
    Does R (h >>= f) s P :=
  .step hh (.refl s) hf

protected theorem get {f : σ → Handler σ β} (hf : Does R (f s) s P) : Does R (get >>= f) s P :=
  .bind (Q := fun r t => r = .ok s ∧ t = s) ⟨.refl s, rfl, rfl⟩
    (fun _ _ ⟨ha, ht⟩ => by cases ha; subst ht; exact hf) (by rintro e t ⟨⟨⟩, -⟩)

protected theorem ofExcept {r : Except Error α} (hq : Q r s) : Does R (ofExcept r) s Q :=
  ⟨.refl s, hq⟩

protected theorem ofExcept_bind {r : Except Error α} (hok : ∀ a, r = .ok a → Does R (f a) s P)
    (herr : ∀ e, r = .error e → P (.error e) s) : Does R (Handler.ofExcept r >>= f) s P := by
  refine .bind (Q := fun x t => x = r ∧ t = s) (.ofExcept ⟨rfl, rfl⟩) ?_ ?_
  · rintro a t ⟨ha, ht⟩
    exact ht ▸ hok a ha.symm
  · rintro e t ⟨he, ht⟩
    exact ht ▸ herr e he.symm

/-- A change of the state that is a move. -/
protected theorem set {t : σ} {Q : Except Error PUnit → σ → Prop} (hr : R s [] t)
    (hq : Q (.ok ⟨⟩) t) : Does R (set t : Handler σ PUnit) s Q :=
  ⟨.single hr, hq⟩

protected theorem modify_bind {g : σ → σ} {f : PUnit → Handler σ β} (hr : R s [] (g s))
    (hf : Does R (f ⟨⟩) (g s) P) : Does R (modify g >>= f) s P :=
  ⟨.cons hr hf.1, hf.2⟩

protected theorem ask {e : Effect} {Q : Except Error Unit → σ → Prop} (hr : R s [e] s)
    (hq : Q (.ok ()) s) : Does R (ask e) s Q :=
  ⟨.single hr, hq⟩

protected theorem absorb {h : Handler σ Unit} {ok : Error → Bool}
    {Q Q' : Except Error Unit → σ → Prop} (hh : Does R h s Q)
    (hq : ∀ r t, Q r t → Q' r t ∧ Q' (.ok ()) t) : Does R (absorb ok h) s Q' := by
  unfold Does Handler.absorb at *
  obtain ⟨hc, hr⟩ := hh
  generalize h s = o at hc hr ⊢
  obtain ⟨r, t, es⟩ := o
  obtain ⟨hq, hq'⟩ := hq r t hr
  cases r with
  | ok => exact ⟨hc, hq⟩
  | error e =>
    simp only
    split
    · exact ⟨hc, hq'⟩
    · exact ⟨hc, hq⟩

end Does

end Handler

end BlockAgreement
