import BlockAgreement.Proofs.Voting
import Mathlib.Data.Finset.Card

/-! The validators of one height together, some of them faulty. Messages may be lost, late, repeated
or out of order, and the faulty make up what they like, except votes and round changes in the name
of the others. Each honest node then makes a run on its own, in which all that is heard in the name
of an honest node was said by that node. -/

namespace BlockAgreement

/-- This is the setup of a node with this address, which goes by this scheme. -/
structure Setup.Serves (E : Setup) (S : Scheme) (a : Address) : Prop where
  scheme : E.scheme = S
  address : E.signer.address = a
  sound : E.Sound

/-- Nodes that decide one height. Who is not faulty is honest, and runs a node whether it is a
validator or not. -/
structure Network where
  scheme : Scheme
  committee : Committee
  faulty : Finset Address
  setup : Address → Setup
  few_faulty : (committee.validators.toFinset ∩ faulty).card ≤ committee.faultTolerance
  serves : ∀ a ∉ faulty, (setup a).Serves scheme a

/-- What has become of the nodes that started so far. -/
abbrev World := Address → Option History

namespace Network

variable (N : Network) (w : World)

/-- Signatures cannot be forged and hashes do not collide: whoever is found to have signed this is
faulty, or did say it. -/
def Genuine {P : Type} [Statement P] (m : Signed P) (told : Message → Prop) : Prop :=
  ∀ a ∉ N.faulty, m.author N.scheme = .ok a → ∃ h, w a = some h ∧ ∃ x ∈ h.sent, told x

/-- What may be heard. Not even the authors of proposals and seals need be the right ones. -/
def outside : Outside where
  prepare m := N.Genuine w m fun x => ∃ y, x = .prepare y ∧ y.statement = m.statement
  commit m := N.Genuine w m fun x => ∃ y, x = .commit y ∧ y.statement = m.statement
  roundChange m := N.Genuine w m fun x => ∃ y, x = .roundChange y ∧ y.signed.statement = m.statement
  block _ := True
  lastExpires := False

structure MayCall (c : Call) : Prop where
  message : ∀ m, c.input = .message m → (N.outside w).Admits m
  expiry : ∀ round, c.input = .roundExpiry round → round.number ≠ lastNumber

/-- The honest nodes start and are called, one at a time and in any order. -/
inductive Reachable : World → Prop
  | idle : Reachable fun _ => none
  | start {w : World} {a : Address} (hw : Reachable w) (ha : a ∉ N.faulty) (hnone : w a = none)
      (first : Collaborators) :
      Reachable (Function.update w a (some (.opening (N.setup a) N.committee first)))
  | call {w : World} {a : Address} {h : History} {c : Call} (hw : Reachable w)
      (ha : w a = some h) (hc : N.MayCall w c) :
      Reachable (Function.update w a (some (h.after (N.setup a) c)))

end Network

/-! ### What may be heard stays so -/

/-- All that may come from the one may come from the other. -/
structure Outside.Le (A B : Outside) : Prop where
  prepare : ∀ m, A.prepare m → B.prepare m
  commit : ∀ m, A.commit m → B.commit m
  roundChange : ∀ m, A.roundChange m → B.roundChange m
  block : ∀ b, A.block b → B.block b
  lastExpires : A.lastExpires → B.lastExpires

namespace Outside.Le

variable {A B : Outside} {C : Committee} {E : Setup} {h : History} {calls : List Call}

theorem admits (hAB : A.Le B) {m : Message} (hm : A.Admits m) : B.Admits m := by
  cases m with
  | proposal p =>
    exact ⟨fun rc h => hAB.roundChange rc (hm.1 rc h), fun m h => hAB.prepare m (hm.2 m h)⟩
  | prepare m => exact hAB.prepare m hm
  | commit m => exact hAB.commit m hm
  | roundChange rc => exact ⟨hAB.roundChange _ hm.1, fun m h => hAB.prepare m (hm.2 m h)⟩

theorem admitsCalls (hAB : A.Le B) (hc : A.AdmitsCalls C E h calls) :
    B.AdmitsCalls C E h calls := by
  intro before c hb
  obtain ⟨hblocks, hmessage, hexpiry⟩ := hc before c hb
  exact ⟨fun n b h => hAB.block b (hblocks n b h), fun m h => hAB.admits (hmessage m h),
    fun round h hn hr hu => hAB.lastExpires (hexpiry round h hn hr hu)⟩

end Outside.Le

namespace World

/-- Nodes say more and take nothing back. -/
def Grows (w w' : World) : Prop :=
  ∀ a h, w a = some h → ∃ h', w' a = some h' ∧ h.sent ⊆ h'.sent

variable {w : World} {a : Address} {k : History}

theorem grows_update (hk : ∀ h, w a = some h → h.sent ⊆ k.sent) :
    w.Grows (Function.update w a (some k)) := by
  intro b h hb
  by_cases hab : b = a
  · subst b
    exact ⟨k, Function.update_self .., hk h hb⟩
  · exact ⟨h, by rw [Function.update_of_ne hab, hb], List.Subset.refl _⟩

end World

namespace Network

variable {N : Network} {w w' : World} {a b : Address} {h : History}

theorem Genuine.grows {P : Type} [Statement P] {m : Signed P} {told : Message → Prop}
    (hm : N.Genuine w m told) (hw : w.Grows w') : N.Genuine w' m told := by
  intro a ha hauthor
  obtain ⟨h, hwa, x, hx, htold⟩ := hm a ha hauthor
  obtain ⟨h', hwa', hsub⟩ := hw a h hwa
  exact ⟨h', hwa', x, hsub hx, htold⟩

theorem outside_le (hw : w.Grows w') : (N.outside w).Le (N.outside w') where
  prepare _ hm := Genuine.grows hm hw
  commit _ hm := Genuine.grows hm hw
  roundChange _ hm := Genuine.grows hm hw
  block _ := id
  lastExpires := id

/-! ### Each node makes a run -/

/-- The node at this address, run with what the others may have told it. -/
structure Runs (N : Network) (w : World) (a : Address) (h : History) : Prop where
  honest : a ∉ N.faulty
  run : ∃ first calls, h = .run (N.setup a) N.committee first calls ∧
    (N.outside w).AdmitsCalls N.committee (N.setup a) (.opening (N.setup a) N.committee first) calls

theorem Runs.grows (hr : N.Runs w a h) (hw : w.Grows w') : N.Runs w' a h := by
  obtain ⟨ha, first, calls, hrun, hc⟩ := hr
  exact ⟨ha, first, calls, hrun, (outside_le hw).admitsCalls hc⟩

theorem runs_opening (ha : a ∉ N.faulty) (first : Collaborators) :
    N.Runs w a (.opening (N.setup a) N.committee first) := by
  refine ⟨ha, first, [], rfl, fun before c hb => ?_⟩
  simp at hb

theorem Runs.after {c : Call} (hr : N.Runs w a h) (hc : N.MayCall w c) :
    N.Runs w a (h.after (N.setup a) c) := by
  obtain ⟨ha, first, calls, rfl, hcalls⟩ := hr
  refine ⟨ha, first, calls ++ [c], (History.run_append _ _ first calls [c]).symm, fun before d hb => ?_⟩
  rcases List.prefix_concat_iff.1 hb with hb | hb
  · obtain ⟨-, rfl⟩ := List.append_inj' hb rfl |>.imp id List.singleton_inj.1
    exact ⟨fun _ _ _ => trivial, hc.message, fun round hi hn _ _ => hc.expiry round hi hn⟩
  · exact hcalls before d hb

/-- The step of one node is nothing but news for the others. -/
theorem runs_update (hw : ∀ b h, w b = some h → N.Runs w b h) (ha : N.Runs w a h)
    (hsent : ∀ k, w a = some k → k.sent ⊆ h.sent) :
    ∀ b k, Function.update w a (some h) b = some k → N.Runs (Function.update w a (some h)) b k := by
  intro b k hb
  by_cases hab : b = a
  · subst b
    rw [Function.update_self] at hb
    cases hb
    exact ha.grows (World.grows_update hsent)
  · rw [Function.update_of_ne hab] at hb
    exact (hw b k hb).grows (World.grows_update hsent)

theorem Reachable.runs (hw : N.Reachable w) : ∀ a h, w a = some h → N.Runs w a h := by
  induction hw with
  | idle =>
    intro a h ha
    cases ha
  | start _ ha hnone first ih =>
    exact runs_update ih (runs_opening ha first) fun k hk => by cases hnone.symm.trans hk
  | call _ ha hc ih =>
    refine runs_update ih ((ih _ _ ha).after hc) fun k hk => ?_
    cases ha.symm.trans hk
    rw [History.sent_after]
    exact List.subset_append_left ..

end Network

/-! ### Each node signs what it sends -/

section Signing

variable {E : Setup} {C : Committee} {A : Outside} {es : List Effect}

variable (E) in
def Effect.SignedBy : Effect → Prop
  | .multicast (.prepare m) => E.signer.sign (Statement.hash E.scheme m.statement) = .ok m.signature
  | .multicast (.commit m) => E.signer.sign (Statement.hash E.scheme m.statement) = .ok m.signature
  | .multicast (.roundChange rc) =>
    E.signer.sign (Statement.hash E.scheme rc.signed.statement) = .ok rc.signed.signature
  | _ => True

theorem Effect.Silent.signedBy {e : Effect} (h : e.Silent) : e.SignedBy E := by
  cases e with
  | multicast => exact h.elim
  | deliverBlock | startTimer | cancelTimer | requestBlock => trivial

theorem Round.Answers.signedBy {r : Round} {p : Proposal} {t : Tally}
    (h : Answers E C r p es t) : ∀ e ∈ es, e.SignedBy E := by
  cases h with
  | silent => exact nofun
  | prepare _ hm _ =>
    intro e he
    obtain ⟨hs, hg⟩ := Signer.attest_eq_ok_iff.1 hm
    rw [List.mem_singleton.1 he, Effect.SignedBy, hs]
    exact hg

theorem Round.Move.signedBy {own : Proposal → Prop} {r s : Round} (h : Move E C A own r es s) :
    ∀ e ∈ es, e.SignedBy E := by
  cases h with
  | prepare | commit => exact nofun
  | take _ _ h => exact h.signedBy
  | propose _ _ h => exact List.forall_mem_cons.2 ⟨trivial, h.signedBy⟩
  | confirm _ _ _ hm =>
    intro e he
    rw [List.mem_singleton.1 he]
    exact (Signer.commit_eq_ok hm).2.2.1
  | deliver => exact fun e he => List.mem_singleton.1 he ▸ trivial

theorem Instance.Move.signedBy {i j : Instance} (h : Move E A i es j) :
    ∀ e ∈ es, e.SignedBy E := by
  cases h with
  | round h => exact h.signedBy
  | note | mark | hold | gather => exact nofun
  | ask he => exact fun e h => List.mem_singleton.1 h ▸ he.signedBy
  | enter _ hf h =>
    intro e he
    rcases List.mem_append.1 he with he | he
    · exact (hf e he).signedBy
    · cases h with
      | silent => cases he
      | roundChange hrc =>
        rw [List.mem_singleton.1 he]
        exact (Signer.changeRound_eq_ok hrc).2.2.2.2

theorem Instance.signedBy_of_chain {i j : Instance} (h : Chain (Move E A) i es j) :
    ∀ e ∈ es, e.SignedBy E := by
  refine h.preserves_nil (P := fun _ log => ∀ e ∈ log, e.SignedBy E) ?_ nofun
  intro _ _ log es hlog hm e he
  exact (List.mem_append.1 he).elim (hlog e) (hm.signedBy e)

end Signing

/-! ### What is known of each node -/

namespace Network

variable {N : Network} {w : World} {a b : Address} {h : History} {m : Message}

theorem Runs.chain (hr : N.Runs w a h) :
    Chain (Instance.Move (N.setup a) (N.outside w)) (Instance.new (N.setup a) N.committee)
      h.log h.inst := by
  obtain ⟨-, first, calls, rfl, hc⟩ := hr
  exact (History.run_chain (fun _ _ _ => trivial) hc).2

/-- What a node signed is genuine when the node said it. -/
theorem Runs.genuine {P : Type} [Statement P] {x : Signed P} {told : Message → Prop}
    (hr : N.Runs w a h) (hwa : w a = some h)
    (hx : (N.setup a).signer.sign (Statement.hash (N.setup a).scheme x.statement) =
      .ok x.signature) (hm : m ∈ h.sent) (htold : told m) : N.Genuine w x told := by
  obtain ⟨hscheme, haddress, hsound⟩ := N.serves a hr.honest
  intro b _ hb
  have hauthor := hsound.author_eq hx
  rw [hscheme, haddress] at hauthor
  cases hauthor.symm.trans hb
  exact ⟨h, hwa, m, hm, htold⟩

/-- A node may hear itself. -/
theorem Runs.admitsOwn (hr : N.Runs w a h) (hwa : w a = some h) :
    ∀ e ∈ h.log, (N.outside w).AdmitsOwn e := by
  intro e he
  have hsigned := Instance.signedBy_of_chain hr.chain e he
  unfold Outside.AdmitsOwn
  split
  · exact hr.genuine hwa hsigned (History.mem_sent.2 he) ⟨_, rfl, rfl⟩
  · exact hr.genuine hwa hsigned (History.mem_sent.2 he) ⟨_, rfl, rfl⟩
  · exact hr.genuine hwa hsigned (History.mem_sent.2 he) ⟨_, rfl, rfl⟩
  · trivial

theorem Runs.backed (hr : N.Runs w a h) (hwa : w a = some h) :
    ∀ e ∈ h.log, e.Backed N.scheme N.committee (N.outside w) := by
  obtain ⟨-, hbacked⟩ := Instance.backed_of_chain hr.chain (hr.admitsOwn hwa)
  rwa [(N.serves a hr.honest).scheme] at hbacked

/-- What an honest node sends, all others may hear. -/
theorem Runs.admits (hr : N.Runs w a h) (hwa : w a = some h) (hm : m ∈ h.sent) :
    (N.outside w).Admits m := by
  rw [History.mem_sent] at hm
  have hown := hr.admitsOwn hwa _ hm
  have hbacked := hr.backed hwa _ hm
  cases m with
  | proposal => exact hbacked.admits
  | prepare | commit => exact hown
  | roundChange => exact hbacked.2

/-! ### A small network -/

/-- Whatever the faulty sign is genuine. -/
theorem genuine_of_faulty {P : Type} [Statement P] {x : Signed P} {told : Message → Prop}
    (ha : a ∈ N.faulty) (hx : x.author N.scheme = .ok a) : N.Genuine w x told := by
  intro b hb hauthor
  cases hx.symm.trans hauthor
  exact absurd ha hb

/-- Of the validators 1 to 4 the last is faulty. -/
def plain : Network where
  scheme := .plain
  committee := .plain 3
  faulty := {.ofNat 4}
  setup := .plain
  few_faulty := by decide +kernel
  serves a _ := ⟨rfl, rfl, Setup.plain_sound a⟩

variable (N) in
/-- Two nodes may have come this far together. -/
def Joint (a b : Address) (h k : History) : Prop :=
  ∃ w, N.Reachable w ∧ w a = some h ∧ w b = some k

variable {k : History}

theorem Joint.symm (hj : N.Joint a b h k) : N.Joint b a k h := by
  obtain ⟨w, hw, ha, hb⟩ := hj
  exact ⟨w, hw, hb, ha⟩

theorem joint_opening (ha : a ∉ N.faulty) (hb : b ∉ N.faulty) (hab : a ≠ b)
    (first second : Collaborators) :
    N.Joint a b (.opening (N.setup a) N.committee first)
      (.opening (N.setup b) N.committee second) := by
  have hw := Reachable.idle.start ha rfl first
  have hnone : Function.update (fun _ => none) a
      (some (History.opening (N.setup a) N.committee first)) b = none :=
    Function.update_of_ne hab.symm ..
  refine ⟨_, hw.start hb hnone second, ?_, Function.update_self ..⟩
  rw [Function.update_of_ne hab, Function.update_self]

/-- One of two nodes is given messages that the other sent, or that anyone could. -/
theorem Joint.hear (hj : N.Joint a b h k) (hab : a ≠ b) {ms : List Message}
    (hms : ∀ m ∈ ms, m ∈ k.sent ∨ ∀ w, (N.outside w).Admits m) :
    N.Joint a b ((ms.map fun m => ⟨.plain, .message m⟩).foldl (.after (N.setup a)) h) k := by
  induction ms generalizing h with
  | nil => exact hj
  | cons m ms ih =>
    obtain ⟨hm, hms⟩ := List.forall_mem_cons.1 hms
    obtain ⟨w, hw, ha, hb⟩ := hj
    refine ih ⟨_, hw.call (c := ⟨.plain, .message m⟩) ha ⟨?_, nofun⟩, Function.update_self .., ?_⟩ hms
    · rintro _ ⟨⟩
      exact hm.elim (fun hm => (hw.runs b k hb).admits hb hm) fun hm => hm w
    · rwa [Function.update_of_ne hab.symm]

end Network

end BlockAgreement
