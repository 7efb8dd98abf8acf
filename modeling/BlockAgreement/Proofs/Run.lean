import BlockAgreement.Proofs.Instance

/-! Runs of one height: a node starts and is then given messages and expiries, in any order and also
after failures. All that it asked for is kept. A run is a chain of moves as long as what comes from
outside is admitted. -/

namespace BlockAgreement

/-- What may happen to a node at one height. -/
inductive Input
  | message (m : Message)
  | roundExpiry (round : RoundId)

/-- An input, with the answers of those who make and take blocks. -/
structure Call where
  ext : Collaborators
  input : Input

/-- What has become of a height, and all that was asked for until then. -/
structure History where
  inst : Instance
  log : List Effect

def Effect.message? : Effect → Option Message
  | .multicast m => some m
  | _ => none

def Instance.handle (E : Setup) (c : Call) : Handler Instance Unit :=
  match c.input with
  | .message m => handleMessage E c.ext m
  | .roundExpiry round => roundExpired E c.ext round

namespace History

/-- The node starts, with the answers of `first`. -/
def opening (E : Setup) (C : Committee) (first : Collaborators) : History :=
  let o := Instance.start E first (Instance.new E C)
  ⟨o.state, o.effects⟩

def after (E : Setup) (h : History) (c : Call) : History :=
  let o := Instance.handle E c h.inst
  ⟨o.state, h.log ++ o.effects⟩

def run (E : Setup) (C : Committee) (first : Collaborators) (calls : List Call) : History :=
  calls.foldl (after E) (opening E C first)

theorem run_append (E : Setup) (C : Committee) (first : Collaborators) (calls more : List Call) :
    run E C first (calls ++ more) = more.foldl (after E) (run E C first calls) :=
  List.foldl_append

/-- What the node sent, in this order. -/
def sent (h : History) : List Message := h.log.filterMap Effect.message?

theorem mem_sent {h : History} {m : Message} : m ∈ h.sent ↔ .multicast m ∈ h.log := by
  rw [sent, List.mem_filterMap]
  refine ⟨fun ⟨e, he, hm⟩ => ?_, fun h => ⟨_, h, rfl⟩⟩
  cases e with
  | multicast x =>
    cases hm
    exact he
  | _ => cases hm

theorem sent_after (E : Setup) (h : History) (c : Call) : (h.after E c).sent =
    h.sent ++ (Instance.handle E c h.inst).effects.filterMap Effect.message? :=
  List.filterMap_append

end History

/-- Blocks are made for the height that they are asked for. -/
def Collaborators.Numbered (ext : Collaborators) : Prop :=
  ∀ round b, ext.createBlock round = .ok b → b.number = round.height

namespace Outside

/-- Any messages may come. -/
def any (block : Block → Prop) (lastExpires : Prop) : Outside where
  prepare _ := True
  commit _ := True
  roundChange _ := True
  block
  lastExpires

variable (A : Outside) (C : Committee)

theorem admits_any {block : Block → Prop} {lastExpires : Prop} (m : Message) :
    (any block lastExpires).Admits m := by
  cases m <;> simp [Admits, any]

theorem admitsOwn_any {block : Block → Prop} {lastExpires : Prop} (e : Effect) :
    (any block lastExpires).AdmitsOwn e := by
  unfold AdmitsOwn
  split <;> trivial

def AdmitsBlocks (ext : Collaborators) : Prop :=
  ∀ n b, ext.createBlock ⟨C.height, n⟩ = .ok b → A.block b

structure AdmitsCall (i : Instance) (c : Call) : Prop where
  blocks : A.AdmitsBlocks C c.ext
  message : ∀ m, c.input = .message m → A.Admits m
  expiry : ∀ round, c.input = .roundExpiry round → round.number = lastNumber →
    round = i.round.id → i.isCommitted = false → A.lastExpires

/-- Each call is admitted in the state in which it is made. -/
def AdmitsCalls (E : Setup) (h : History) (calls : List Call) : Prop :=
  ∀ before c, before ++ [c] <+: calls → A.AdmitsCall C (before.foldl (.after E) h).inst c

end Outside

theorem Instance.handle_arrives {E : Setup} {C : Committee} {A : Outside} {i : Instance} {c : Call}
    (hi : Settled E C A i) (hc : A.AdmitsCall C i c) :
    Arrives E A i (handle E c i) fun _ j => Settled E C A j := by
  unfold handle
  cases hinput : c.input with
  | message m => exact handleMessage_arrives c.ext hc.blocks hi (hc.message m hinput)
  | roundExpiry round => exact roundExpired_arrives c.ext hc.blocks hi (hc.expiry round hinput)

namespace History

variable {E : Setup} {C : Committee} {A : Outside} {h : History} {first : Collaborators}
  {calls : List Call}

theorem admitsCalls_left {more : List Call} (hc : A.AdmitsCalls C E h (calls ++ more)) :
    A.AdmitsCalls C E h calls :=
  fun before c hb => hc before c (hb.trans (List.prefix_append ..))

theorem admitsCalls_right {more : List Call} (hc : A.AdmitsCalls C E h (calls ++ more)) :
    A.AdmitsCalls C E (calls.foldl (after E) h) more := by
  intro before c hb
  have := hc (calls ++ before) c (by
    rw [List.append_assoc]
    exact (List.prefix_append_right_inj calls).2 hb)
  rwa [List.foldl_append] at this

theorem admitsCalls_all (h : History) (calls : List Call) :
    (Outside.any (fun _ => True) True).AdmitsCalls C E h calls :=
  fun _ _ _ => ⟨fun _ _ _ => trivial, fun m _ => Outside.admits_any m, fun _ _ _ _ _ => trivial⟩

/-- One call after the other, each a chain of moves. -/
theorem chain_of_calls (hs : Instance.Settled E C A h.inst) (hc : A.AdmitsCalls C E h calls) :
    Instance.Settled E C A (calls.foldl (after E) h).inst ∧
      ∃ es, (calls.foldl (after E) h).log = h.log ++ es ∧
        Chain (Instance.Move E A) h.inst es (calls.foldl (after E) h).inst := by
  induction calls using List.reverseRecOn with
  | nil => exact ⟨hs, [], (List.append_nil _).symm, .refl _⟩
  | append_singleton calls c ih =>
    obtain ⟨hs, es, hlog, hchain⟩ :=
      ih (admitsCalls_left hc)
    have hcall := hc calls c (List.prefix_refl _)
    rw [List.foldl_append]
    generalize calls.foldl (after E) h = k at *
    obtain ⟨hchain', hs'⟩ := (Instance.handle_arrives hs hcall).does
    refine ⟨hs', es ++ (Instance.handle E c k.inst).effects, ?_, hchain.trans hchain'⟩
    rw [← List.append_assoc, ← hlog]
    rfl

theorem opening_chain (hf : A.AdmitsBlocks C first) :
    Instance.Settled E C A (opening E C first).inst ∧
      Chain (Instance.Move E A) (Instance.new E C) (opening E C first).log
        (opening E C first).inst :=
  ((Instance.start_does first hf ⟨Instance.formed_new, fun _ => nofun⟩).mono
    Instance.move_of_stay).symm

theorem run_chain (hf : A.AdmitsBlocks C first)
    (hc : A.AdmitsCalls C E (opening E C first) calls) :
    Instance.Settled E C A (run E C first calls).inst ∧
      Chain (Instance.Move E A) (Instance.new E C) (run E C first calls).log
        (run E C first calls).inst := by
  obtain ⟨hs, hopen⟩ := opening_chain (E := E) hf
  obtain ⟨hs, es, hlog, hchain⟩ := chain_of_calls hs hc
  refine ⟨hs, ?_⟩
  rw [run, hlog]
  exact hopen.trans hchain

/-- A run is a chain of moves whatever comes, and however it is answered. -/
theorem run_moves (E : Setup) (C : Committee) (first : Collaborators) (calls : List Call) :
    Instance.Settled E C (.any (fun _ => True) True) (run E C first calls).inst ∧
      Chain (Instance.Move E (.any (fun _ => True) True)) (Instance.new E C)
        (run E C first calls).log (run E C first calls).inst :=
  run_chain (fun _ _ _ => trivial) (admitsCalls_all _ calls)

theorem run_committee (E : Setup) (C : Committee) (first : Collaborators) (calls : List Call) :
    (run E C first calls).inst.committee = C :=
  (run_moves E C first calls).1.formed.committee

/-- More calls go on from what a run has come to. -/
theorem extend_chain {more : List Call} (hf : A.AdmitsBlocks C first)
    (hc : A.AdmitsCalls C E (opening E C first) (calls ++ more)) :
    ∃ es, (run E C first (calls ++ more)).log = (run E C first calls).log ++ es ∧
      Chain (Instance.Move E A) (run E C first calls).inst es
        (run E C first (calls ++ more)).inst := by
  obtain ⟨hs, -⟩ := run_chain hf (admitsCalls_left hc)
  rw [run_append]
  exact (chain_of_calls hs (admitsCalls_right hc)).2

end History

/-! ### A small setup to run -/

/-- Hashes that add up bytes, and signatures that name their author beside what was signed. -/
def Scheme.plain : Scheme where
  hash b := .ofNat (b.foldl (fun n x => n + x.toNat) 0)
  recover h g :=
    if g.s = h then .ok ⟨g.r.toList.drop 12, by simp [g.r.length_toList]⟩ else .error .key
  scope := .header

def Signer.plain (a : Address) : Signer where
  address := a
  sign h := .ok ⟨⟨List.replicate 12 0 ++ a.toList, by simp [a.length_toList]⟩, h, false⟩

def Setup.plain (a : Address) : Setup where
  scheme := .plain
  signer := .plain a
  rotation := .byHeight
  config := {}
  validatorsAt _ := []

theorem Setup.plain_sound (a : Address) : (Setup.plain a).Sound := by
  rintro h g ⟨⟩
  rw [Setup.plain, Scheme.plain]
  simp only [if_true]
  congr

/-- The validators 1 to `n + 1` at height 1. -/
def Committee.plain (n : Nat) : Committee where
  height := 1
  validators := (List.range (n + 1)).map fun k => .ofNat (k + 1)
  rotation := .byHeight
  validators_ne_nil := by simp

def Block.plain (number : UInt64) (extra : Bytes) : Block := ⟨.zero, .zero, number, 0, extra, []⟩

def Collaborators.plain : Collaborators where
  createBlock round := .ok (.plain round.height [])
  importBlock _ _ := .ok ()

theorem Collaborators.plain_numbered : Collaborators.plain.Numbered := by
  rintro round b ⟨⟩
  rfl

/-- The statement of a validator, with a signature that names it. -/
def Signed.plain {P : Type} [Statement P] (k : Nat) (p : P) : Signed P :=
  ⟨p, ⟨.ofNat k, Statement.hash .plain p, false⟩⟩

/-- The calls that hand a node these messages, where they could be made. -/
def Call.plain (ms : List (Except Error Message)) : List Call :=
  ms.filterMap fun m => m.toOption.map fun m => ⟨.plain, .message m⟩

/-- The proposal of the first round, with the prepares of two others of four. -/
def History.preparedCalls : List Call :=
  let block := Block.plain 1 []
  let digest := Scheme.plain.digest block
  Call.plain [
    .proposal <$> (Signer.plain (.ofNat 2)).propose .plain ⟨1, 0⟩ block [] [],
    .prepare <$> (Signer.plain (.ofNat 1)).prepare .plain ⟨1, 0⟩ digest,
    .prepare <$> (Signer.plain (.ofNat 2)).prepare .plain ⟨1, 0⟩ digest]

theorem Call.plain_numbered (ms : List (Except Error Message)) :
    ∀ c ∈ Call.plain ms, c.ext.Numbered := by
  intro c hc
  obtain ⟨m, -, hm⟩ := List.mem_filterMap.1 hc
  obtain ⟨m, -, rfl⟩ := Option.map_eq_some_iff.1 hm
  exact Collaborators.plain_numbered

end BlockAgreement
