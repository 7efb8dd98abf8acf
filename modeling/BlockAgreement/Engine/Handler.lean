import BlockAgreement.Message.Frame

/-! Handlers of a state machine. A handler changes a state, asks things of the outside, and may
fail; one that fails keeps the changes it made and what it asked for until then. -/

namespace BlockAgreement

/-- What a node asks of the outside, with the answer where there is one. -/
inductive Effect
  | multicast (m : Message)
  | startTimer (round : RoundId) (milliseconds : UInt64)
  | cancelTimer (round : RoundId)
  /-- A block was asked for, and made or not. -/
  | requestBlock (round : RoundId) (answer : Option Block)
  /-- A decided block was handed over with its seals, and taken or not. -/
  | deliverBlock (block : Block) (seals : List Signature) (accepted : Bool)
deriving DecidableEq

@[ext] structure Outcome (σ α : Type) where
  result : Except Error α
  state : σ
  effects : List Effect

def Handler (σ α : Type) : Type := σ → Outcome σ α

namespace Handler

variable {σ τ α β : Type}

def pure (a : α) : Handler σ α := fun s => ⟨.ok a, s, []⟩

/-- What the first part asked for comes before what the second part asks for. -/
def bind (h : Handler σ α) (f : α → Handler σ β) : Handler σ β := fun s =>
  let o := h s
  match o.result with
  | .ok a =>
    let p := f a o.state
    { p with effects := o.effects ++ p.effects }
  | .error e => ⟨.error e, o.state, o.effects⟩

instance : Monad (Handler σ) where
  pure := Handler.pure
  bind := Handler.bind

@[simp] theorem pure_bind (a : α) (f : α → Handler σ β) : bind (pure a) f = f a := rfl

@[simp] theorem bind_pure (h : Handler σ α) : bind h pure = h := by
  funext s
  simp only [bind]
  split
  · next a ha => ext <;> simp [pure, ha]
  · next e he => ext <;> simp [he]

/-- Parts may be grouped in any way, also where one of them fails. -/
theorem bind_assoc {γ : Type} (h : Handler σ α) (f : α → Handler σ β) (g : β → Handler σ γ) :
    bind (bind h f) g = bind h fun a => bind (f a) g := by
  funext s
  simp only [bind]
  cases (h s).result with
  | error e => rfl
  | ok a =>
    simp only
    cases (f a (h s).state).result with
    | error e => rfl
    | ok b => simp [List.append_assoc]

instance : LawfulMonad (Handler σ) := .mk' _ bind_pure pure_bind bind_assoc

instance : MonadStateOf σ (Handler σ) where
  get s := ⟨.ok s, s, []⟩
  set s _ := ⟨.ok (), s, []⟩
  modifyGet f s := let (a, t) := f s; ⟨.ok a, t, []⟩

def ask (e : Effect) : Handler σ Unit := fun s => ⟨.ok (), s, [e]⟩

def multicast (m : Message) : Handler σ Unit := ask (.multicast m)

/-- The value of a computation without a state, or its failure. -/
def ofExcept (r : Except Error α) : Handler σ α := fun s => ⟨r, s, []⟩

/-- Runs a handler on a part of the state. -/
def focus (get : σ → τ) (set : τ → σ → σ) (h : Handler τ α) : Handler σ α := fun s =>
  let o := h (get s)
  ⟨o.result, set o.state s, o.effects⟩

/-- Runs a handler on a state beside the own one, and returns what becomes of it. -/
def on (t : τ) (h : Handler τ Unit) : Handler σ τ := fun s =>
  let o := h t
  ⟨o.result.map fun _ => o.state, s, o.effects⟩

/-- Stops failures of the kind `ok` from going any further. -/
def absorb (ok : Error → Bool) (h : Handler σ Unit) : Handler σ Unit := fun s =>
  let o := h s
  match o.result with
  | .error e => if ok e then { o with result := .ok () } else o
  | .ok () => o

end Handler

end BlockAgreement
