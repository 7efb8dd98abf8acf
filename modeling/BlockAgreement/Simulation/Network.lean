import BlockAgreement.Simulation.Station

/-! Nodes that hear each other only when messages are delivered. A delivery collects what every
node has sent, in the order of the nodes, and takes each message as a frame to each receiver but
the sender; what is not delivered then is lost. -/

namespace BlockAgreement.Simulation

structure Network where
  nodes : List (Setup × Station Node)

namespace Network

/-- Failures, each with the number of the node. -/
abbrev Failures := List (Nat × Error)

def update (N : Network) (i : Nat) (s : Station Node) : Network :=
  ⟨N.nodes.modify i fun n => (n.1, s)⟩

/-- Runs a handler on one node. -/
def run (N : Network) (i : Nat) (h : Setup → Collaborators → Handler Node Unit) :
    Failures × Network :=
  match N.nodes[i]? with
  | none => ([], N)
  | some (E, s) =>
    let (r, s) := s.run (h E)
    (match r with
      | .ok () => []
      | .error e => [(i, e)], N.update i s)

/-- Runs one step after another, each on the network that the one before left. -/
def steps {α : Type} (N : Network) (f : Network → α → Failures × Network) (xs : List α) :
    Failures × Network :=
  xs.foldl (fun (errors, N) x =>
    let (more, N) := f N x
    (errors ++ more, N)) ([], N)

/-- Gives a decoded frame to a node, or notes why it is none. -/
def receive (m : Except Error Message) (N : Network) (i : Nat) : Failures × Network :=
  match m with
  | .ok m => N.run i fun E ext => Node.handle E ext (.message m)
  | .error e => ([(i, e)], N)

/-- All messages that wait for delivery, with their senders. -/
def pending (N : Network) : List (Nat × Scheme × Message) :=
  (N.nodes.zipIdx.map fun ((E, s), i) => s.record.sent.map fun m => (i, E.scheme, m)).flatten

def deliver (sources receivers : List Nat) (kinds : List Kind) (N : Network) : Failures × Network :=
  let chosen := N.pending.filter fun (i, _, m) => sources.contains i && kinds.contains m.kind
  let N : Network := ⟨N.nodes.map fun (E, s) => (E, s.collect)⟩
  N.steps (fun N (sender, S, m) =>
    let frame := Message.decodeAuthenticated S (m.encode S)
    N.steps (receive frame) (receivers.filter (· ≠ sender))) chosen

/-- The timer of the node's current round runs out. -/
def expire (N : Network) (i : Nat) : Failures × Network :=
  match N.nodes[i]?.bind fun n => n.2.state.current with
  | none => ([], N)
  | some running => N.run i fun E ext => Node.handle E ext (.roundExpiry running.round.id)

def adjust (N : Network) (i : Nat) (f : Bench → Bench) : Network :=
  ⟨N.nodes.modify i fun n => (n.1, { n.2 with bench := f n.2.bench })⟩

def look (N : Network) : Network := ⟨N.nodes.map fun n => (n.1, n.2.look)⟩

end Network

end BlockAgreement.Simulation
