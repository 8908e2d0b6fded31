import BestFirst.Costs
import BestFirst.Path

namespace BestFirst

variable {α β : Type}

structure Stats where
  expansions  : Nat := 0
  relaxations : Nat := 0
  reopenings  : Nat := 0
  maxOpen     : Nat := 0
  deriving DecidableEq

inductive Question
  | heuristic (node target : NodeIndex)
  | cost (parent : NodeIndex) (edge : EdgeIndex) (next : NodeIndex)
  deriving DecidableEq

inductive Verdict (α : Type)
  | found (path : Path α)
  | exhausted

structure Report (α : Type) where
  verdict : Verdict α
  stats   : Stats
  asked   : Array Question

-- What went wrong, and what had been asked by then.
structure Fault where
  failure : Failure
  asked   : Array Question
  deriving DecidableEq

structure Problem (α : Type) where
  graph  : Graph α
  costs  : Costs α
  source : NodeIndex
  target : NodeIndex

structure State (α : Type) where
  store : Store α := {}
  stats : Stats := {}
  asked : Array Question := #[]

namespace State

def ask (s : State α) (q : Question) : State α :=
  { s with asked := s.asked.push q }

-- An answer from outside, which is a fault of the search if it is a failure.
def attempt (s : State α) (x : Except Failure β) : Except Fault β :=
  x.mapError (⟨·, s.asked⟩)

variable [Add α] [LE α] [DecidableLE α]

def covers (s : State α) (node : NodeIndex) (rank : α) : Bool :=
  holds (s.store.openAt? node) || holds (s.store.closedAt? node)
where
  holds (i? : Option Nat) : Bool := (i?.bind s.store.record?).any (·.rank ≤ rank)

def offer (s : State α) (parent : Nat) (node : NodeIndex) (edge : EdgeIndex) (g h : α) :
    Except Failure (State α) :=
  if s.covers node (g + h) then
    .ok s
  else do
    let reopened := if (s.store.closedAt? node).isSome then 1 else 0
    let store ← s.store.openFrom parent node (asEdge edge) g h
    return { s with
      store
      stats.reopenings := s.stats.reopenings + reopened
      stats.maxOpen    := max s.stats.maxOpen store.opened.size }

end State

inductive Turn (α : Type)
  | ended (report : Report α)
  | next (state : State α)

namespace Problem

def heuristic (p : Problem α) (s : State α) (node : NodeIndex) : Except Fault (α × State α) := do
  let s := s.ask (.heuristic node p.target)
  return (← s.attempt (p.costs.heuristic p.graph node p.target), s)

def cost (p : Problem α) (s : State α) (parent : NodeIndex) (edge : EdgeIndex) (next : NodeIndex) :
    Except Fault (α × State α) := do
  let s := s.ask (.cost parent edge next)
  return (← s.attempt (p.costs.cost p.graph parent edge next), s)

variable [Add α] [LE α] [DecidableLE α]

-- The source is estimated and opened before either end is checked to be in the graph.
def start [Zero α] (p : Problem α) : Except Fault (State α) := do
  let (h, s) ← p.heuristic {} p.source
  let _ ← s.attempt (p.graph.nodeId p.source)
  let _ ← s.attempt (p.graph.nodeId p.target)
  return { s with store := s.store.openRoot p.source h, stats.maxOpen := 1 }

-- Edge `e` out of the node of record `i`. An edge that does not touch the node is passed over.
def relax (p : Problem α) (i : Nat) (r : Record α) (s : State α) (e : EdgeIndex) :
    Except Fault (State α) := do
  match ← s.attempt (p.graph.opposite? e r.node) with
  | none      => return s
  | some next =>
    let s := { s with stats.relaxations := s.stats.relaxations + 1 }
    let (h, s) ← p.heuristic s next
    let (c, s) ← p.cost s r.node e next
    s.attempt (s.offer i next e (r.g + c) h)

def expand (p : Problem α) (s : State α) (i : Nat) (r : Record α) : Except Fault (State α) := do
  let store ← s.attempt (s.store.close i)
  let s := { s with store, stats.expansions := s.stats.expansions + 1 }
  let _ ← s.attempt (p.graph.nodeId r.node)
  let edges ← s.attempt (p.graph.leavingEdges r.node)
  edges.foldlM (p.relax i r) s

def turn (p : Problem α) (s : State α) : Except Fault (Turn α) :=
  match s.store.best with
  | (none, _)          => return .ended ⟨.exhausted, s.stats, s.asked⟩
  | (some (i, r), store) =>
    if r.node = p.target then
      return .ended ⟨.found (.ofChain (store.arena.chain i) r.g), s.stats, s.asked⟩
    else
      .next <$> p.expand { s with store } i r

def run (p : Problem α) : (fuel : Nat) → State α → Option (Except Fault (Report α))
  | 0,        _ => none
  | fuel + 1, s =>
    match p.turn s with
    | .error fault        => some (.error fault)
    | .ok (.ended report) => some (.ok report)
    | .ok (.next s)       => p.run fuel s

-- Every turn but the last closes a record, and no record is closed twice. A search that is still
-- going on after this many turns has made more records than 31 bits can number.
def turnLimit : Nat := 0x80000000

def search [Zero α] (p : Problem α) : Except Fault (Report α) := do
  let s ← p.start
  match p.run turnLimit s with
  | some answer => answer
  | none        => throw ⟨.unfinished, #[]⟩

end Problem
end BestFirst
