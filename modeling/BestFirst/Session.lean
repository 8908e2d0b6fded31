import BestFirst.Search

namespace BestFirst

variable {α γ κ : Type}

structure Catalogue (γ κ α : Type) where
  graph : γ → Graph α
  costs : κ → Costs α

-- How far a session has come. A search that is going on is not seen from outside.
inductive Session.Stage
  | idle
  | running
  | found
  | exhausted
  deriving DecidableEq

structure Session (γ κ α : Type) where
  graph  : Option γ := none
  source : Option String := none
  target : Option String := none
  -- Where none were set, the standard costs hold.
  costs  : Option κ := none
  stage  : Session.Stage := .idle
  path?  : Option (Path α) := none
  stats  : Stats := {}

def Report.stage : Report α → Session.Stage
  | ⟨.found _, _, _⟩   => .found
  | ⟨.exhausted, _, _⟩ => .exhausted

def Report.path? : Report α → Option (Path α)
  | ⟨.found path, _, _⟩ => some path
  | ⟨.exhausted, _, _⟩  => none

namespace Session

def noPathFound (s : Session γ κ α) : Bool :=
  s.stage = .exhausted

def clear (s : Session γ κ α) : Session γ κ α :=
  { s with stage := .idle, path? := none, stats := {} }

def bind (s : Session γ κ α) (g : γ) : Session γ κ α :=
  { s.clear with graph := some g }

def setSource (s : Session γ κ α) (id : String) : Session γ κ α :=
  { s.clear with source := some id }

def setTarget (s : Session γ κ α) (id : String) : Session γ κ α :=
  { s.clear with target := some id }

def onGraph (g : γ) : Session γ κ α :=
  bind {} g

def between (g : γ) (source target : String) : Session γ κ α :=
  ((onGraph g).setSource source).setTarget target

def setCosts (s : Session γ κ α) : Option κ → Except Failure (Session γ κ α)
  | some k => .ok { s with costs := some k }
  | none   => .error .noCosts

def costsIn [Zero α] [One α] (c : Catalogue γ κ α) (s : Session γ κ α) : Costs α :=
  s.costs.elim .standard c.costs

section Computing

variable [Zero α] [One α] [Add α] [LE α] [DecidableLE α]

def answer (c : Catalogue γ κ α) (s : Session γ κ α) (source target : String) :
    Except Failure (Report α) := do
  match s.graph with
  | none   => throw .noGraph
  | some g =>
    let graph := c.graph g
    let source ← graph.resolve .source source
    let target ← graph.resolve .target target
    (Problem.search { graph, costs := s.costsIn c, source, target }).mapError (·.failure)

def adopt (s : Session γ κ α) (report : Report α) : Session γ κ α :=
  { s with stage := report.stage, path? := report.path?, stats := report.stats }

-- Nothing happens as long as an end is missing. A search that fails leaves no outcome.
def compute (c : Catalogue γ κ α) (s : Session γ κ α) : Except Failure Unit × Session γ κ α :=
  match s.source, s.target with
  | some source, some target =>
    let s := s.clear
    match s.answer c source target with
    | .ok report   => (.ok (), s.adopt report)
    | .error cause => (.error cause, s)
  | _, _ => (.ok (), s)

def computeBetween (c : Catalogue γ κ α) (s : Session γ κ α) (source target : String) :
    Except Failure Unit × Session γ κ α :=
  ((s.setSource source).setTarget target).compute c

inductive Step (γ κ : Type)
  | new
  | onGraph (g : γ)
  | between (g : γ) (source target : String)
  | bind (g : γ)
  | setSource (id : String)
  | setTarget (id : String)
  | setCosts (k : Option κ)
  | compute
  | computeBetween (source target : String)

def apply (c : Catalogue γ κ α) (s : Session γ κ α) :
    Step γ κ → Except Failure Unit × Session γ κ α
  | .new                          => (.ok (), {})
  | .onGraph g                    => (.ok (), onGraph g)
  | .between g source target      => (.ok (), between g source target)
  | .bind g                       => (.ok (), s.bind g)
  | .setSource id                 => (.ok (), s.setSource id)
  | .setTarget id                 => (.ok (), s.setTarget id)
  | .setCosts k?                  =>
    match s.setCosts k? with
    | .ok s        => (.ok (), s)
    | .error cause => (.error cause, s)
  | .compute                      => s.compute c
  | .computeBetween source target => s.computeBetween c source target

end Computing
end Session
end BestFirst
