import BestFirst.Network.Basic
import BestFirst.Scalar

namespace BestFirst

variable {α : Type}

namespace Draft

inductive Step (α : Type)
  | addNode (id : String)
  | addEdge (id source target : String) (directed : Bool)
  | setNodeNumber (node key : String) (value : α)
  | setNodeVector (node key : String) (values : List α)
  | setEdgeNumber (edge key : String) (value : α)

def Step.call : Step α → BuilderCall
  | addNode ..       => .addNode
  | addEdge ..       => .addEdge
  | setNodeNumber .. => .setNodeNumber
  | setNodeVector .. => .setNodeVector
  | setEdgeNumber .. => .setEdgeNumber

def knownNode (d : Draft α) (id : String) : Except Refusal Nat :=
  match d.nodeIndex[id]? with
  | some u => .ok u
  | none   => .error (.unknownNode id)

def knownEdge (d : Draft α) (id : String) : Except Refusal Nat :=
  match d.edgeIndex[id]? with
  | some e => .ok e
  | none   => .error (.unknownEdge id)

def addNode (d : Draft α) (id : String) : Except Refusal (Nat × Draft α) :=
  if id ∈ d.nodeIndex then
    .error (.duplicateNode id)
  else
    let u := d.nodes.size
    .ok (u, { d with nodes := d.nodes.push { id }, nodeIndex := d.nodeIndex.insert id u })

def addEdge (d : Draft α) (id source target : String) (directed : Bool) :
    Except Refusal (Nat × Draft α) :=
  if id ∈ d.edgeIndex then
    .error (.duplicateEdge id)
  else do
    let source ← d.knownNode source
    let target ← d.knownNode target
    let e := d.edges.size
    return (e, { d with
      edges     := d.edges.push { id, source, target, directed }
      edgeIndex := d.edgeIndex.insert id e })

section Attributes

variable [Scalar α]

-- Values are looked at before names.
def checkFinite (key : String) (values : List α) : Except Refusal Unit :=
  if values.all Scalar.isFinite then .ok () else .error (.notFinite key)

def setNodeNumber (d : Draft α) (node key : String) (value : α) : Except Refusal (Draft α) := do
  checkFinite key [value]
  let u ← d.knownNode node
  return { d with
    nodes := d.nodes.modify u fun node => { node with numbers := node.numbers.insert key value } }

def setNodeVector (d : Draft α) (node key : String) (values : List α) :
    Except Refusal (Draft α) := do
  checkFinite key values
  let u ← d.knownNode node
  return { d with
    nodes := d.nodes.modify u fun node => { node with vectors := node.vectors.insert key values } }

def setEdgeNumber (d : Draft α) (edge key : String) (value : α) : Except Refusal (Draft α) := do
  checkFinite key [value]
  let e ← d.knownEdge edge
  return { d with
    edges := d.edges.modify e fun edge => { edge with numbers := edge.numbers.insert key value } }

def apply (d : Draft α) : Step α → Except Refusal (Option Nat × Draft α)
  | .addNode id                          => (fun (u, d) => (some u, d)) <$> d.addNode id
  | .addEdge id source target directed   =>
    (fun (e, d) => (some e, d)) <$> d.addEdge id source target directed
  | .setNodeNumber node key value        => (none, ·) <$> d.setNodeNumber node key value
  | .setNodeVector node key values       => (none, ·) <$> d.setNodeVector node key values
  | .setEdgeNumber edge key value        => (none, ·) <$> d.setEdgeNumber edge key value

end Attributes
end Draft

inductive Builder (α : Type)
  | collecting (draft : Draft α)
  | consumed

namespace Builder

def new : Builder α := collecting {}

def build : Builder α → Except Failure (Network α × Builder α)
  | collecting d => .ok (.ofDraft d, consumed)
  | consumed     => .error (.refused .build .consumed)

variable [Scalar α]

def apply (b : Builder α) (step : Draft.Step α) : Except Failure (Option Nat × Builder α) :=
  match b with
  | consumed     => .error (.refused step.call .consumed)
  | collecting d =>
    match d.apply step with
    | .ok (index?, d) => .ok (index?, collecting d)
    | .error cause    => .error (.refused step.call cause)

end Builder

-- A builder in use, and the network that it gave out last.
structure Workshop (α : Type) where
  builder  : Builder α := .new
  network? : Option (Network α) := none

namespace Workshop

inductive Request (α : Type)
  | step (step : Draft.Step α)
  | build

def Request.call : Request α → BuilderCall
  | .step s => s.call
  | .build  => .build

variable [Scalar α]

def handle (w : Workshop α) : Request α → Except Failure (Option Nat) × Workshop α
  | .step step =>
    match w.builder.apply step with
    | .ok (index?, b) => (.ok index?, { w with builder := b })
    | .error failure  => (.error failure, w)
  | .build =>
    match w.builder.build with
    | .ok (g, b)     => (.ok none, { builder := b, network? := some g })
    | .error failure => (.error failure, w)

def after (w : Workshop α) (requests : List (Request α)) : Workshop α :=
  requests.foldl (fun w request => (w.handle request).2) w

end Workshop

def Network.ofSteps [Scalar α] (steps : List (Draft.Step α)) :
    Except Failure (Network α) := do
  let b ← steps.foldlM (fun b step => (·.2) <$> Builder.apply b step) Builder.new
  return (← b.build).1

end BestFirst
