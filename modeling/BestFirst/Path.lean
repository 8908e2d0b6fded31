import BestFirst.Graph
import BestFirst.Store.Basic

namespace BestFirst

variable {α : Type}

structure Path (α : Type) where
  nodes : List NodeIndex
  edges : List EdgeIndex
  cost  : α
  deriving BEq

namespace Path

def size (p : Path α) : Nat :=
  p.nodes.length

def isEmpty (p : Path α) : Bool :=
  p.nodes.isEmpty

def source? (p : Path α) : Option NodeIndex :=
  p.nodes.head?

def target? (p : Path α) : Option NodeIndex :=
  p.nodes.getLast?

def containsNode (p : Path α) (u : NodeIndex) : Bool :=
  p.nodes.contains u

def containsEdge (p : Path α) (e : EdgeIndex) : Bool :=
  p.edges.contains e

def weight [Zero α] [Add α] (g : Graph α) (p : Path α) (key : String) (default : α) :
    Except Failure α :=
  p.edges.foldlM (fun total e => return total + (← g.edgeNumber? e key).getD default) 0

def nodeIds (g : Graph α) (p : Path α) : Except Failure (List String) :=
  p.nodes.mapM g.nodeId

def ofChain (chain : List (Record α)) (cost : α) : Path α where
  nodes := (chain.map (·.node)).reverse
  edges := (chain.filterMap (·.via)).reverse
  cost  := cost

end Path

def Store.path? (s : Store α) (i : Nat) : Option (Path α) :=
  (s.record? i).map fun r => .ofChain (s.arena.chain i) r.g

end BestFirst
