import BestFirst.Position

namespace BestFirst

variable {α : Type}

structure Costs (α : Type) where
  heuristic : (g : Graph α) → (node target : NodeIndex) → Except Failure α
  cost      : (g : Graph α) → (parent : NodeIndex) → (edge : EdgeIndex) → (next : NodeIndex) →
    Except Failure α

namespace Costs

def weighted [Zero α] (key : String) (default : α) : Costs α where
  heuristic _ _ _ := return 0
  cost g _ edge _ := (·.getD default) <$> g.edgeNumber? edge key

def standard [Zero α] [One α] : Costs α :=
  weighted "weight" 1

def straightLine [Zero α] [Add α] [Sub α] [Mul α] [Scalar α] : Costs α where
  heuristic g node target := return (← g.position node).distance (← g.position target)
  cost g _ edge _         := g.edgeLength edge

end Costs
end BestFirst
