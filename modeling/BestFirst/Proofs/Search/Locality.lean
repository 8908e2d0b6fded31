import BestFirst.Proofs.Search.Reachability

namespace BestFirst

variable {α : Type}

namespace Graph

structure SameNode (g g' : Graph α) (u : NodeIndex) : Prop where
  nodeId      : g'.nodeId u = g.nodeId u
  nodeNumber? : g'.nodeNumber? u = g.nodeNumber? u
  nodeVector  : g'.nodeVector u = g.nodeVector u

structure SameEdge (g g' : Graph α) (e : EdgeIndex) : Prop where
  endpoints   : g'.endpoints e = g.endpoints e
  edgeNumber? : g'.edgeNumber? e = g.edgeNumber? e

structure Alike (g g' : Graph α) (u : NodeIndex) : Prop where
  node {v}         : g.Reachable u v → g.SameNode g' v
  leavingEdges {v} : g.Reachable u v → g'.leavingEdges v = g.leavingEdges v
  edge {v e es}    : g.Reachable u v → g.leavingEdges v = .ok es → e ∈ es → g.SameEdge g' e

variable {g g' : Graph α} {u v w : NodeIndex} {e : EdgeIndex}

theorem SameEdge.opposite? (h : g.SameEdge g' e) : g'.opposite? e u = g.opposite? e u := by
  rw [Graph.opposite?, Graph.opposite?, h.endpoints]

theorem Alike.hop (h : g.Alike g' u) (hv : g.Reachable u v) (hop : g.Hop v e w) : g.SameEdge g' e :=
  have ⟨_, hl, he⟩ := hop.leaves
  h.edge hv hl he

section Position

variable [Zero α]

theorem SameNode.position (h : g.SameNode g' u) : g'.position u = g.position u := by
  simp only [Graph.position, h.nodeId, h.nodeNumber?, h.nodeVector]

theorem Alike.edgeLength [Add α] [Sub α] [Mul α] [Scalar α] (h : g.Alike g' u) (hv : g.Reachable u v)
    (hop : g.Hop v e w) : g'.edgeLength e = g.edgeLength e := by
  have hw : g.Reachable u w := hv.tail ⟨e, hop⟩
  have ⟨a, b, he, hab⟩ := hop.ends
  simp only [Graph.edgeLength, (h.hop hv hop).endpoints, he, Except.ok_bind]
  obtain ⟨rfl, rfl⟩ | ⟨rfl, rfl⟩ := hab
  all_goals rw [(h.node hv).position, (h.node hw).position]

end Position
end Graph

namespace Problem

-- `q` is the same problem as `p`, as far as a search gets to see it.
structure Agrees (p q : Problem α) : Prop where
  source          : q.source = p.source
  target          : q.target = p.target
  graph           : p.graph.Alike q.graph p.source
  targetId        : q.graph.nodeId p.target = p.graph.nodeId p.target
  heuristic {u}   : p.graph.Reachable p.source u →
    q.costs.heuristic q.graph u p.target = p.costs.heuristic p.graph u p.target
  cost {u e v}    : p.graph.Reachable p.source u → p.graph.Hop u e v →
    q.costs.cost q.graph u e v = p.costs.cost p.graph u e v

section Costs

variable [Zero α] {g g' : Graph α} {source target : NodeIndex}

theorem agrees_weighted {key : String} {default : α} (h : g.Alike g' source)
    (ht : g.SameNode g' target) :
    Agrees ⟨g, .weighted key default, source, target⟩ ⟨g', .weighted key default, source, target⟩ where
  source         := rfl
  target         := rfl
  graph          := h
  targetId       := ht.nodeId
  heuristic _    := rfl
  cost hu hop    := by simp only [Costs.weighted, (h.hop hu hop).edgeNumber?]

theorem agrees_straightLine [Add α] [Sub α] [Mul α] [Scalar α] (h : g.Alike g' source)
    (ht : g.SameNode g' target) :
    Agrees ⟨g, .straightLine, source, target⟩ ⟨g', .straightLine, source, target⟩ where
  source         := rfl
  target         := rfl
  graph          := h
  targetId       := ht.nodeId
  heuristic hu   := by simp only [Costs.straightLine, (h.node hu).position, ht.position]
  cost hu hop    := h.edgeLength hu hop

end Costs

variable [Add α] [LE α] [DecidableLE α] {p q : Problem α} {s : State α} {i n : Nat}
  {r : Record α} {e : EdgeIndex} {es done rest : List EdgeIndex} {xs : List (Nat × Record α)}

theorem turn_eq_expand (hb : s.store.best.1 = some (i, r)) (hn : r.node ≠ p.target) :
    p.turn s = .next <$> p.expand { s with store := s.store.best.2 } i r := by
  have hb : s.store.best = (some (i, r), s.store.best.2) := Prod.ext hb rfl
  rw [turn, hb]
  exact if_neg hn

namespace Agrees

variable [Zero α] (h : p.Agrees q)
include h

theorem start : q.start = p.start := by
  simp only [Problem.start, Problem.heuristic, h.source, h.target, h.heuristic .refl,
    (h.graph.node .refl).nodeId, h.targetId]

theorem relax (hv : p.Visits (.relaxing xs i r done (e :: rest)) s) :
    q.relax i r s e = p.relax i r s e := by
  have ⟨hr, _, hl⟩ := hv.relaxing
  have hu : p.graph.Reachable p.source r.node := hv.reachable hr
  have he : p.graph.SameEdge q.graph e := h.graph.edge hu hl (by simp)
  simp only [Problem.relax, he.opposite?]
  cases ho : p.graph.opposite? e r.node
  case error => rfl
  case ok v? =>
    cases v?
    case none => rfl
    case some v =>
      have hop : p.graph.Hop r.node e v := hv.hop ho
      simp only [State.attempt_ok, Except.ok_bind, Problem.heuristic, Problem.cost, h.target,
        h.heuristic (hu.tail ⟨e, hop⟩), h.cost hu hop]

theorem relax_all (hv : p.Visits (.relaxing xs i r done es) s) :
    es.foldlM (q.relax i r) s = es.foldlM (p.relax i r) s := by
  induction es generalizing s done
  case nil => rfl
  case cons e es ih =>
    rw [List.foldlM_cons, List.foldlM_cons, h.relax hv]
    exact Except.bind_congr fun s' hs => ih (hv.relax (relax_eq_ok_iff.mp hs))

theorem turn (hv : p.Visits (.choosing xs) s) : q.turn s = p.turn s := by
  cases hb : s.store.best.1
  case none => rw [turn_eq_exhausted hb, turn_eq_exhausted hb]
  case some x =>
    have ⟨i, r⟩ := x
    by_cases hn : r.node = p.target
    case pos => rw [turn_eq_found hb hn, turn_eq_found hb (hn.trans h.target.symm)]
    case neg =>
      have hu : p.graph.Reachable p.source r.node := hv.reachable (Store.isOpen_of_best hb).record
      rw [turn_eq_expand hb hn, turn_eq_expand hb (h.target ▸ hn)]
      simp only [expand, (h.graph.node hu).nodeId, h.graph.leavingEdges hu]
      cases hc : s.store.best.2.close i
      case error => rfl
      case ok store =>
        cases hl : p.graph.leavingEdges r.node
        case error => rfl
        case ok es =>
          simp only [State.attempt_ok, Except.ok_bind, h.relax_all (hv.close hb hn hc hl)]

theorem run (hv : p.Visits (.choosing xs) s) : q.run n s = p.run n s := by
  induction n generalizing s xs
  case zero => rfl
  case succ n ih =>
    simp only [Problem.run, h.turn hv]
    cases ht : p.turn s
    case error => rfl
    case ok t =>
      cases t
      case ended  => rfl
      case next s' =>
        obtain ⟨_, _, _, hv'⟩ := hv.turn ht
        exact ih hv'

theorem search : q.search = p.search := by
  rw [Problem.search, Problem.search, h.start]
  exact Except.bind_congr fun s hs => by rw [h.run (.start hs)]

end Agrees
end Problem
end BestFirst
