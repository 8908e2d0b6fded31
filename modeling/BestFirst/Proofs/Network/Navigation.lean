import BestFirst.Proofs.Network.Adjacency
import BestFirst.Proofs.Search.Progress

namespace BestFirst.Network

variable {α : Type} {d : Draft α} {u : Nat} {v w : NodeIndex} {e : EdgeIndex}

theorem exists_of_hop (hd : d.Valid) (h : (ofDraft d).toGraph.Hop v e w) :
    ∃ k : Nat, w = k ∧ k < d.nodes.size := by
  have ⟨edge, he, _, hu⟩ := edge_of_hop h
  have ⟨hs, ht⟩ := hd.ends he
  obtain ⟨-, rfl⟩ | ⟨-, rfl⟩ := hu
  · exact ⟨edge.target, rfl, ht⟩
  · exact ⟨edge.source, rfl, hs⟩

theorem exists_of_reachable (hd : d.Valid) (hu : u < d.nodes.size)
    (h : (ofDraft d).toGraph.Reachable u v) : ∃ k : Nat, v = k ∧ k < d.nodes.size := by
  cases h
  case refl => exact ⟨u, rfl, hu⟩
  case tail h =>
    have ⟨e, hop⟩ := h
    exact exists_of_hop hd hop

theorem exists_nodeAt (hu : u < d.nodes.size) : ∃ node, (ofDraft d).nodeAt u = .ok node :=
  ⟨_, Draft.nodeAt_eq_ok_iff.mpr ⟨u, rfl, Array.getElem?_eq_getElem hu⟩⟩

theorem exists_nodeId (hu : u < d.nodes.size) : ∃ id, (ofDraft d).toGraph.nodeId u = .ok id := by
  have ⟨node, hn⟩ := exists_nodeAt hu
  exact ⟨node.id, Except.map_eq_ok_iff.mpr ⟨node, hn, rfl⟩⟩

theorem navigable (hd : d.Valid) (hu : u < d.nodes.size) : (ofDraft d).toGraph.Navigable u where
  nodeId hv := by
    obtain ⟨k, rfl, hk⟩ := exists_of_reachable hd hu hv
    exact exists_nodeId hk
  leavingEdges hv := by
    obtain ⟨k, rfl, hk⟩ := exists_of_reachable hd hu hv
    have ⟨es, hl, _, hm⟩ := exists_leavingEdges hd hk
    refine ⟨es, hl, fun e he => ?_⟩
    have ⟨w, hw, _⟩ := ((hm e).mp he).opposite
    exact ⟨some w, hw⟩

theorem leaves_of_hop (hd : d.Valid) (h : (ofDraft d).toGraph.Hop v e w) :
    (ofDraft d).toGraph.Leaves v e := by
  have ⟨es, hl, he⟩ := h.leaves
  have ⟨_, hn, _⟩ := Except.bind_eq_ok_iff.mp hl
  have ⟨k, hv, hk⟩ := Draft.nodeAt_eq_ok_iff.mp hn
  have ⟨hlt, _⟩ := Array.getElem?_eq_some_iff.mp hk
  subst hv
  have ⟨_, hl', _, hm⟩ := exists_leavingEdges hd hlt
  cases hl.symm.trans hl'
  exact (hm e).mp he

-- Only along undirected edges one gets from the target to the source.
theorem directed_hop (hd : d.Valid) (h : (ofDraft d).toGraph.Hop v e w) :
    ∃ edge ∈ d.edges, d.edgeAt e = .ok edge ∧
      (v = edge.source ∧ w = edge.target ∨
        edge.directed = false ∧ v = edge.target ∧ w = edge.source) := by
  have ⟨edge, hm, he, hu⟩ := edge_of_hop h
  have hends : (ofDraft d).toGraph.endpoints e = .ok (edge.source, edge.target) :=
    Except.map_eq_ok_iff.mpr ⟨edge, he, rfl⟩
  have hdir : (ofDraft d).toGraph.isDirected e = .ok edge.directed :=
    Except.map_eq_ok_iff.mpr ⟨edge, he, rfl⟩
  have hv := (Graph.leaves_iff hends hdir).mp (leaves_of_hop hd h)
  exact ⟨edge, hm, he, by grind⟩

variable [Zero α] {g : Network α} {key : String} {default : α}

theorem weighted_cost {edge : Edge α} (v w : NodeIndex) (h : g.edgeAt e = .ok edge) :
    (Costs.weighted key default).cost g.toGraph v e w = .ok (edge.numbers[key]?.getD default) := by
  simp only [Costs.weighted, toGraph, h, Except.map_eq_ok_iff]
  exact ⟨_, ⟨edge, rfl, rfl⟩, rfl⟩

theorem exists_weighted_cost (h : g.toGraph.Hop v e w) :
    ∃ c, (Costs.weighted key default).cost g.toGraph v e w = .ok c := by
  have ⟨edge, _, he, _⟩ := edge_of_hop h
  exact ⟨_, weighted_cost v w he⟩

end BestFirst.Network
