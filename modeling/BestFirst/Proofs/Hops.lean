import BestFirst.Costs
import BestFirst.Network.Basic

namespace Except

variable {ε ε' α β : Type} {x : Except ε α} {a : α} {b : β} {e : ε}

@[simp]
theorem ok_bind {f : α → Except ε β} : .ok a >>= f = f a := rfl

theorem bind_eq_ok_iff {f : α → Except ε β} : x >>= f = .ok b ↔ ∃ a, x = .ok a ∧ f a = .ok b := by
  cases x <;> simp [bind, Except.bind]

theorem map_eq_ok_iff {f : α → β} : f <$> x = .ok b ↔ ∃ a, x = .ok a ∧ f a = b := by
  cases x <;> simp [Functor.map, Except.map]

theorem bind_eq_error_iff {f : α → Except ε β} :
    x >>= f = .error e ↔ x = .error e ∨ ∃ a, x = .ok a ∧ f a = .error e := by
  cases x <;> simp [bind, Except.bind]

theorem map_eq_error_iff {f : α → β} : f <$> x = .error e ↔ x = .error e := by
  cases x <;> simp [Functor.map, Except.map]

theorem bind_congr {f f' : α → Except ε β} (h : ∀ a, x = .ok a → f a = f' a) :
    x >>= f = x >>= f' := by
  cases x
  case error => rfl
  case ok a  => exact h a rfl

theorem map_congr {f f' : α → β} (h : ∀ a, x = .ok a → f a = f' a) : f <$> x = f' <$> x := by
  cases x
  case error => rfl
  case ok a  => exact congrArg ok (h a rfl)

theorem mapError_eq_ok_iff {f : ε → ε'} : x.mapError f = .ok a ↔ x = .ok a := by
  cases x
  case error => exact ⟨nofun, nofun⟩
  case ok    => exact ⟨fun h => congrArg _ (ok.inj h), fun h => congrArg _ (ok.inj h)⟩

theorem mapError_eq_error_iff {f : ε → ε'} {e' : ε'} :
    x.mapError f = .error e' ↔ ∃ e, x = .error e ∧ f e = e' := by
  cases x
  case error e =>
    constructor
    case mp  => exact fun h => ⟨e, rfl, error.inj h⟩
    case mpr => exact fun ⟨_, he, hf⟩ => congrArg error (error.inj he ▸ hf)
  case ok => exact ⟨nofun, nofun⟩

end Except

namespace BestFirst

variable {α : Type} {u v : NodeIndex} {e : EdgeIndex}

structure Graph.Hop (g : Graph α) (u : NodeIndex) (e : EdgeIndex) (v : NodeIndex) : Prop where
  leaves   : ∃ es, g.leavingEdges u = .ok es ∧ e ∈ es
  opposite : g.opposite? e u = .ok (some v)

-- No hop goes along an edge whose index stands for no edge.
def Graph.Numbered (g : Graph α) : Prop :=
  ∀ {u e v}, g.Hop u e v → e ≠ noEdge

theorem Graph.Hop.ends {g : Graph α} (h : g.Hop u e v) :
    ∃ a b, g.endpoints e = .ok (a, b) ∧ (u = a ∧ v = b ∨ u = b ∧ v = a) := by
  have ho := h.opposite
  simp only [opposite?, Except.bind_eq_ok_iff] at ho
  have ⟨⟨a, b⟩, he, ho⟩ := ho
  have ho := Except.ok.inj ho
  exact ⟨a, b, he, by grind⟩

namespace Draft

variable {d : Draft α} {node : Node α} {edge : Edge α}

theorem toNat?_bind_eq_some_iff {β : Type} {xs : Array β} {i : Int} {x : β} :
    i.toNat?.bind (xs[·]?) = some x ↔ ∃ k : Nat, i = k ∧ xs[k]? = some x := by
  simp only [Option.bind_eq_some_iff, Int.mem_toNat?]

theorem nodeAt_eq_ok_iff : d.nodeAt u = .ok node ↔ ∃ k : Nat, u = k ∧ d.nodes[k]? = some node := by
  rw [← toNat?_bind_eq_some_iff, nodeAt]
  cases u.toNat?.bind (d.nodes[·]?) <;> simp

theorem edgeAt_eq_ok_iff : d.edgeAt e = .ok edge ↔ ∃ k : Nat, e = k ∧ d.edges[k]? = some edge := by
  rw [← toNat?_bind_eq_some_iff, edgeAt]
  cases e.toNat?.bind (d.edges[·]?) <;> simp

theorem mem_of_edgeAt (h : d.edgeAt e = .ok edge) : edge ∈ d.edges := by
  have ⟨_, _, hk⟩ := edgeAt_eq_ok_iff.mp h
  exact Array.mem_of_getElem? hk

end Draft

namespace Network

variable {g : Network α}

theorem edge_of_hop (h : g.toGraph.Hop u e v) :
    ∃ edge ∈ g.edges, g.edgeAt e = .ok edge ∧
      (u = edge.source ∧ v = edge.target ∨ u = edge.target ∧ v = edge.source) := by
  have ⟨_, _, he, hu⟩ := h.ends
  obtain ⟨edge, hf, ⟨⟩⟩ := Except.map_eq_ok_iff.mp he
  exact ⟨edge, Draft.mem_of_edgeAt hf, hf, hu⟩

theorem numbered (g : Network α) : g.toGraph.Numbered := by
  intro u e v h
  have ⟨_, _, he, _⟩ := edge_of_hop h
  obtain ⟨k, rfl, _⟩ := Draft.edgeAt_eq_ok_iff.mp he
  show (k : Int) ≠ -1
  omega

theorem weighted_hop [Zero α] {key : String} {default c : α} (h : g.toGraph.Hop u e v)
    (hc : (Costs.weighted key default).cost g.toGraph u e v = .ok c) :
    ∃ edge ∈ g.edges, c = edge.numbers[key]?.getD default ∧
      (u = edge.source ∧ v = edge.target ∨ u = edge.target ∧ v = edge.source) := by
  have ⟨edge, hm, he, hu⟩ := edge_of_hop h
  simp only [Costs.weighted, toGraph, he, Except.map_eq_ok_iff, Except.ok.injEq] at hc
  obtain ⟨_, ⟨_, rfl, rfl⟩, rfl⟩ := hc
  exact ⟨edge, hm, rfl, hu⟩

end Network
end BestFirst
