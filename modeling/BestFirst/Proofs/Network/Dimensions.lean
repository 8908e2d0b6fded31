import BestFirst.Proofs.Network.Navigation
import BestFirst.Proofs.Search.Estimates
import BestFirst.Proofs.Search.StraightLine
import Mathlib

namespace BestFirst.Network

variable {g : Network ℝ} {d : Draft ℝ} {upright : Bool} {s u v : NodeIndex} {e : EdgeIndex} {t : Nat}
  {a b : Position ℝ} {steps : List (Draft.Step ℝ)}

def Placed (g : Network ℝ) (upright : Bool) : Prop :=
  ∀ u : Nat, u < g.nodes.size → ∃ a, g.toGraph.position u = .ok a ∧ a.is3D = upright

def Uniform (g : Network ℝ) : Prop :=
  ∃ upright, g.Placed upright

theorem straightLine_heuristic (ha : g.toGraph.position u = .ok a)
    (hb : g.toGraph.position v = .ok b) :
    Costs.straightLine.heuristic g.toGraph u v = .ok (a.distance b) :=
  Costs.straightLine_eq_ok_iff.mpr ⟨a, b, ha, hb, rfl⟩

theorem straightLine_cost (h : g.toGraph.Hop u e v) (ha : g.toGraph.position u = .ok a)
    (hb : g.toGraph.position v = .ok b) :
    Costs.straightLine.cost g.toGraph u e v = .ok (a.distance b) :=
  h.edgeLength_eq_ok_iff.mpr ⟨a, b, ha, hb, rfl⟩

theorem Placed.ends (hg : (ofDraft d).Placed upright) (hd : d.Valid)
    (h : (ofDraft d).toGraph.Hop u e v) :
    ∃ a b, (ofDraft d).toGraph.position u = .ok a ∧ (ofDraft d).toGraph.position v = .ok b ∧
      a.is3D = upright ∧ b.is3D = upright := by
  obtain ⟨k, rfl, hk⟩ := exists_of_leaves hd (leaves_of_hop hd h)
  obtain ⟨l, rfl, hl⟩ := exists_of_hop hd h
  have ⟨a, ha, ha'⟩ := hg k hk
  have ⟨b, hb, hb'⟩ := hg l hl
  exact ⟨a, b, ha, hb, ha', hb'⟩

theorem Placed.consistent (hg : (ofDraft d).Placed upright) (hd : d.Valid) (ht : t < d.nodes.size) :
    Problem.Consistent ⟨(ofDraft d).toGraph, .straightLine, s, t⟩ := by
  intro u e v c hop hc
  have ⟨a, b, ha, hb, ha', hb'⟩ := hg.ends hd hop
  have ⟨_, hx, hx'⟩ := hg t ht
  cases Except.ok.inj (hc.symm.trans (straightLine_cost hop ha hb))
  exact ⟨_, _, straightLine_heuristic ha hx, straightLine_heuristic hb hx,
    Position.distance_triangle ha' hb' hx'⟩

theorem straightLine_consistent (h : ofSteps steps = .ok g) (hg : g.Uniform) :
    (∀ t : Nat, t < g.nodes.size →
      Costs.straightLine.heuristic g.toGraph t t = .ok 0 ∧
      (∀ u : Nat, u < g.nodes.size →
        ∃ x, Costs.straightLine.heuristic g.toGraph u t = .ok x ∧ 0 ≤ x) ∧
      ∀ u e v, g.toGraph.Hop u e v → ∃ c x y,
        Costs.straightLine.cost g.toGraph u e v = .ok c ∧
        Costs.straightLine.heuristic g.toGraph u t = .ok x ∧
        Costs.straightLine.heuristic g.toGraph v t = .ok y ∧ x ≤ c + y) ∧
    (∀ u e v, g.toGraph.Hop u e v → ∃ a b,
      g.toGraph.position u = .ok a ∧ g.toGraph.position v = .ok b ∧
      Costs.straightLine.cost g.toGraph u e v = .ok (a.distance b) ∧
      Costs.straightLine.cost g.toGraph v e u = .ok (b.distance a)) ∧
    ∀ a b : Position ℝ, a.distance b = b.distance a := by
  obtain ⟨d, hd, rfl⟩ := valid_of_ofSteps h
  have ⟨upright, hg⟩ := hg
  refine ⟨fun t ht => ⟨?self, fun u hu => ?nonneg, fun u e v hop => ?falls⟩,
    fun u e v hop => ?symm, fun a b => Position.distance_comm⟩
  case self =>
    have ⟨a, ha, _⟩ := hg t ht
    exact Position.distance_self (a := a) ▸ straightLine_heuristic ha ha
  case nonneg =>
    have ⟨a, ha, _⟩ := hg u hu
    have ⟨b, hb, _⟩ := hg t ht
    exact ⟨_, straightLine_heuristic ha hb, Position.distance_nonneg⟩
  case falls =>
    have ⟨a, b, ha, hb, _⟩ := hg.ends hd hop
    have hc := straightLine_cost hop ha hb
    have ⟨x, y, hx, hy, hle⟩ := hg.consistent hd ht (s := t) hop hc
    exact ⟨_, x, y, hc, hx, hy, hle⟩
  case symm =>
    have ⟨a, b, ha, hb, _⟩ := hg.ends hd hop
    have hc := straightLine_cost hop ha hb
    exact ⟨a, b, ha, hb, hc, Position.distance_comm (a := a) ▸ hc⟩

-- One node has a vector and the others have numbers. Node 1 is where the edge from it to node 0 starts, and
-- there is a loop at it.
open Draft.Step in
def slopeSteps : List (Draft.Step ℝ) :=
  [addNode "s", addNode "a", addNode "t",
    addEdge "as" "a" "s" false, addEdge "aa" "a" "a" true, addEdge "at" "a" "t" true,
    setNodeVector "s" "xyz" [0, 0, 1],
    setNodeNumber "a" "x" 1, setNodeNumber "a" "y" 1, setNodeNumber "a" "z" 1,
    setNodeNumber "t" "x" 1, setNodeNumber "t" "z" 0]

def slope : Network ℝ := .ofDraft {
  nodes     := #[
    { id := "s", vectors := {("xyz", [0, 0, 1])} },
    { id := "a", numbers := {("z", 1), ("y", 1), ("x", 1)} },
    { id := "t", numbers := {("z", 0), ("x", 1)} }]
  edges     := #[
    { id := "as", source := 1, target := 0, directed := false },
    { id := "aa", source := 1, target := 1, directed := true },
    { id := "at", source := 1, target := 2, directed := true }]
  nodeIndex := {("t", 2), ("a", 1), ("s", 0)}
  edgeIndex := {("at", 2), ("aa", 1), ("as", 0)} }

theorem ofSteps_slope : ofSteps slopeSteps = .ok slope := by
  simp [ofSteps, slopeSteps, Builder.new, Builder.apply, Builder.build, Draft.apply,
    Draft.addNode, Draft.addEdge, Draft.setNodeVector, Draft.setNodeNumber, Draft.knownNode,
    Draft.checkFinite, Scalar.isFinite, Std.HashMap.getElem_insert]
  rfl

theorem slope_position :
    slope.toGraph.position 0 = .ok ⟨0, 0, 1, true⟩ ∧
    slope.toGraph.position 1 = .ok ⟨1, 1, 1, true⟩ ∧
    slope.toGraph.position 2 = .ok ⟨1, 0, 0, true⟩ := by
  have h₀ : slope.nodeAt 0 = .ok { id := "s", vectors := {("xyz", [0, 0, 1])} } := rfl
  have h₁ : slope.nodeAt 1 = .ok { id := "a", numbers := {("z", 1), ("y", 1), ("x", 1)} } := rfl
  have h₂ : slope.nodeAt 2 = .ok { id := "t", numbers := {("z", 0), ("x", 1)} } := rfl
  simp [Graph.position, toGraph, h₀, h₁, h₂, Position.ofVector, Position.ofNumbers, pure,
    Except.pure, Std.HashMap.getElem_insert]

theorem uniform_slope : slope.Uniform := by
  have ⟨h₀, h₁, h₂⟩ := slope_position
  refine ⟨true, fun u hu => ?_⟩
  match u with
  | 0     => exact ⟨_, h₀, rfl⟩
  | 1     => exact ⟨_, h₁, rfl⟩
  | 2     => exact ⟨_, h₂, rfl⟩
  | n + 3 => exact absurd hu (Nat.not_lt.mpr (Nat.le_add_left 3 n))

theorem slope_consistent : ofSteps slopeSteps = .ok slope ∧ slope.Uniform ∧
    slope.toGraph.Hop 0 0 1 ∧ slope.toGraph.endpoints 0 = .ok (1, 0) ∧
    ∃ c x y, Costs.straightLine.cost slope.toGraph 0 0 1 = .ok c ∧
      Costs.straightLine.heuristic slope.toGraph 0 2 = .ok x ∧
      Costs.straightLine.heuristic slope.toGraph 1 2 = .ok y ∧ x ≤ c + y := by
  have ⟨ht, _⟩ := straightLine_consistent ofSteps_slope uniform_slope
  have ⟨_, _, hfalls⟩ := ht 2 (by decide)
  have hl : slope.toGraph.leavingEdges 0 = .ok [0] := by cbv
  have hop : slope.toGraph.Hop 0 0 1 := ⟨⟨_, hl, by decide⟩, rfl⟩
  exact ⟨ofSteps_slope, uniform_slope, hop, rfl, hfalls 0 0 1 hop⟩

end BestFirst.Network
