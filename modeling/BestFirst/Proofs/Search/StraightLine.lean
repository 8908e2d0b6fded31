import BestFirst.Network.Builder
import BestFirst.Proofs.Distance
import BestFirst.Proofs.Search.Adjacent
import BestFirst.Proofs.Search.Optimality

namespace BestFirst

variable {u v : NodeIndex} {e : EdgeIndex}

section Lines

variable {α : Type} [Zero α] [Add α] [Sub α] [Mul α] [Scalar α] {g : Graph α} {c : α}

theorem Costs.straightLine_eq_ok_iff : straightLine.heuristic g u v = .ok c ↔
    ∃ a b, g.position u = .ok a ∧ g.position v = .ok b ∧ a.distance b = c := by
  simp only [straightLine, Except.bind_eq_ok_iff, pure, Except.pure, Except.ok.injEq,
    exists_and_left]

theorem Graph.Hop.edgeLength_eq (h : g.Hop u e v) :
    g.edgeLength e = Costs.straightLine.heuristic g u v ∨
      g.edgeLength e = Costs.straightLine.heuristic g v u := by
  have ⟨a, b, he, hu⟩ := h.ends
  have hline : g.edgeLength e = Costs.straightLine.heuristic g a b := by
    simp only [edgeLength, he, Except.ok_bind, Costs.straightLine]
  obtain ⟨rfl, rfl⟩ | ⟨rfl, rfl⟩ := hu
  · exact .inl hline
  · exact .inr hline

end Lines

variable {ε c : ℝ}

theorem Graph.Hop.edgeLength_eq_ok_iff {g : Graph ℝ} (h : g.Hop u e v) :
    g.edgeLength e = .ok c ↔
      ∃ a b, g.position u = .ok a ∧ g.position v = .ok b ∧ a.distance b = c := by
  obtain hline | hline := h.edgeLength_eq
  all_goals rw [hline, Costs.straightLine_eq_ok_iff]
  case inr =>
    constructor
    case mp  => exact fun ⟨b, a, hb, ha, hc⟩ => ⟨a, b, ha, hb, Position.distance_comm.trans hc⟩
    case mpr => exact fun ⟨a, b, ha, hb, hc⟩ => ⟨b, a, hb, ha, Position.distance_comm.trans hc⟩

namespace Problem

-- Where one can go from a node in space to one in the plane, and on to a target in space, the height
-- differs from the one of the target by at most `ε`.
def Level (p : Problem ℝ) (ε : ℝ) : Prop :=
  ∀ {u e v c a b t}, p.graph.Hop u e v → p.Walk v 0 p.target c →
    p.graph.position u = .ok a → p.graph.position v = .ok b → p.graph.position p.target = .ok t →
    a.is3D → b.is3D = false → t.is3D → |t.z - a.z| ≤ ε

variable {p : Problem ℝ} {path : Path ℝ}

theorem heuristic_eq_ok_iff {h : ℝ} (hc : p.costs = .straightLine) :
    p.costs.heuristic p.graph u p.target = .ok h ↔
      ∃ a t, p.graph.position u = .ok a ∧ p.graph.position p.target = .ok t ∧ a.distance t = h :=
  hc ▸ Costs.straightLine_eq_ok_iff

theorem Level.admissible (hl : p.Level ε) (hc : p.costs = .straightLine) (hε : 0 ≤ ε) :
    p.Admissible ε := by
  cases ht : p.graph.position p.target
  case error =>
    have hn {u h} : p.costs.heuristic p.graph u p.target ≠ .ok h := by
      simp [heuristic_eq_ok_iff hc, ht]
    exact ⟨fun h => absurd h hn, fun h => absurd h hn⟩
  case ok t =>
    let f (u : NodeIndex) : ℝ := (p.graph.position u).toOption.elim 0 (Position.potential ε t)
    have hf {u a} (ha : p.graph.position u = .ok a) : f u = Position.potential ε t a := by
      simp only [f, ha, Except.toOption, Option.elim]
    refine .of_consistent f ?consistent ?bound ?reached ?target
    case consistent =>
      intro u e v c x hop hc' hw
      rw [hc] at hc'
      obtain ⟨a, b, ha, hb, rfl⟩ := hop.edgeLength_eq_ok_iff.mp hc'
      rw [hf ha, hf hb]
      exact Position.potential_le hε (hl hop hw ha hb ht)
    case bound =>
      intro u h hh
      obtain ⟨a, t', ha, ht', rfl⟩ := (heuristic_eq_ok_iff hc).mp hh
      cases ht.symm.trans ht'
      rw [hf ha]
      exact sub_le_iff_le_add.mp (le_max_right ..)
    case reached => exact hf ht ▸ Position.potential_self hε
    case target =>
      intro h hh
      obtain ⟨a, t', ha, ht', rfl⟩ := (heuristic_eq_ok_iff hc).mp hh
      exact dist_nonneg.trans Position.groundDistance_le

theorem Finds.shortest (h : p.Finds path) (hc : p.costs = .straightLine) (hε : 0 ≤ ε)
    (hl : p.Level ε) :
    (∀ c, p.Walk p.source 0 p.target c → path.cost ≤ c + ε) ∧
      (ε = 0 → IsLeast { c | p.Walk p.source 0 p.target c } path.cost) := by
  have ha : p.Admissible ε := hl.admissible hc hε
  refine ⟨fun _ => h.cost_le ha, ?_⟩
  rintro rfl
  exact h.isLeast ha

end Problem

section Shaft

open Problem

variable {z : ℝ}

-- The source and the target are in space, the target 3 above the source. On the same vertical are a
-- node in space, at height `z`, and one in the plane, for which heights make no difference.
open Draft.Step in
def shaftSteps (z : ℝ) : List (Draft.Step ℝ) :=
  [addNode "s", addNode "t", addNode "a", addNode "m",
    addEdge "st" "s" "t" false, addEdge "sa" "s" "a" false,
    addEdge "am" "a" "m" false, addEdge "mt" "m" "t" false,
    setNodeVector "s" "xyz" [0, 0, 0], setNodeVector "t" "xyz" [0, 0, 3],
    setNodeVector "a" "xyz" [0, 0, z], setNodeVector "m" "xy" [0, 0]]

def shaft (z : ℝ) : Network ℝ := .ofDraft {
  nodes     := #[
    { id := "s", vectors := {("xyz", [0, 0, 0])} }, { id := "t", vectors := {("xyz", [0, 0, 3])} },
    { id := "a", vectors := {("xyz", [0, 0, z])} }, { id := "m", vectors := {("xy", [0, 0])} }]
  edges     := #[
    { id := "st", source := 0, target := 1, directed := false },
    { id := "sa", source := 0, target := 2, directed := false },
    { id := "am", source := 2, target := 3, directed := false },
    { id := "mt", source := 3, target := 1, directed := false }]
  nodeIndex := {("m", 3), ("a", 2), ("t", 1), ("s", 0)}
  edgeIndex := {("mt", 3), ("am", 2), ("sa", 1), ("st", 0)} }

theorem ofSteps_shaft : Network.ofSteps (shaftSteps z) = .ok (shaft z) := by
  simp [Network.ofSteps, shaftSteps, Builder.new, Builder.apply, Builder.build, Draft.apply,
    Draft.addNode, Draft.addEdge, Draft.setNodeVector, Draft.knownNode, Draft.checkFinite,
    Scalar.isFinite, Std.HashMap.getElem_insert]
  rfl

theorem shaft_position :
    (shaft z).toGraph.position 0 = .ok ⟨0, 0, 0, true⟩ ∧
    (shaft z).toGraph.position 1 = .ok ⟨0, 0, 3, true⟩ ∧
    (shaft z).toGraph.position 2 = .ok ⟨0, 0, z, true⟩ ∧
    (shaft z).toGraph.position 3 = .ok ⟨0, 0, 0, false⟩ := by
  have h₀ : (shaft z).nodeAt 0 = .ok { id := "s", vectors := {("xyz", [0, 0, 0])} } := rfl
  have h₁ : (shaft z).nodeAt 1 = .ok { id := "t", vectors := {("xyz", [0, 0, 3])} } := rfl
  have h₂ : (shaft z).nodeAt 2 = .ok { id := "a", vectors := {("xyz", [0, 0, z])} } := rfl
  have h₃ : (shaft z).nodeAt 3 = .ok { id := "m", vectors := {("xy", [0, 0])} } := rfl
  simp [Graph.position, Network.toGraph, h₀, h₁, h₂, h₃, Position.ofVector, pure, Except.pure,
    Std.HashMap.getD_insert]

theorem shaft_leavingEdges :
    (shaft z).toGraph.leavingEdges 0 = .ok [0, 1] ∧
    (shaft z).toGraph.leavingEdges 2 = .ok [1, 2] ∧
    (shaft z).toGraph.leavingEdges 3 = .ok [2, 3] :=
  ⟨by cbv, by cbv, by cbv⟩

theorem shaft_edgeLength :
    (shaft z).toGraph.edgeLength 0 = .ok 3 ∧
    (shaft z).toGraph.edgeLength 1 = .ok |z| ∧
    (shaft z).toGraph.edgeLength 2 = .ok 0 ∧
    (shaft z).toGraph.edgeLength 3 = .ok 0 := by
  have ⟨h₀, h₁, h₂, h₃⟩ := shaft_position (z := z)
  have e₀ : (shaft z).toGraph.endpoints 0 = .ok (0, 1) := rfl
  have e₁ : (shaft z).toGraph.endpoints 1 = .ok (0, 2) := rfl
  have e₂ : (shaft z).toGraph.endpoints 2 = .ok (2, 3) := rfl
  have e₃ : (shaft z).toGraph.endpoints 3 = .ok (3, 1) := rfl
  simp [Graph.edgeLength, e₀, e₁, e₂, e₃, h₀, h₁, h₂, h₃, Position.distance, Scalar.sqrt, pure,
    Except.pure, Real.sqrt_mul_self_eq_abs]

noncomputable def climb (z : ℝ) : Problem ℝ where
  graph  := (shaft z).toGraph
  costs  := .straightLine
  source := 0
  target := 1

theorem climb_heuristic :
    (climb z).costs.heuristic (climb z).graph 0 1 = .ok 3 ∧
    (climb z).costs.heuristic (climb z).graph 1 1 = .ok 0 ∧
    (climb z).costs.heuristic (climb z).graph 2 1 = .ok |3 - z| := by
  have ⟨h₀, h₁, h₂, _⟩ := shaft_position (z := z)
  simp [climb, Costs.straightLine, h₀, h₁, h₂, Position.distance, Scalar.sqrt, pure, Except.pure,
    Real.sqrt_mul_self_eq_abs]

theorem climb_search : Report.verdict <$> (climb z).search = .ok (.found ⟨[0, 1], [0], 3⟩) := by
  have ⟨hh₀, hh₁, hh₂⟩ := climb_heuristic (z := z)
  have ⟨hc₀, hc₁, _⟩ := shaft_edgeLength (z := z)
  have ht : (climb z).Proposes 0 ((climb z).root 3) 0 ⟨1, some 0, some 0, 3, 0⟩ :=
    ⟨rfl, hh₁, ⟨3, hc₀, (zero_add 3).symm⟩, rfl, rfl⟩
  have ha : (climb z).Proposes 0 ((climb z).root 3) 1 ⟨2, some 1, some 0, |z|, |3 - z|⟩ :=
    ⟨rfl, hh₂, ⟨|z|, hc₁, (zero_add |z|).symm⟩, rfl, rfl⟩
  have hle : (3 : ℝ) + 0 ≤ |z| + |3 - z| :=
    calc (3 : ℝ) + 0
      _ = |z + (3 - z)|   := by norm_num
      _ ≤ |z| + |3 - z| := abs_add_le ..
  refine search_adjacent (by decide) hh₀ rfl rfl shaft_leavingEdges.left (by simp [climb]) ht rfl fun e he => ?_
  cases List.mem_singleton.mp he
  exact ⟨_, ha, by simp [climb], hle⟩

theorem climb_walk : (climb z).Walk 0 0 1 |z| := by
  have ⟨l₀, l₂, l₃⟩ := shaft_leavingEdges (z := z)
  have ⟨_, c₁, c₂, c₃⟩ := shaft_edgeLength (z := z)
  have ha : (climb z).graph.Hop 0 1 2 := ⟨⟨_, l₀, by decide⟩, rfl⟩
  have hm : (climb z).graph.Hop 2 2 3 := ⟨⟨_, l₂, by decide⟩, rfl⟩
  have ht : (climb z).graph.Hop 3 3 1 := ⟨⟨_, l₃, by decide⟩, rfl⟩
  have hw : (climb z).Walk 0 0 1 (0 + |z| + 0 + 0) := ((Walk.refl.hop ha c₁).hop hm c₂).hop ht c₃
  simpa using hw

theorem climb_not_shortest :
    ∃ g path, Network.ofSteps (shaftSteps (-1)) = .ok g ∧
      (∀ u : Nat, u < g.nodes.size → ∃ a, g.toGraph.position u = .ok a) ∧
      let p : Problem ℝ := ⟨g.toGraph, .straightLine, 0, 1⟩
      Report.verdict <$> p.search = .ok (.found path) ∧
        ¬IsLeast { c | p.Walk 0 0 1 c } path.cost := by
  refine ⟨shaft (-1), _, ofSteps_shaft, fun u hu => ?_, climb_search, fun h => ?_⟩
  case refine_1 =>
    have ⟨h₀, h₁, h₂, h₃⟩ := shaft_position (z := -1)
    match u with
    | 0 => exact ⟨_, h₀⟩
    | 1 => exact ⟨_, h₁⟩
    | 2 => exact ⟨_, h₂⟩
    | 3 => exact ⟨_, h₃⟩
    | n + 4 => exact absurd hu (Nat.not_lt.mpr (Nat.le_add_left 4 n))
  case refine_2 =>
    have hle : (3 : ℝ) ≤ |-1| := h.right climb_walk
    norm_num at hle

theorem climb_level : (climb 3).Level 0 := by
  intro u e v c a b t hop _ ha hb ht ha' hb' _
  have ⟨h₀, h₁, h₂, h₃⟩ := shaft_position (z := 3)
  have ⟨edge, he, _, hu⟩ := Network.edge_of_hop hop
  simp only [shaft, Network.ofDraft, List.mem_toArray, List.mem_cons, List.not_mem_nil, or_false] at he
  simp only [climb] at ha hb ht
  obtain rfl | rfl | rfl | rfl := he
  all_goals
    simp at hu
    obtain ⟨rfl, rfl⟩ | ⟨rfl, rfl⟩ := hu
  all_goals
    simp [h₀, h₁, h₂, h₃] at ha hb ht
    subst a b t
    simp_all

theorem climb_shortest :
    (climb 3).Finds ⟨[0, 1], [0], 3⟩ ∧ IsLeast { c | (climb 3).Walk 0 0 1 c } 3 :=
  have h : (climb 3).Finds ⟨[0, 1], [0], 3⟩ := .of_search climb_search
  ⟨h, (h.shortest rfl le_rfl climb_level).right rfl⟩

end Shaft
end BestFirst
