import BestFirst.Proofs.Network.Rows
import BestFirst.Proofs.Network.Validity
import Mathlib

namespace BestFirst

variable {α : Type}

def Graph.Leaves (g : Graph α) (u : NodeIndex) (e : EdgeIndex) : Prop :=
  ∃ a b directed, g.endpoints e = .ok (a, b) ∧ g.isDirected e = .ok directed ∧
    (u = a ∨ directed = false ∧ u = b)

section Graph

variable {g : Graph α} {u a b : NodeIndex} {e : EdgeIndex} {directed : Bool}

theorem Graph.leaves_iff (he : g.endpoints e = .ok (a, b)) (hd : g.isDirected e = .ok directed) :
    g.Leaves u e ↔ u = a ∨ directed = false ∧ u = b := by
  simp [Leaves, he, hd]

theorem Graph.Leaves.opposite (h : g.Leaves u e) : ∃ v, g.opposite? e u = .ok (some v) ∧
    (g.isDirected e = .ok false → g.Leaves v e ∧ g.opposite? e v = .ok (some u)) := by
  obtain ⟨a, b, directed, he, hd, hu⟩ := h
  refine ⟨if u = a then b else a, ?there, fun hd => ?back⟩
  case there =>
    simp only [opposite?, he, Except.ok_bind, pure, Except.pure]
    grind
  case back =>
    simp only [opposite?, leaves_iff he hd, he, Except.ok_bind, pure, Except.pure]
    grind

end Graph

theorem Edge.mem_leaves {edge : Edge α} {u : Nat} :
    u ∈ edge.leaves ↔ u = edge.source ∨ edge.directed = false ∧ u = edge.target := by
  grind [leaves]

namespace Draft

variable {d : Draft α} {x : Rows.Entry} {u e : Nat} {edge : Edge α}

theorem inRow_leaves :
    Rows.inRow (edge.leaves.map (⟨·, e⟩)) u = if u ∈ edge.leaves then [e] else [] := by
  grind [Rows.inRow, Edge.leaves]

theorem inRow_entries :
    Rows.inRow d.entries u = (d.edges.toList.zipIdx.filter (u ∈ ·.1.leaves)).map (·.2) := by
  rw [entries]
  induction d.edges.toList.zipIdx
  case nil => rfl
  case cons x xs ih =>
    rw [List.flatMap_cons, Rows.inRow_append, ih, inRow_leaves, List.filter_cons]
    split <;> simp_all

theorem mem_inRow_entries :
    e ∈ Rows.inRow d.entries u ↔ ∃ edge, d.edges[e]? = some edge ∧ u ∈ edge.leaves := by
  simp [inRow_entries, List.mem_zipIdx_iff_getElem?]

theorem inRow_entries_increasing : (Rows.inRow d.entries u).Pairwise (· < ·) := by
  have hi : (d.edges.toList.zipIdx.map (·.2)).Pairwise (· < ·) := by
    simpa [List.zipIdx_map_snd, ← List.range_eq_range'] using List.pairwise_lt_range
  rw [inRow_entries]
  exact hi.sublist (List.filter_sublist.map _)

theorem Valid.leaves_lt (hd : d.Valid) (he : edge ∈ d.edges) (hu : u ∈ edge.leaves) :
    u < d.nodes.size := by
  have ⟨hs, ht⟩ := hd.ends he
  obtain rfl | ⟨-, rfl⟩ := Edge.mem_leaves.mp hu
  · exact hs
  · exact ht

theorem Valid.row_lt (hd : d.Valid) (hx : x ∈ d.entries) : x.row < d.nodes.size := by
  simp only [entries, List.mem_flatMap, List.mem_map, Prod.exists] at hx
  obtain ⟨edge, e, he, u, hu, rfl⟩ := hx
  have he := List.mem_of_getElem? (List.mem_zipIdx_iff_getElem?.mp he)
  exact hd.leaves_lt (Array.mem_toList_iff.mp he) hu

end Draft

namespace Network

variable {g : Network α} {d : Draft α} {u : Nat} {e : EdgeIndex}

theorem leavingEdges_ofDraft (hd : d.Valid) (hu : u < d.nodes.size) :
    (ofDraft d).leavingEdges u = .ok ((Rows.inRow d.entries u).map (↑)) := by
  have hn : (ofDraft d).nodeAt u = .ok d.nodes[u] :=
    Draft.nodeAt_eq_ok_iff.mpr ⟨u, rfl, Array.getElem?_eq_getElem hu⟩
  rw [leavingEdges, hn, Except.ok_bind, ofDraft, Int.toNat_natCast,
    Rows.row_ofEntries (fun _ => hd.row_lt) hu]
  rfl

theorem leaves_iff {u : NodeIndex} : g.toGraph.Leaves u e ↔
    ∃ k : Nat, e = k ∧ ∃ edge, g.edges[k]? = some edge ∧ ∃ j : Nat, u = j ∧ j ∈ edge.leaves := by
  simp only [Graph.Leaves, toGraph, Except.map_eq_ok_iff, Draft.edgeAt_eq_ok_iff, Edge.mem_leaves]
  constructor
  case mp =>
    rintro ⟨_, _, _, ⟨edge, ⟨k, rfl, hk⟩, ⟨⟩⟩, ⟨edge', ⟨k', hk', he'⟩, rfl⟩, hu⟩
    cases Int.ofNat.inj hk'
    cases Option.some.inj (hk.symm.trans he')
    obtain rfl | ⟨hd, rfl⟩ := hu
    · exact ⟨k, rfl, edge, hk, edge.source, rfl, .inl rfl⟩
    · exact ⟨k, rfl, edge, hk, edge.target, rfl, .inr ⟨hd, rfl⟩⟩
  case mpr =>
    rintro ⟨k, rfl, edge, hk, j, rfl, hj⟩
    exact ⟨_, _, _, ⟨edge, ⟨k, rfl, hk⟩, rfl⟩, ⟨edge, ⟨k, rfl, hk⟩, rfl⟩, by simpa using hj⟩

theorem exists_of_leaves {u : NodeIndex} (hd : d.Valid) (h : (ofDraft d).toGraph.Leaves u e) :
    ∃ k : Nat, u = k ∧ k < d.nodes.size := by
  have ⟨_, _, edge, he, j, hu, hj⟩ := leaves_iff.mp h
  exact ⟨j, hu, hd.leaves_lt (Array.mem_of_getElem? he) hj⟩

theorem exists_leavingEdges (hd : d.Valid) (hu : u < d.nodes.size) :
    ∃ es, (ofDraft d).toGraph.leavingEdges u = .ok es ∧ es.Pairwise (· < ·) ∧
      ∀ e, e ∈ es ↔ (ofDraft d).toGraph.Leaves u e := by
  refine ⟨_, leavingEdges_ofDraft hd hu, ?increasing, fun e => ?mem⟩
  case increasing =>
    rw [List.pairwise_map]
    exact Draft.inRow_entries_increasing.imp Int.ofNat_lt.mpr
  case mem =>
    simp only [List.mem_map, Draft.mem_inRow_entries, leaves_iff]
    constructor
    case mp  => exact fun ⟨k, ⟨edge, he, hu⟩, hk⟩ => ⟨k, hk.symm, edge, he, u, rfl, hu⟩
    case mpr =>
      rintro ⟨k, rfl, edge, he, j, hj, hu⟩
      cases Int.ofNat.inj hj
      exact ⟨k, ⟨edge, he, hu⟩, rfl⟩

variable [Scalar α] {steps : List (Draft.Step α)}

-- However a network was built, the rows of edges fit together without gaps, and row `u` holds exactly
-- the edges that can be left at `u`.
theorem adjacency_exact (h : ofSteps steps = .ok g) :
    g.rows.offsets.size = g.nodes.size + 1 ∧
    g.rows.offsets[0]? = some 0 ∧
    g.rows.offsets.toList.Pairwise (· ≤ ·) ∧
    g.rows.offsets.back? = some g.rows.items.size ∧
    ∀ u : Nat, u < g.nodes.size → ∃ es, g.toGraph.leavingEdges u = .ok es ∧
      es.Pairwise (· < ·) ∧
      (∀ e, e ∈ es ↔ g.toGraph.Leaves u e) ∧
      (∀ e a b directed, g.toGraph.endpoints e = .ok (a, b) → g.toGraph.isDirected e = .ok directed →
        es.count e = if u = a ∨ directed = false ∧ u = b then 1 else 0) ∧
      ∀ e ∈ es, ∃ v, g.toGraph.opposite? e u = .ok (some v) ∧
        (g.toGraph.isDirected e = .ok false → ∃ es', g.toGraph.leavingEdges v = .ok es' ∧ e ∈ es' ∧
          g.toGraph.opposite? e v = .ok (some u)) := by
  obtain ⟨d, hd, rfl⟩ := valid_of_ofSteps h
  have hrow (e : Rows.Entry) (he : e ∈ d.entries) : e.row < d.nodes.size := hd.row_lt he
  refine ⟨Rows.size_offsets, Rows.getElem?_starts (Nat.zero_le _), Rows.offsets_nondecreasing,
    Rows.offsets_back hrow, fun u hu => ?_⟩
  have ⟨es, hl, hi, hm⟩ := exists_leavingEdges hd hu
  refine ⟨es, hl, hi, hm, fun e a b directed he hdir => ?count, fun e he => ?there⟩
  case count => simp only [hi.nodup.count, hm, Graph.leaves_iff he hdir]
  case there =>
    have ⟨v, hv, hback⟩ := ((hm e).mp he).opposite
    refine ⟨v, hv, fun hdir => ?_⟩
    have ⟨hleaves, hback⟩ := hback hdir
    have ⟨j, hj, hjlt⟩ := exists_of_leaves hd hleaves
    cases hj
    have ⟨es', hl', _, hm'⟩ := exists_leavingEdges hd hjlt
    exact ⟨es', hl', (hm' e).mpr hleaves, hback⟩

-- Two nodes have a directed and an undirected edge between them, two have two undirected ones, and there
-- is a loop of either kind.
open Draft.Step in
def bundleSteps : List (Draft.Step Float) :=
  [addNode "a", addNode "b", addNode "c",
    addEdge "ab" "a" "b" true, addEdge "ba" "b" "a" false, addEdge "bb" "b" "b" false,
    addEdge "bc" "b" "c" false, addEdge "cb" "c" "b" false, addEdge "cc" "c" "c" true]

def bundle : Network Float := .ofDraft {
  nodes     := #[{ id := "a" }, { id := "b" }, { id := "c" }]
  edges     := #[
    { id := "ab", source := 0, target := 1, directed := true },
    { id := "ba", source := 1, target := 0, directed := false },
    { id := "bb", source := 1, target := 1, directed := false },
    { id := "bc", source := 1, target := 2, directed := false },
    { id := "cb", source := 2, target := 1, directed := false },
    { id := "cc", source := 2, target := 2, directed := true }]
  nodeIndex := {("c", 2), ("b", 1), ("a", 0)}
  edgeIndex := {("cc", 5), ("cb", 4), ("bc", 3), ("bb", 2), ("ba", 1), ("ab", 0)} }

theorem ofSteps_bundle : ofSteps bundleSteps = .ok bundle := by
  simp [ofSteps, bundleSteps, Builder.new, Builder.apply, Builder.build, Draft.apply,
    Draft.addNode, Draft.addEdge, Draft.knownNode, Std.HashMap.getElem_insert]
  rfl

theorem bundle_adjacency :
    ofSteps bundleSteps = .ok bundle ∧ bundle.rows.offsets = #[0, 2, 6, 9] ∧
    ∀ e, e ∈ ([1, 2, 3, 4] : List EdgeIndex) ↔ bundle.toGraph.Leaves 1 e := by
  have ⟨_, _, _, _, hrow⟩ := adjacency_exact ofSteps_bundle
  have ⟨es, hl, _, hm, _⟩ := hrow 1 (by decide)
  have hes : bundle.toGraph.leavingEdges 1 = .ok [1, 2, 3, 4] := rfl
  cases hes.symm.trans hl
  exact ⟨ofSteps_bundle, rfl, hm⟩

end Network
end BestFirst
