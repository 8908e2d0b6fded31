import BestFirst.Proofs.Distance
import BestFirst.Proofs.Network.Navigation
import BestFirst.Proofs.Network.Refinement
import BestFirst.Proofs.Search.Locality
import Mathlib

namespace BestFirst

open Draft (Step)

variable {α : Type}

namespace Journal

variable {log more : List (Step α)} {id name key : String} {k : Nat}

section Appending

variable {β : Type} {xs ys : List β} {failure : Failure}

theorem nodeIds_append : nodeIds (log ++ more) = nodeIds log ++ nodeIds more :=
  List.filterMap_append

theorem links_append : links (log ++ more) = links log ++ links more :=
  List.filterMap_append

theorem nodeNumbers_append : nodeNumbers (log ++ more) = nodeNumbers log ++ nodeNumbers more :=
  List.filterMap_append

theorem nodeVectors_append : nodeVectors (log ++ more) = nodeVectors log ++ nodeVectors more :=
  List.filterMap_append

theorem edgeNumbers_append : edgeNumbers (log ++ more) = edgeNumbers log ++ edgeNumbers more :=
  List.filterMap_append

theorem entryAt_append (hk : k < xs.length) : entryAt (xs ++ ys) k failure = entryAt xs k failure := by
  have hi : (k : Int).toNat? = some k := rfl
  simp only [entryAt, hi, Option.bind_some, List.getElem?_append_left hk]

theorem latest?_append {xs ys : List (Setting β)} (h : ∀ x ∈ ys, x.1.1 ≠ name) :
    latest? (xs ++ ys) name key = latest? xs name key := by
  have hnone : latest? ys name key = none :=
    Option.eq_none_iff_forall_ne_some.mpr fun x hx => h _ (mem_of_latest? hx) rfl
  rw [latest?, List.reverse_append, List.lookup_append, ← latest?, hnone, Option.none_or, latest?]

end Appending

structure Spares (log more : List (Step α)) : Prop where
  nodeNumber : ∀ x ∈ nodeNumbers more, x.1.1 ∉ nodeIds log
  nodeVector : ∀ x ∈ nodeVectors more, x.1.1 ∉ nodeIds log
  edgeNumber : ∀ x ∈ edgeNumbers more, x.1.1 ∉ edgeIds log

theorem Spares.sameNode (h : Spares log more) (hk : k < (nodeIds log).length) :
    (toGraph log).SameNode (toGraph (log ++ more)) k := by
  have hnode : node (log ++ more) k = node log k := by
    rw [node, nodeIds_append, entryAt_append hk, node]
  constructor
  case nodeId => exact hnode
  case nodeNumber? =>
    funext key
    simp only [toGraph, hnode, nodeNumbers_append]
    refine Except.map_congr fun id hid => latest?_append fun x hx heq => ?_
    exact h.nodeNumber x hx (heq ▸ mem_of_entryAt hid)
  case nodeVector =>
    funext key
    simp only [toGraph, hnode, nodeVectors_append]
    refine Except.map_congr fun id hid => ?_
    rw [latest?_append fun x hx heq => h.nodeVector x hx (heq ▸ mem_of_entryAt hid)]

theorem Spares.sameEdge [Scalar α] (h : Spares log more) (hs : Sound log) (hk : k < (links log).length) :
    (toGraph log).SameEdge (toGraph (log ++ more)) k := by
  have hlink : link (log ++ more) k = link log k := by
    rw [link, links_append, entryAt_append hk, link]
  constructor
  case endpoints =>
    simp only [toGraph, hlink, nodeIds_append]
    refine Except.map_congr fun l hl => ?_
    obtain ⟨hsource, htarget⟩ := hs.ends l (mem_of_entryAt hl)
    rw [List.idxOf_append_of_mem hsource, List.idxOf_append_of_mem htarget]
  case edgeNumber? =>
    funext key
    simp only [toGraph, hlink, edgeNumbers_append]
    refine Except.map_congr fun l hl => latest?_append fun x hx heq => ?_
    exact h.edgeNumber x hx (heq ▸ List.mem_map_of_mem (mem_of_entryAt hl))

theorem leaving_append (h : ∀ l ∈ links more, ¬l.Leaves id) :
    leaving (log ++ more) id = leaving log id := by
  have hnone : ((links more).zipIdx (links log).length).filter (·.1.Leaves id) = [] := by
    refine List.filter_eq_nil_iff.mpr fun x hx => ?_
    simpa using h x.1 (List.fst_mem_of_mem_zipIdx hx)
  simp [leaving, links_append, List.zipIdx_append, hnone]

theorem lt_of_mem_leaving (h : k ∈ leaving log id) : k < (links log).length := by
  simp only [leaving, List.mem_map, List.mem_filter] at h
  obtain ⟨⟨l, k⟩, ⟨hl, _⟩, rfl⟩ := h
  exact List.snd_lt_of_mem_zipIdx hl

end Journal

namespace Network

def Outside (g : Network α) (u : NodeIndex) (name : String) : Prop :=
  ∀ v, g.findNode? name = some v → ¬g.toGraph.Reachable u v

-- What may be asked for in addition. New things may be added and get values, but no new edge can be left
-- from where one gets from `u`.
def Beside (g : Network α) (u : NodeIndex) : Step α → Prop
  | .addNode _                        => True
  | .addEdge _ source target directed =>
    g.Outside u source ∧ (directed = false → g.Outside u target)
  | .setNodeNumber node _ _           => g.findNode? node = none
  | .setNodeVector node _ _           => g.findNode? node = none
  | .setEdgeNumber edge _ _           => g.findEdge? edge = none

variable {log more steps : List (Step α)} {d d' : Draft α} {g g' : Network α} {u : Nat}
  {v : NodeIndex} {name : String}

theorem not_leaves_of_beside (hm : ∀ step ∈ more, g.Beside u step) (hn : g.findNode? name = some v)
    (hv : g.toGraph.Reachable u v) : ∀ l ∈ Journal.links more, ¬l.Leaves name := by
  intro l hl hleaves
  have ⟨step, hs, hl⟩ := List.mem_filterMap.mp hl
  cases step <;> cases hl
  have ⟨hsource, htarget⟩ := hm _ hs
  obtain rfl | ⟨hd, rfl⟩ := hleaves
  · exact hsource v hn hv
  · exact htarget hd v hn hv

variable [Scalar α]

theorem spares_of_beside (h : Journal.Reflects log d) (hm : ∀ step ∈ more, (ofDraft d).Beside u step) :
    Journal.Spares log more := by
  have hnode {name : String} (hn : (ofDraft d).findNode? name = none) : name ∉ Journal.nodeIds log :=
    h.nodeIndex_eq_none.mp (Option.map_eq_none_iff.mp hn)
  have hedge {name : String} (hn : (ofDraft d).findEdge? name = none) : name ∉ Journal.edgeIds log :=
    h.edgeIndex_eq_none.mp (Option.map_eq_none_iff.mp hn)
  constructor
  case nodeNumber =>
    intro x hx
    have ⟨step, hs, hx⟩ := List.mem_filterMap.mp hx
    cases step <;> cases hx
    exact hnode (hm _ hs)
  case nodeVector =>
    intro x hx
    have ⟨step, hs, hx⟩ := List.mem_filterMap.mp hx
    cases step <;> cases hx
    exact hnode (hm _ hs)
  case edgeNumber =>
    intro x hx
    have ⟨step, hs, hx⟩ := List.mem_filterMap.mp hx
    cases step <;> cases hx
    exact hedge (hm _ hs)

theorem alike_of_beside (h : Journal.Reflects log d) (h' : Journal.Reflects (log ++ more) d')
    (hu : u < d.nodes.size) (hm : ∀ step ∈ more, (ofDraft d).Beside u step) :
    (ofDraft d).toGraph.Alike (ofDraft d').toGraph u := by
  have hspares := spares_of_beside h hm
  constructor
  case node =>
    intro v hv
    obtain ⟨k, rfl, hk⟩ := exists_of_reachable h.valid hu hv
    rw [h.toGraph, h'.toGraph]
    exact hspares.sameNode (h.size_nodes ▸ hk)
  case leavingEdges =>
    intro v hv
    obtain ⟨k, rfl, hk⟩ := exists_of_reachable h.valid hu hv
    have hnode : Journal.node (log ++ more) k = Journal.node log k :=
      (hspares.sameNode (h.size_nodes ▸ hk)).nodeId
    have hleaving (id : String) (hid : Journal.node log k = .ok id) :
        Journal.leaving (log ++ more) id = Journal.leaving log id := by
      have hfind : (ofDraft d).toGraph.findNode? id = some (k : Int) :=
        h.toGraph ▸ h.sound.findNode?_eq_some_iff.mpr hid
      exact Journal.leaving_append (not_leaves_of_beside hm hfind hv)
    simp only [h.toGraph, h'.toGraph, Journal.toGraph, hnode]
    exact Except.map_congr fun id hid => by rw [hleaving id hid]
  case edge =>
    intro v e es hv hl he
    rw [h.toGraph] at hl
    obtain ⟨id, _, rfl⟩ := Except.map_eq_ok_iff.mp hl
    obtain ⟨k, hk, rfl⟩ := List.mem_map.mp he
    rw [h.toGraph, h'.toGraph]
    exact hspares.sameEdge h.sound (Journal.lt_of_mem_leaving hk)

-- A search through the longer network starts as one through the shorter does, goes through the same states
-- for as long as either goes on, and ends with the same report or the same fault, if it ends.
theorem extension_invisible [Zero α] [Add α] [Sub α] [Mul α] [LE α] [DecidableLE α] {source target : Nat}
    {costs : Costs α} (h : ofSteps steps = .ok g) (h' : ofSteps (steps ++ more) = .ok g')
    (hs : source < g.nodes.size) (ht : target < g.nodes.size) (hm : ∀ step ∈ more, g.Beside source step)
    (hc : costs = .straightLine ∨ ∃ key default, costs = .weighted key default) :
    let p : Problem α := ⟨g.toGraph, costs, source, target⟩
    let p' : Problem α := ⟨g'.toGraph, costs, source, target⟩
    p'.start = p.start ∧ (∀ s n, p.start = .ok s → p'.run n s = p.run n s) ∧ p'.search = p.search := by
  intro p p'
  obtain ⟨d, hr, rfl⟩ := reflects_of_ofSteps h
  obtain ⟨d', hr', rfl⟩ := reflects_of_ofSteps h'
  have halike := alike_of_beside hr hr' hs hm
  have htarget : (ofDraft d).toGraph.SameNode (ofDraft d').toGraph target := by
    rw [hr.toGraph, hr'.toGraph]
    exact (spares_of_beside hr hm).sameNode (hr.size_nodes ▸ ht)
  have hp : p.Agrees p' := by
    obtain rfl | ⟨key, default, rfl⟩ := hc
    · exact Problem.agrees_straightLine halike htarget
    · exact Problem.agrees_weighted halike htarget
  exact ⟨hp.start, fun s n hs => hp.run (.start hs), hp.search⟩

open Draft.Step in
noncomputable def quaySteps : List (Step ℝ) :=
  [addNode "s", addNode "t", addNode "x", addEdge "st" "s" "t" true, addEdge "xs" "x" "s" true]

-- A way to the target that is shorter than any other begins at "x".
open Draft.Step in
noncomputable def pierSteps : List (Step ℝ) :=
  [addNode "y", addEdge "xt" "x" "t" true, setEdgeNumber "xt" "weight" (-1),
    addEdge "yx" "y" "x" false, setNodeNumber "y" "x" 1]

theorem exists_quay : ∃ g, ofSteps quaySteps = .ok g := by
  simp [ofSteps, quaySteps, Builder.new, Builder.apply, Builder.build, Draft.apply, Draft.addNode,
    Draft.addEdge, Draft.knownNode, Std.HashMap.getElem_insert]

theorem exists_pier : ∃ g, ofSteps (quaySteps ++ pierSteps) = .ok g := by
  simp [ofSteps, quaySteps, pierSteps, Builder.new, Builder.apply, Builder.build, Draft.apply,
    Draft.addNode, Draft.addEdge, Draft.setEdgeNumber, Draft.setNodeNumber, Draft.checkFinite,
    Draft.knownNode, Draft.knownEdge, Scalar.isFinite, Std.HashMap.getElem_insert]

theorem quay_reachable (h : (Journal.toGraph quaySteps).Reachable 0 v) : v = 0 ∨ v = 1 := by
  have hs : (Journal.toGraph quaySteps).leavingEdges 0 = .ok [0] := rfl
  have ht : (Journal.toGraph quaySteps).leavingEdges 1 = .ok [] := rfl
  have ho : (Journal.toGraph quaySteps).opposite? 0 0 = .ok (some 1) := rfl
  induction h
  case refl => exact .inl rfl
  case tail hop ih =>
    obtain ⟨e, ⟨es, hl, he⟩, hopp⟩ := hop
    obtain rfl | rfl := ih
    · cases hs.symm.trans hl
      cases List.mem_singleton.mp he
      cases ho.symm.trans hopp
      exact .inr rfl
    · cases ht.symm.trans hl
      contradiction

theorem pier_invisible : ∃ g g', ofSteps quaySteps = .ok g ∧ ofSteps (quaySteps ++ pierSteps) = .ok g' ∧
    Problem.search ⟨g'.toGraph, .weighted "weight" 1, 0, 1⟩ =
      Problem.search ⟨g.toGraph, .weighted "weight" 1, 0, 1⟩ := by
  have ⟨g, hg⟩ := exists_quay
  have ⟨g', hg'⟩ := exists_pier
  have ⟨d, hr, hd⟩ := reflects_of_ofSteps hg
  have hgraph : g.toGraph = Journal.toGraph quaySteps := hd ▸ hr.toGraph
  have hsize : g.nodes.size = 3 := hd ▸ hr.size_nodes
  have hfind (name : String) : g.findNode? name = Journal.findNode? quaySteps name :=
    congrArg (Graph.findNode? · name) hgraph
  have hfindEdge (name : String) : g.findEdge? name = Journal.findEdge? quaySteps name :=
    congrFun (hd ▸ hr.findEdge?) name
  have hx : g.Outside (0 : Nat) "x" := by
    intro v hv hreach
    rw [hgraph] at hreach
    cases hv.symm.trans (hfind "x")
    exact absurd (quay_reachable hreach) (by decide)
  have hy : g.Outside (0 : Nat) "y" := fun v hv => by cases hv.symm.trans (hfind "y")
  have hm : ∀ step ∈ pierSteps, g.Beside (0 : Nat) step := by
    simp only [pierSteps, List.forall_mem_cons, Beside]
    exact ⟨trivial, ⟨hx, nofun⟩, hfindEdge "xt", ⟨hy, fun _ => hx⟩, hfind "y", nofun⟩
  have hs : 0 < g.nodes.size := by omega
  have ht : 1 < g.nodes.size := by omega
  have ⟨_, _, hsearch⟩ := extension_invisible hg hg' hs ht hm (.inr ⟨"weight", 1, rfl⟩)
  exact ⟨g, g', hg, hg', hsearch⟩

end Network
end BestFirst
