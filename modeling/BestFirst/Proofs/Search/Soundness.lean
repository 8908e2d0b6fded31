import BestFirst.Proofs.Search.Walks
import BestFirst.Proofs.Store.Chains
import Mathlib

namespace BestFirst

variable {α : Type}

namespace Path

def hops (path : Path α) : List (NodeIndex × EdgeIndex × NodeIndex) :=
  path.nodes.zip (path.edges.zip path.nodes.tail)

def extend [Add α] (path : Path α) (e : EdgeIndex) (v : NodeIndex) (c : α) : Path α where
  nodes := path.nodes ++ [v]
  edges := path.edges ++ [e]
  cost  := path.cost + c

-- A chain of records with all the edges between them, also those whose index stands for no edge.
def along (chain : List (Record α)) (cost : α) : Path α where
  nodes := (chain.map (·.node)).reverse
  edges := (chain.filterMap (·.edge?)).reverse
  cost  := cost

-- What is left of a path when those edges are taken out.
def named (path : Path α) : Path α :=
  { path with edges := path.edges.filter (· ≠ noEdge) }

theorem along_cons [Add α] {chain : List (Record α)} {r : Record α} {i : Nat} {e : EdgeIndex}
    {a c : α} (hp : r.parent = some i) (hv : r.via = asEdge e) :
    along (r :: chain) (a + c) = (along chain a).extend e r.node c := by
  simp [along, extend, r.edge?_eq_some hp hv]

theorem named_along {chain : List (Record α)} {c : α}
    (h : ∀ r ∈ chain, r.via = r.edge?.bind asEdge) : (along chain c).named = ofChain chain c := by
  have he (r : Record α) (hr : r ∈ chain) : r.edge?.filter (· ≠ noEdge) = r.via := by
    rw [h r hr]
    cases r.edge?
    case none   => rfl
    case some e => by_cases hn : e = noEdge <;> simp [asEdge, hn]
  simp only [named, along, ofChain, List.filter_reverse, List.filter_filterMap]
  rw [List.filterMap_congr he]

theorem hops_map_edge {path : Path α} (h : path.nodes.length = path.edges.length + 1) :
    path.hops.map (·.2.1) = path.edges := by
  have hl : (path.edges.zip path.nodes.tail).map Prod.fst = path.edges :=
    List.map_fst_zip (by simp [h])
  have hz : path.hops.map Prod.snd = path.edges.zip path.nodes.tail :=
    List.map_snd_zip (by simp [h])
  rw [← hl, ← hz, List.map_map]
  rfl

theorem hops_extend [Add α] {path : Path α} {u v : NodeIndex} {e : EdgeIndex} {c : α}
    (h : path.nodes.length = path.edges.length + 1) (hu : path.target? = some u) :
    (path.extend e v c).hops = path.hops ++ [(u, e, v)] := by
  have ⟨ns, hn⟩ := List.getLast?_eq_some_iff.mp hu
  have ⟨nodes, edges, cost⟩ := path
  obtain rfl : nodes = ns ++ [u] := hn
  have hl : ns.length = edges.length := by simpa using h
  have ht : edges.length = (ns ++ [u]).tail.length := by simp [hl]
  have hz : ns.length = (edges.zip (ns ++ [u]).tail).length := by simp [hl]
  calc (ns ++ [u] ++ [v]).zip ((edges ++ [e]).zip (ns ++ [u] ++ [v]).tail)
    _ = (ns ++ [u, v]).zip (edges.zip (ns ++ [u]).tail ++ [(e, v)]) := by
        rw [List.tail_append_of_ne_nil (by simp), List.zip_append ht, List.append_assoc]; rfl
    _ = ns.zip (edges.zip (ns ++ [u]).tail) ++ [(u, e, v)]          := by rw [List.zip_append hz]; rfl
    -- No edge leaves the last node of `path`, so it is not paired with anything.
    _ = (ns ++ [u]).zip (edges.zip (ns ++ [u]).tail) ++ [(u, e, v)] := by
        rw [← List.append_nil (edges.zip _), List.zip_append hz]; simp

end Path

namespace Problem

variable [Add α]

def spent [Zero α] (p : Problem α) (path : Path α) : Except Failure α :=
  path.hops.foldlM (fun total (u, e, v) => return total + (← p.costs.cost p.graph u e v)) 0

inductive Way [Zero α] (p : Problem α) : NodeIndex → Path α → Prop
  | source : Way p p.source ⟨[p.source], [], 0⟩
  | hop {u path e v c} : Way p u path → p.graph.Hop u e v → p.costs.cost p.graph u e v = .ok c →
    Way p v (path.extend e v c)

-- The path leads from the source to `v`, each edge from the node before it to the node after it, and
-- its cost is what its hops cost.
structure Follows [Zero α] (p : Problem α) (v : NodeIndex) (path : Path α) : Prop where
  source : path.source? = some p.source
  target : path.target? = some v
  length : path.nodes.length = path.edges.length + 1
  hops   : ∀ {i e}, path.edges[i]? = some e →
    ∃ u w, path.nodes[i]? = some u ∧ path.nodes[i + 1]? = some w ∧ p.graph.Hop u e w
  cost   : p.spent path = .ok path.cost

variable [Zero α] {p : Problem α} {v : NodeIndex} {path : Path α}

theorem Way.follows (h : p.Way v path) : p.Follows v path := by
  induction h
  case source =>
    constructor
    case source => rfl
    case target => rfl
    case length => rfl
    case hops   => simp
    case cost   => rfl
  case hop u path e v c _ hop hc ih =>
    constructor
    case source =>
      have hs : path.nodes.head? = some p.source := ih.source
      simp [Path.source?, Path.extend, hs]
    case target => simp [Path.target?, Path.extend]
    case length => simp [Path.extend, ih.length]
    case hops =>
      intro i f hf
      have ⟨ns, hn⟩ := List.getLast?_eq_some_iff.mp ih.target
      have hl := ih.length
      simp only [Path.extend, List.getElem?_append, List.getElem?_singleton] at hf ⊢
      split at hf
      case isTrue hi =>
        have ⟨w, x, hw, hx, h⟩ := ih.hops hf
        exact ⟨w, x, by grind, by grind, h⟩
      case isFalse hi =>
        obtain ⟨rfl, rfl⟩ : i = path.edges.length ∧ e = f := by grind
        exact ⟨u, v, by grind, by grind, hop⟩
    case cost =>
      have hs := ih.cost
      simp only [spent] at hs ⊢
      rw [Path.hops_extend ih.length ih.target, List.foldlM_append, hs]
      simp [hc]
      rfl

theorem Follows.named_eq (h : p.Follows v path) (hn : p.graph.Numbered) : path.named = path := by
  have he (e : EdgeIndex) (he : e ∈ path.edges) : decide (e ≠ noEdge) := by
    have ⟨i, hi⟩ := List.mem_iff_getElem?.mp he
    have ⟨_, _, _, _, hop⟩ := h.hops hi
    exact decide_eq_true (hn hop)
  rw [Path.named, List.filter_eq_self.mpr he]

theorem Follows.weight_eq {key : String} {default : α} (h : p.Follows v path)
    (hc : p.costs = .weighted key default) : path.weight p.graph key default = .ok path.cost := by
  rw [← h.cost, Path.weight, spent, ← Path.hops_map_edge h.length, List.foldlM_map, hc]
  simp [Costs.weighted]

variable [LE α] [DecidableLE α] {ph : Phase α} {s : State α} {i : Nat} {r : Record α}

theorem Visits.way (h : p.Visits ph s) (hr : s.store.record? i = some r) :
    p.Way r.node (.along (s.store.arena.chain i) r.g) := by
  refine h.record_induction
    (P := fun i r => p.Way r.node (.along (s.store.arena.chain i) r.g)) ?root ?proposed hr
  case root =>
    intro i x hi _
    rw [Arena.chain_of_parent_eq_none hi rfl]
    exact .source
  case proposed =>
    intro i r e j t hi hw hj hop hp
    have ⟨c, hc, hg⟩ := hp.cost
    rw [Arena.chain_of_parent_eq_some hj hp.parent, hg, Path.along_cons hp.parent hp.via]
    exact hw.hop hop hc

theorem Visits.named_along (h : p.Visits ph s) (c : α) :
    (Path.along (s.store.arena.chain i) c).named = .ofChain (s.store.arena.chain i) c := by
  refine Path.named_along fun r hr => ?_
  obtain ⟨j, hj⟩ := Arena.exists_of_mem_chain hr
  refine h.record_induction (P := fun _ r => r.via = r.edge?.bind asEdge) ?root ?proposed hj
  case root     => exact fun _ _ => rfl
  case proposed =>
    intro i r e j t _ _ _ _ hp
    rw [t.edge?_eq_some hp.parent hp.via]
    exact hp.via

-- The path that is found is a walk to the target without those edges that have no index.
theorem Finds.exists_along (h : p.Finds path) : ∃ xs s i r, p.Visits (.choosing xs) s ∧
    s.store.IsOpen i r ∧ p.Follows p.target (.along (s.store.arena.chain i) r.g) ∧
    (Path.along (s.store.arena.chain i) r.g).named = path := by
  obtain ⟨xs, s, i, r, hs, hb, hn, rfl⟩ := h.reaches
  have hi := Store.isOpen_of_best hb
  have hw := hs.visits.way hi.record
  exact ⟨xs, s, i, r, hs.visits, hi, (hn ▸ hw).follows, hs.visits.named_along r.g⟩

theorem Finds.path_follows (h : p.Finds path) (hn : p.graph.Numbered) :
    p.Follows p.target path ∧ ∀ key default, p.costs = .weighted key default →
      path.weight p.graph key default = .ok path.cost := by
  obtain ⟨_, _, _, _, _, _, hf, rfl⟩ := h.exists_along
  rw [hf.named_eq hn]
  exact ⟨hf, fun _ _ => hf.weight_eq⟩

-- The way by node 2 to node 1 is the cheaper one, but it is found later.
def detour : Problem Int where
  graph  := Network.toGraph <| .ofDraft {
    nodes := #[{ id := "s" }, { id := "a" }, { id := "b" }, { id := "t" }]
    edges := #[
      { id := "sa", source := 0, target := 1, directed := true, numbers := {("weight", 3)} },
      { id := "sb", source := 0, target := 2, directed := true, numbers := {("weight", 4)} },
      { id := "ba", source := 2, target := 1, directed := true, numbers := {("weight", -2)} },
      { id := "at", source := 1, target := 3, directed := true, numbers := {("weight", 5)} }] }
  costs  := .standard
  source := 0
  target := 3

theorem detour_follows :
    let path : Path Int := ⟨[0, 2, 1, 3], [1, 2, 3], 7⟩
    detour.Finds path ∧ detour.Follows 3 path ∧ path.weight detour.graph "weight" 1 = .ok 7 :=
  have h : detour.Finds ⟨[0, 2, 1, 3], [1, 2, 3], 7⟩ := .of_search (by cbv)
  have ⟨hf, hw⟩ := h.path_follows (Network.numbered _)
  ⟨h, hf, hw _ _ rfl⟩

end Problem
end BestFirst
