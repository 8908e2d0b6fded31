import BestFirst.Proofs.Network.Reflection

namespace BestFirst

variable {α : Type}

namespace Journal

open Draft (Step)

variable {log : List (Step α)} {d : Draft α} {id : String} {u : Nat}

section Entries

variable {β γ : Type} {xs : List β} {i : Int} {failure : Failure}

theorem map_entryAt {f : β → γ} : f <$> entryAt xs i failure = entryAt (xs.map f) i failure := by
  simp only [entryAt]
  cases i.toNat?
  case none   => rfl
  case some k => cases hk : xs[k]? <;> simp [hk]

theorem entryAt_eq_ok_iff {x : β} :
    entryAt xs i failure = .ok x ↔ ∃ k : Nat, i = k ∧ xs[k]? = some x := by
  simp only [← Int.mem_toNat?, ← Option.bind_eq_some_iff, entryAt]
  cases i.toNat?.bind (xs[·]?) <;> simp

theorem mem_of_entryAt {x : β} (h : entryAt xs i failure = .ok x) : x ∈ xs := by
  obtain ⟨_, _, hk⟩ := entryAt_eq_ok_iff.mp h
  exact List.mem_of_getElem? hk

theorem nodeAt_eq (u : NodeIndex) : d.nodeAt u = entryAt d.nodes.toList u (.nodeOutOfRange u) := by
  simp only [Draft.nodeAt, entryAt, Array.getElem?_toList]
  cases u.toNat?.bind (d.nodes[·]?) <;> rfl

theorem edgeAt_eq (e : EdgeIndex) : d.edgeAt e = entryAt d.edges.toList e (.edgeOutOfRange e) := by
  simp only [Draft.edgeAt, entryAt, Array.getElem?_toList]
  cases e.toNat?.bind (d.edges[·]?) <;> rfl

end Entries

variable [Scalar α]

namespace Reflects

variable (h : Reflects log d)
include h

theorem node_id (u : NodeIndex) : (·.id) <$> d.nodeAt u = node log u := by
  rw [nodeAt_eq, map_entryAt, h.ids, node]

-- What does not depend on the numbers of an edge depends on how it was drawn.
theorem map_edge {β : Type} {f : Edge α → β} (hf : ∀ edge, f edge.bare = f edge) (e : EdgeIndex) :
    f <$> d.edgeAt e = (fun l => f (drawn log l)) <$> link log e := by
  have hbare : d.edges.toList.map f = (links log).map fun l => f (drawn log l) := by
    have hl := congrArg (List.map f) h.edges
    simpa only [List.map_map, Function.comp_def, hf] using hl
  rw [edgeAt_eq, map_entryAt, hbare, link, map_entryAt]

theorem map_node {β : Type} {f : Node α → β} {f' : String → β} (u : NodeIndex)
    (hf : ∀ node ∈ d.nodes, f node = f' node.id) : f <$> d.nodeAt u = f' <$> node log u := by
  have hcongr : f <$> d.nodeAt u = (fun node => f' node.id) <$> d.nodeAt u := by
    refine Except.map_congr fun node hn => hf node ?_
    have ⟨_, _, hk⟩ := Draft.nodeAt_eq_ok_iff.mp hn
    exact Array.mem_of_getElem? hk
  rw [hcongr, ← h.node_id, Functor.map_map]

theorem place_eq_iff {s : String} (hu : (nodeIds log)[u]? = some id) :
    u = (nodeIds log).idxOf s ↔ id = s := by
  have hn := h.sound.nodup_nodeIds
  rw [← idxOf_eq_of_idxOf? hn ((idxOf?_eq_some_iff hn).mpr hu)]
  exact List.idxOf_inj (List.mem_of_getElem? hu)

theorem inRow_entries (hu : (nodeIds log)[u]? = some id) :
    Rows.inRow d.entries u = leaving log id := by
  have hbare : (d.edges.toList.zipIdx.filter (u ∈ ·.1.leaves)).map (·.2) =
      ((d.edges.toList.map Edge.bare).zipIdx.filter (u ∈ ·.1.leaves)).map (·.2) := by
    simp only [List.zipIdx_map, List.filter_map, List.map_map]
    rfl
  have hleaves (l : Link) : u ∈ (drawn log l).leaves ↔ l.Leaves id := by
    simp only [Edge.mem_leaves, drawn, h.place_eq_iff hu, Link.Leaves]
  rw [Draft.inRow_entries, hbare, h.edges]
  simp [leaving, List.zipIdx_map, List.filter_map, Function.comp_def, hleaves]

theorem map_inRow_entries :
    (List.range d.nodes.size).map (Rows.inRow d.entries) = (nodeIds log).map (leaving log) := by
  refine List.ext_getElem? fun u => ?_
  by_cases hu : u < (nodeIds log).length
  case pos =>
    simp [h.size_nodes, hu, h.inRow_entries (List.getElem?_eq_getElem hu)]
  case neg => simp [h.size_nodes, hu]

theorem leavingEdges (u : NodeIndex) : (Network.ofDraft d).leavingEdges u =
    (fun id => (leaving log id).map fun e : Nat => (e : EdgeIndex)) <$> node log u := by
  have hnode := h.node_id u
  cases hu : d.nodeAt u
  case error f =>
    rw [hu] at hnode
    rw [← hnode, Network.leavingEdges, Network.ofDraft, hu]
    rfl
  case ok x =>
    obtain ⟨k, rfl, hk⟩ := Draft.nodeAt_eq_ok_iff.mp hu
    have hid : (nodeIds log)[k]? = some x.id := by simp [← h.ids, hk]
    obtain ⟨hlt, _⟩ := Array.getElem?_eq_some_iff.mp hk
    rw [Network.leavingEdges_ofDraft h.valid hlt, h.inRow_entries hid, ← hnode, hu]
    rfl

theorem rows : (Network.ofDraft d).rows = Journal.rows log := by
  have hsizes : (Rows.sizes d.nodes.size d.entries).toList =
      (nodeIds log).map fun id => (leaving log id).length := by
    have hl := congrArg (List.map List.length) h.map_inRow_entries
    simpa [Rows.sizes_toList, Function.comp_def] using hl
  have hitems : (Rows.ofEntries d.nodes.size d.entries).items.toList =
      (nodeIds log).flatMap (leaving log) := by
    rw [Rows.items_toList fun x hx => h.valid.row_lt hx, List.flatMap_def, h.map_inRow_entries,
      ← List.flatMap_def]
  rw [Network.ofDraft, Journal.rows, ← hsizes, ← hitems, Array.toArray_toList]
  rfl

theorem toGraph : (Network.ofDraft d).toGraph = Journal.toGraph log := by
  simp only [Network.toGraph, Journal.toGraph, Graph.mk.injEq]
  refine ⟨h.size_nodes, h.size_edges, ?findNode, ?nodeId, ?edgeId, ?leavingEdges, ?endpoints,
    ?isDirected, ?nodeNumber, ?edgeNumber, ?nodeVector⟩
  case findNode =>
    funext id
    rw [Draft.findNode?, Journal.findNode?, ← h.nodeIndex]
    rfl
  case nodeId => exact funext h.node_id
  case edgeId       => exact funext (h.map_edge fun _ => rfl)
  case leavingEdges => exact funext h.leavingEdges
  case endpoints    => exact funext (h.map_edge fun _ => rfl)
  case isDirected   => exact funext (h.map_edge fun _ => rfl)
  case nodeNumber   => exact funext₂ fun u key => h.map_node u fun node hn => h.numbers node hn key
  case edgeNumber =>
    funext e key
    have hcongr : (·.numbers[key]?) <$> d.edgeAt e =
        (fun edge => latest? (edgeNumbers log) edge.id key) <$> d.edgeAt e :=
      Except.map_congr fun edge he => h.weights edge (Draft.mem_of_edgeAt he) key
    exact hcongr.trans (h.map_edge (fun _ => rfl) e)
  case nodeVector =>
    refine funext₂ fun u key => h.map_node u fun node hn => ?_
    rw [Std.HashMap.getD_eq_getD_getElem?, h.vectors node hn key]

theorem findEdge? : (Network.ofDraft d).findEdge? = Journal.findEdge? log := by
  funext id
  rw [Draft.findEdge?, Journal.findEdge?, ← h.edgeIndex]
  rfl

end Reflects

section Inverse

variable {ids : List String} {i : Int} {failure : Failure}

theorem idxOf?_eq_some_iff_entryAt (hi : ids.Nodup) :
    ((ids.idxOf? id).map fun u : Nat => (u : Int)) = some i ↔ entryAt ids i failure = .ok id := by
  simp only [Option.map_eq_some_iff, idxOf?_eq_some_iff hi, entryAt_eq_ok_iff]
  constructor
  case mp  => exact fun ⟨u, hu, hi⟩ => ⟨u, hi.symm, hu⟩
  case mpr => exact fun ⟨u, hi, hu⟩ => ⟨u, hu, hi.symm⟩

theorem Sound.findNode?_eq_some_iff {u : NodeIndex} (h : Sound log) :
    findNode? log id = some u ↔ (toGraph log).nodeId u = .ok id :=
  idxOf?_eq_some_iff_entryAt h.nodup_nodeIds

theorem Sound.findEdge?_eq_some_iff {e : EdgeIndex} (h : Sound log) :
    findEdge? log id = some e ↔ (toGraph log).edgeId e = .ok id := by
  have hid : (toGraph log).edgeId e = entryAt (edgeIds log) e (.edgeOutOfRange e) := map_entryAt
  rw [hid]
  exact idxOf?_eq_some_iff_entryAt h.nodup_edgeIds

end Inverse

section Finite

variable {u : NodeIndex} {e : EdgeIndex} {key : String} {x : α}

theorem Sound.finite_nodeNumber (h : Sound log)
    (hx : (toGraph log).nodeNumber? u key = .ok (some x)) : Scalar.isFinite x := by
  have ⟨_, _, hl⟩ := Except.map_eq_ok_iff.mp hx
  exact (h.nodeNumber _ (mem_of_latest? hl)).right

theorem Sound.finite_edgeNumber (h : Sound log)
    (hx : (toGraph log).edgeNumber? e key = .ok (some x)) : Scalar.isFinite x := by
  have ⟨_, _, hl⟩ := Except.map_eq_ok_iff.mp hx
  exact (h.edgeNumber _ (mem_of_latest? hl)).right

theorem Sound.finite_nodeVector {xs : List α} (h : Sound log)
    (hxs : (toGraph log).nodeVector u key = .ok xs) (hx : x ∈ xs) : Scalar.isFinite x := by
  obtain ⟨id, _, rfl⟩ := Except.map_eq_ok_iff.mp hxs
  cases hl : latest? (nodeVectors log) id key
  case none    => simp [hl] at hx
  case some ys =>
    rw [hl] at hx
    exact (h.nodeVector _ (mem_of_latest? hl)).right x hx

end Finite

-- The network answers what the journal answers. Names and indices belong together, and all values that
-- are to be read off it are finite.
structure Portrayed (log : List (Step α)) (g : Network α) : Prop where
  graph      : g.toGraph = toGraph log
  findEdge   : g.findEdge? = findEdge? log
  rows       : g.rows = rows log
  nodes      : ∀ u id, g.toGraph.findNode? id = some u ↔ g.toGraph.nodeId u = .ok id
  edges      : ∀ e id, g.findEdge? id = some e ↔ g.toGraph.edgeId e = .ok id
  nodeNumber : ∀ u key x, g.toGraph.nodeNumber? u key = .ok (some x) → Scalar.isFinite x
  nodeVector : ∀ u key xs, g.toGraph.nodeVector u key = .ok xs → ∀ x ∈ xs, Scalar.isFinite x
  edgeNumber : ∀ e key x, g.toGraph.edgeNumber? e key = .ok (some x) → Scalar.isFinite x

theorem Reflects.portrayed (h : Reflects log d) : Portrayed log (.ofDraft d) where
  graph    := h.toGraph
  findEdge := h.findEdge?
  rows     := h.rows
  nodes _ _ := by
    rw [h.toGraph]
    exact h.sound.findNode?_eq_some_iff
  edges _ _ := by
    rw [h.findEdge?, h.toGraph]
    exact h.sound.findEdge?_eq_some_iff
  nodeNumber _ _ _ hx       := h.sound.finite_nodeNumber (h.toGraph ▸ hx)
  nodeVector _ _ _ hxs _ hx := h.sound.finite_nodeVector (h.toGraph ▸ hxs) hx
  edgeNumber _ _ _ hx       := h.sound.finite_edgeNumber (h.toGraph ▸ hx)

end Journal

namespace Workshop

open Draft (Step)
open Journal (Reflects)

variable [Scalar α] {log steps : List (Step α)} {d : Draft α} {g : Network α}

def taken (w : Workshop α) : List (Step α) → List (Step α)
  | []            => []
  | step :: steps =>
    if (w.handle (.step step)).1.isOk then
      step :: taken (w.handle (.step step)).2 steps
    else
      taken (w.handle (.step step)).2 steps

theorem handle_step (network? : Option (Network α)) (h : Reflects log d) (step : Step α) :
    (∃ i? d', handle ⟨.collecting d, network?⟩ (.step step) = (.ok i?, ⟨.collecting d', network?⟩) ∧
      Journal.Admits log step ∧ i? = Journal.number? log step ∧ Reflects (log ++ [step]) d') ∨
    ∃ cause, handle ⟨.collecting d, network?⟩ (.step step) =
      (.error (.refused step.call cause), ⟨.collecting d, network?⟩) ∧
      Journal.Objection log step cause := by
  cases hs : d.apply step
  case ok x =>
    obtain ⟨i?, d'⟩ := x
    exact .inl ⟨i?, d', by simp [handle, Builder.apply, hs], h.apply hs⟩
  case error cause =>
    exact .inr ⟨cause, by simp [handle, Builder.apply, hs], h.objection hs⟩

theorem after_steps {network? : Option (Network α)} (h : Reflects log d) : ∃ d',
    after ⟨.collecting d, network?⟩ (steps.map .step) = ⟨.collecting d', network?⟩ ∧
      Reflects (log ++ taken ⟨.collecting d, network?⟩ steps) d' := by
  induction steps generalizing log d
  case nil => exact ⟨d, rfl, by simpa [taken] using h⟩
  case cons step steps ih =>
    obtain ⟨i?, d₁, hh, _, _, h₁⟩ | ⟨cause, hh, _⟩ := handle_step network? h step
    · have ⟨d', hd', h'⟩ := ih h₁
      refine ⟨d', ?_, ?_⟩
      · rw [List.map_cons, after, List.foldl_cons, hh]
        exact hd'
      · rw [List.append_assoc] at h'
        simpa [taken, hh, Except.isOk, Except.toBool] using h'
    · have ⟨d', hd', h'⟩ := ih h
      refine ⟨d', ?_, ?_⟩
      · rw [List.map_cons, after, List.foldl_cons, hh]
        exact hd'
      · rw [taken, hh]
        exact h'

section Answers

variable {w : Workshop α} {f : Failure} {i? : Option Nat} {step : Step α}
  (h : Reflects log d) (hw : w.builder = .collecting d)
include h hw

theorem fails_iff : (∃ f, (w.handle (.step step)).1 = .error f ∧ f.kind = .value) ↔
    ∃ cause, Journal.Objection log step cause := by
  obtain ⟨_, network?⟩ := w
  cases hw
  obtain ⟨i?, _, hh, ha, _⟩ | ⟨cause, hh, ho⟩ := handle_step network? h step
  · rw [hh]
    exact ⟨by simp, fun ⟨cause, ho⟩ => absurd ho (ha cause)⟩
  · rw [hh]
    exact ⟨fun _ => ⟨cause, ho⟩, fun _ => ⟨_, rfl, ho.kind⟩⟩

theorem of_handle_eq_error (hf : (w.handle (.step step)).1 = .error f) :
    (w.handle (.step step)).2 = w ∧ f.kind = .value ∧
      ∃ cause, f = .refused step.call cause ∧ Journal.Objection log step cause := by
  obtain ⟨_, network?⟩ := w
  cases hw
  obtain ⟨i?, _, hh, _⟩ | ⟨cause, hh, ho⟩ := handle_step network? h step
  all_goals rw [hh] at hf ⊢
  · contradiction
  · cases hf
    exact ⟨rfl, ho.kind, cause, rfl, ho⟩

theorem of_handle_eq_ok (hi : (w.handle (.step step)).1 = .ok i?) : i? = Journal.number? log step := by
  obtain ⟨_, network?⟩ := w
  cases hw
  obtain ⟨_, _, hh, _, hn, _⟩ | ⟨cause, hh, _⟩ := handle_step network? h step
  all_goals rw [hh] at hi
  · cases hi
    exact hn
  · contradiction

end Answers

theorem handle_consumed (request : Request α) :
    handle ⟨.consumed, some g⟩ request = (.error (.refused request.call .consumed), ⟨.consumed, some g⟩) := by
  cases request <;> rfl

theorem after_consumed (requests : List (Request α)) :
    after ⟨.consumed, some g⟩ requests = ⟨.consumed, some g⟩ := by
  induction requests
  case nil => rfl
  case cons request requests ih =>
    rw [after, List.foldl_cons, handle_consumed]
    exact ih

-- After any steps, whether taken or turned down: a further step fails for a reason that the journal bears
-- out and for no other, and then changes nothing. The network that is built is the one that the journal
-- of the steps that were taken describes. After that all calls fail, and the network stays what it is.
theorem refines_journal (steps : List (Step α)) (requests : List (Request α)) :
    let w : Workshop α := after {} (steps.map .step)
    let log := taken {} steps
    (∀ step, (∃ f, (w.handle (.step step)).1 = .error f ∧ f.kind = .value) ↔
      ∃ cause, Journal.Objection log step cause) ∧
    (∀ step f, (w.handle (.step step)).1 = .error f → (w.handle (.step step)).2 = w ∧ f.kind = .value ∧
      ∃ cause, f = .refused step.call cause ∧ Journal.Objection log step cause) ∧
    (∀ step i?, (w.handle (.step step)).1 = .ok i? → i? = Journal.number? log step) ∧
    ∃ g, w.handle .build = (.ok none, { builder := .consumed, network? := some g }) ∧
      Journal.Portrayed log g ∧
      let w' := after (w.handle .build).2 requests
      w'.network? = some g ∧ ∀ request, ∃ f, w'.handle request = (.error f, w') ∧ f.kind = .runtime := by
  intro w log
  obtain ⟨d, hd, h⟩ : ∃ d, w = ⟨.collecting d, none⟩ ∧ Reflects log d :=
    after_steps Journal.reflects_empty
  have hw : w.builder = .collecting d := congrArg builder hd
  have hbuild : w.handle .build = (.ok none, ⟨.consumed, some (.ofDraft d)⟩) := by rw [hd]; rfl
  have hrest : after (w.handle .build).2 requests = ⟨.consumed, some (.ofDraft d)⟩ := by
    rw [hbuild, after_consumed]
  refine ⟨fun _ => fails_iff h hw, fun _ _ => of_handle_eq_error h hw, fun _ _ => of_handle_eq_ok h hw,
    .ofDraft d, hbuild, h.portrayed, congrArg network? hrest, fun request => ?_⟩
  rw [hrest]
  exact ⟨_, handle_consumed request, rfl⟩

end Workshop
end BestFirst
