import BestFirst.Proofs.Network.Adjacency
import BestFirst.Proofs.Network.Journal

namespace BestFirst

variable {α : Type}

def Edge.bare (edge : Edge α) : Edge α :=
  { edge with numbers := ∅ }

namespace Draft

variable {d : Draft α} {id key : String} {u e : Nat} {cause : Refusal}

theorem knownNode_eq_ok_iff : d.knownNode id = .ok u ↔ d.nodeIndex[id]? = some u := by
  rw [knownNode]
  cases d.nodeIndex[id]? <;> simp

theorem knownNode_eq_error_iff :
    d.knownNode id = .error cause ↔ d.nodeIndex[id]? = none ∧ cause = .unknownNode id := by
  rw [knownNode]
  cases d.nodeIndex[id]? <;> simp [eq_comm]

theorem knownEdge_eq_ok_iff : d.knownEdge id = .ok e ↔ d.edgeIndex[id]? = some e := by
  rw [knownEdge]
  cases d.edgeIndex[id]? <;> simp

theorem knownEdge_eq_error_iff :
    d.knownEdge id = .error cause ↔ d.edgeIndex[id]? = none ∧ cause = .unknownEdge id := by
  rw [knownEdge]
  cases d.edgeIndex[id]? <;> simp [eq_comm]

variable [Scalar α] {xs : List α}

theorem checkFinite_eq_ok_iff {v : Unit} :
    checkFinite key xs = .ok v ↔ ∀ x ∈ xs, Scalar.isFinite x := by
  simp [checkFinite]

theorem checkFinite_eq_error_iff :
    checkFinite key xs = .error cause ↔ (∃ x ∈ xs, ¬Scalar.isFinite x) ∧ cause = .notFinite key := by
  rw [checkFinite, @eq_comm _ cause]
  split <;> simp_all

end Draft

namespace Journal

open Draft (Step)

variable {log : List (Step α)} {d d' : Draft α} {step : Step α} {id name key : String} {u k e : Nat}

def drawn (log : List (Step α)) (l : Link) : Edge α where
  id       := l.id
  source   := (nodeIds log).idxOf l.source
  target   := (nodeIds log).idxOf l.target
  directed := l.directed

section Indices

variable {ids : List String}

theorem idxOf?_eq_some_iff (hi : ids.Nodup) : ids.idxOf? id = some u ↔ ids[u]? = some id := by
  rw [List.idxOf?_eq_some_iff]
  constructor
  case mp =>
    intro ⟨hu, hid, _⟩
    rw [List.getElem?_eq_getElem hu, hid]
  case mpr =>
    intro hid
    have ⟨hu, hid⟩ := List.getElem?_eq_some_iff.mp hid
    refine ⟨hu, hid, fun j hj heq => ?_⟩
    have hju := hi.getElem_inj_iff.mp (heq.trans hid.symm)
    omega

theorem idxOf_eq_of_idxOf? (hi : ids.Nodup) (h : ids.idxOf? id = some u) : ids.idxOf id = u := by
  have ⟨hu, hid⟩ := List.getElem?_eq_some_iff.mp ((idxOf?_eq_some_iff hi).mp h)
  rw [← hid, hi.idxOf_getElem]

theorem eq_iff_of_idxOf? (hi : ids.Nodup) (hu : ids.idxOf? name = some u) (hk : ids[k]? = some id) :
    id = name ↔ u = k := by
  rw [idxOf?_eq_some_iff hi] at hu
  have ⟨hlt, _⟩ := List.getElem?_eq_some_iff.mp hu
  rw [← List.getElem?_inj hlt hi, hu, hk, Option.some_inj, eq_comm]

end Indices

section Tables

variable {β γ : Type} {xs : Array γ} {x : γ} {f : γ → γ} {nameOf : γ → String}
  {table : γ → Std.HashMap String β} {settings : List (Setting β)} {value : β}

theorem map_toList_modify {g : γ → β} (h : ∀ x, g (f x) = g x) :
    (xs.modify u f).toList.map g = xs.toList.map g := by
  refine List.ext_getElem? fun k => ?_
  simp only [List.getElem?_map, Array.getElem?_toList, Array.getElem?_modify]
  split
  case isTrue  => simp [Function.comp_def, h]
  case isFalse => rfl

theorem exists_of_mem_modify {y : γ} (hy : y ∈ xs.modify u f) :
    (∃ x, xs[u]? = some x ∧ f x = y) ∨ ∃ k, u ≠ k ∧ xs[k]? = some y := by
  have ⟨k, hk⟩ := Array.mem_iff_getElem?.mp hy
  rw [Array.getElem?_modify] at hk
  split at hk
  case isTrue heq  => exact .inl (heq ▸ Option.map_eq_some_iff.mp hk)
  case isFalse hne => exact .inr ⟨k, hne, hk⟩

def Holds (xs : Array γ) (nameOf : γ → String) (table : γ → Std.HashMap String β)
    (settings : List (Setting β)) : Prop :=
  ∀ x ∈ xs, ∀ key, (table x)[key]? = latest? settings (nameOf x) key

theorem Holds.push {names : List String} (h : Holds xs nameOf table settings) (ht : table x = ∅)
    (hs : ∀ y ∈ settings, y.1.1 ∈ names) (hx : nameOf x ∉ names) :
    Holds (xs.push x) nameOf table settings := by
  intro y hy key
  obtain hy | rfl := Array.mem_push.mp hy
  · exact h y hy key
  · rw [ht, Std.HashMap.getElem?_empty]
    cases hl : latest? settings (nameOf y) key
    case none   => rfl
    case some v => exact absurd (hs _ (mem_of_latest? hl)) hx

theorem Holds.modify (h : Holds xs nameOf table settings) (hf : ∀ x, nameOf (f x) = nameOf x)
    (ht : ∀ x, table (f x) = table x) : Holds (xs.modify u f) nameOf table settings := by
  intro y hy key'
  obtain ⟨x, hx, rfl⟩ | ⟨k, _, hk⟩ := exists_of_mem_modify hy
  · rw [hf, ht]
    exact h x (Array.mem_of_getElem? hx) key'
  · exact h y (Array.mem_of_getElem? hk) key'

theorem Holds.set (h : Holds xs nameOf table settings) (hf : ∀ x, nameOf (f x) = nameOf x)
    (ht : ∀ x, table (f x) = (table x).insert key value)
    (hu : ∀ {k x}, xs[k]? = some x → (nameOf x = name ↔ u = k)) :
    Holds (xs.modify u f) nameOf table (settings ++ [((name, key), value)]) := by
  intro y hy key'
  obtain ⟨x, hx, rfl⟩ | ⟨k, hne, hk⟩ := exists_of_mem_modify hy
  · have hid : nameOf x = name := (hu hx).mpr rfl
    have hold := h x (Array.mem_of_getElem? hx) key'
    rw [hid] at hold
    simp [latest?_concat, hf, ht, hid, Std.HashMap.getElem?_insert, hold]
  · have hid : name ≠ nameOf y := fun hid => hne ((hu hk).mp hid.symm)
    simpa [latest?_concat, hid] using h y (Array.mem_of_getElem? hk) key'

end Tables

variable [Scalar α]

theorem Sound.drawn_concat {l : Link} (h : Sound log) (hl : l ∈ links log) :
    drawn (log ++ [step]) l = drawn log l := by
  have ⟨hs, ht⟩ := h.ends l hl
  simp only [drawn, nodeIds_concat, List.idxOf_append_of_mem hs, List.idxOf_append_of_mem ht]

theorem Sound.map_drawn_concat (h : Sound log) :
    (links log).map (drawn (log ++ [step])) = (links log).map (drawn log) :=
  List.map_congr_left fun _ hl => h.drawn_concat hl

-- Whatever is looked up in the draft, by name or by index, is what the journal says.
structure Reflects (log : List (Step α)) (d : Draft α) : Prop where
  sound      : Sound log
  valid      : d.Valid
  ids        : d.nodes.toList.map (·.id) = nodeIds log
  edges      : d.edges.toList.map Edge.bare = (links log).map (drawn log)
  nodeIndex  : ∀ id, d.nodeIndex[id]? = (nodeIds log).idxOf? id
  edgeIndex  : ∀ id, d.edgeIndex[id]? = (edgeIds log).idxOf? id
  numbers    : Holds d.nodes (·.id) (·.numbers) (nodeNumbers log)
  vectors    : Holds d.nodes (·.id) (·.vectors) (nodeVectors log)
  weights    : Holds d.edges (·.id) (·.numbers) (edgeNumbers log)

theorem reflects_empty : Reflects ([] : List (Step α)) {} where
  sound           := sound_nil
  valid           := Draft.valid_empty
  ids             := rfl
  edges           := rfl
  nodeIndex _     := by simp [nodeIds]
  edgeIndex _     := by simp [edgeIds, links]
  numbers _ hm    := by simp at hm
  vectors _ hm    := by simp at hm
  weights _ hm    := by simp at hm

namespace Reflects

variable (h : Reflects log d)
include h

theorem mem_nodeIndex : id ∈ d.nodeIndex ↔ id ∈ nodeIds log := by
  rw [Std.HashMap.mem_iff_isSome_getElem?, h.nodeIndex, List.isSome_idxOf?]

theorem mem_edgeIndex : id ∈ d.edgeIndex ↔ id ∈ edgeIds log := by
  rw [Std.HashMap.mem_iff_isSome_getElem?, h.edgeIndex, List.isSome_idxOf?]

theorem nodeIndex_eq_none : d.nodeIndex[id]? = none ↔ id ∉ nodeIds log := by
  rw [h.nodeIndex, List.idxOf?_eq_none_iff]

theorem edgeIndex_eq_none : d.edgeIndex[id]? = none ↔ id ∉ edgeIds log := by
  rw [h.edgeIndex, List.idxOf?_eq_none_iff]

theorem objection {cause : Refusal} (he : d.apply step = .error cause) : Objection log step cause := by
  cases step
  all_goals
    simp only [Draft.apply, Except.map_eq_error_iff] at he
  case addNode id =>
    rw [Draft.addNode] at he
    split at he
    case isTrue hm =>
      cases he
      exact .duplicateNode (h.mem_nodeIndex.mp hm)
    case isFalse => contradiction
  case addEdge id source target directed =>
    rw [Draft.addEdge] at he
    split at he
    case isTrue hm =>
      cases he
      exact .duplicateEdge (h.mem_edgeIndex.mp hm)
    case isFalse =>
      simp only [Except.bind_eq_error_iff, Draft.knownNode_eq_error_iff] at he
      obtain ⟨hs, rfl⟩ | ⟨_, _, ⟨ht, rfl⟩ | ⟨_, _, ⟨⟩⟩⟩ := he
      · exact .unknownSource (h.nodeIndex_eq_none.mp hs)
      · exact .unknownTarget (h.nodeIndex_eq_none.mp ht)
  case setNodeNumber node key value =>
    simp only [Draft.setNodeNumber, Except.bind_eq_error_iff, Draft.checkFinite_eq_error_iff,
      Draft.knownNode_eq_error_iff] at he
    obtain ⟨⟨x, hx, hf⟩, rfl⟩ | ⟨_, _, ⟨hu, rfl⟩ | ⟨_, _, ⟨⟩⟩⟩ := he
    · exact .nodeNumber (List.mem_singleton.mp hx ▸ hf)
    · exact .unknownNumbered (h.nodeIndex_eq_none.mp hu)
  case setNodeVector node key values =>
    simp only [Draft.setNodeVector, Except.bind_eq_error_iff, Draft.checkFinite_eq_error_iff,
      Draft.knownNode_eq_error_iff] at he
    obtain ⟨hf, rfl⟩ | ⟨_, _, ⟨hu, rfl⟩ | ⟨_, _, ⟨⟩⟩⟩ := he
    · exact .nodeVector hf
    · exact .unknownVectored (h.nodeIndex_eq_none.mp hu)
  case setEdgeNumber edge key value =>
    simp only [Draft.setEdgeNumber, Except.bind_eq_error_iff, Draft.checkFinite_eq_error_iff,
      Draft.knownEdge_eq_error_iff] at he
    obtain ⟨⟨x, hx, hf⟩, rfl⟩ | ⟨_, _, ⟨hu, rfl⟩ | ⟨_, _, ⟨⟩⟩⟩ := he
    · exact .edgeNumber (List.mem_singleton.mp hx ▸ hf)
    · exact .unknownEdge (h.edgeIndex_eq_none.mp hu)

theorem size_nodes : d.nodes.size = (nodeIds log).length := by
  rw [← h.ids, List.length_map, Array.length_toList]

theorem size_edges : d.edges.size = (links log).length := by
  rw [← Array.length_toList, ← List.length_map Edge.bare, h.edges, List.length_map]

theorem edge_ids : d.edges.toList.map (·.id) = edgeIds log := by
  have he := congrArg (List.map (·.id)) h.edges
  rwa [List.map_map, List.map_map] at he

theorem node_id_eq_iff {node : Node α} (hu : d.nodeIndex[name]? = some u) (hk : d.nodes[k]? = some node) :
    node.id = name ↔ u = k :=
  eq_iff_of_idxOf? h.sound.nodup_nodeIds (h.nodeIndex name ▸ hu) (by simp [← h.ids, hk])

theorem edge_id_eq_iff {edge : Edge α} (hu : d.edgeIndex[name]? = some u) (hk : d.edges[k]? = some edge) :
    edge.id = name ↔ u = k :=
  eq_iff_of_idxOf? h.sound.nodup_edgeIds (h.edgeIndex name ▸ hu) (by simp [← h.edge_ids, hk])

theorem addNode (hok : d.addNode id = .ok (u, d')) :
    Admits log (.addNode id) ∧ u = (nodeIds log).length ∧ Reflects (log ++ [.addNode id]) d' := by
  have hvalid := h.valid.addNode hok
  rw [Draft.addNode] at hok
  split at hok
  case isTrue => contradiction
  case isFalse hm =>
    rw [h.mem_nodeIndex] at hm
    obtain ⟨rfl, rfl⟩ := Prod.mk.inj (Except.ok.inj hok)
    have ha : Admits log (.addNode id) := by
      rintro _ ⟨hid⟩
      exact hm hid
    refine ⟨ha, h.size_nodes, h.sound.concat ha, hvalid, ?ids, ?edges, ?nodeIndex, ?edgeIndex,
      ?numbers, ?vectors, ?weights⟩
    case ids => simp [h.ids, nodeId?]
    case edges => simp [link?, h.edges, h.sound.map_drawn_concat]
    case nodeIndex =>
      simp [nodeId?, idxOf?_concat hm, Std.HashMap.getElem?_insert, h.nodeIndex, h.size_nodes]
    case edgeIndex => simpa [link?] using h.edgeIndex
    case numbers =>
      simp only [nodeNumbers_concat, nodeNumber?, Option.toList, List.append_nil]
      exact h.numbers.push (by rfl) (fun x hx => (h.sound.nodeNumber x hx).left) hm
    case vectors =>
      simp only [nodeVectors_concat, nodeVector?, Option.toList, List.append_nil]
      exact h.vectors.push (by rfl) (fun x hx => (h.sound.nodeVector x hx).left) hm
    case weights => simpa [edgeNumber?] using h.weights

theorem addEdge {source target : String} {directed : Bool}
    (hok : d.addEdge id source target directed = .ok (e, d')) :
    Admits log (.addEdge id source target directed) ∧ e = (links log).length ∧
      Reflects (log ++ [.addEdge id source target directed]) d' := by
  have hvalid := h.valid.addEdge hok
  rw [Draft.addEdge] at hok
  split at hok
  case isTrue => contradiction
  case isFalse hm =>
    rw [h.mem_edgeIndex] at hm
    simp only [Except.bind_eq_ok_iff, Draft.knownNode_eq_ok_iff, h.nodeIndex] at hok
    obtain ⟨a, ha, b, hb, hok⟩ := hok
    obtain ⟨rfl, rfl⟩ := Prod.mk.inj (Except.ok.inj hok)
    have hadm : Admits log (.addEdge id source target directed) := by
      intro cause ho
      cases ho
      case duplicateEdge hid => exact hm hid
      case unknownSource hs  => simp [List.idxOf?_eq_none_iff.mpr hs] at ha
      case unknownTarget ht  => simp [List.idxOf?_eq_none_iff.mpr ht] at hb
    refine ⟨hadm, h.size_edges, h.sound.concat hadm, hvalid, ?ids, ?edges, ?nodeIndex, ?edgeIndex,
      ?numbers, ?vectors, ?weights⟩
    case ids => simpa [nodeId?] using h.ids
    case edges =>
      simp [link?, h.edges, h.sound.map_drawn_concat, Edge.bare, drawn, nodeId?,
        idxOf_eq_of_idxOf? h.sound.nodup_nodeIds ha, idxOf_eq_of_idxOf? h.sound.nodup_nodeIds hb]
    case nodeIndex => simpa [nodeId?] using h.nodeIndex
    case edgeIndex =>
      have hsize : d.edges.size = (edgeIds log).length := by rw [h.size_edges, edgeIds, List.length_map]
      simp [link?, idxOf?_concat hm, Std.HashMap.getElem?_insert, h.edgeIndex, hsize]
    case numbers => simpa [nodeNumber?] using h.numbers
    case vectors => simpa [nodeVector?] using h.vectors
    case weights =>
      simp only [edgeNumbers_concat, edgeNumber?, Option.toList, List.append_nil]
      exact h.weights.push (by rfl) (fun x hx => (h.sound.edgeNumber x hx).left) hm

theorem of_tables (hs : Sound (log ++ [step])) (hvalid : d'.Valid) (hn : nodeId? step = none)
    (hl : link? step = none) (hids : d'.nodes.toList.map (·.id) = d.nodes.toList.map (·.id))
    (hedges : d'.edges.toList.map Edge.bare = d.edges.toList.map Edge.bare)
    (hnode : d'.nodeIndex = d.nodeIndex) (hedge : d'.edgeIndex = d.edgeIndex)
    (numbers : Holds d'.nodes (·.id) (·.numbers) (nodeNumbers (log ++ [step])))
    (vectors : Holds d'.nodes (·.id) (·.vectors) (nodeVectors (log ++ [step])))
    (weights : Holds d'.edges (·.id) (·.numbers) (edgeNumbers (log ++ [step]))) :
    Reflects (log ++ [step]) d' where
  sound     := hs
  valid     := hvalid
  ids       := by simpa [hids, hn] using h.ids
  edges     := by simp [hedges, h.edges, hl, h.sound.map_drawn_concat]
  nodeIndex := by simpa [hnode, hn] using h.nodeIndex
  edgeIndex := by simpa [hedge, hl] using h.edgeIndex
  numbers   := numbers
  vectors   := vectors
  weights   := weights

theorem setNodeNumber {node : String} {value : α} (hok : d.setNodeNumber node key value = .ok d') :
    Admits log (.setNodeNumber node key value) ∧
      Reflects (log ++ [.setNodeNumber node key value]) d' := by
  have hvalid := h.valid.setNodeNumber hok
  simp only [Draft.setNodeNumber, Except.bind_eq_ok_iff, Draft.checkFinite_eq_ok_iff,
    Draft.knownNode_eq_ok_iff] at hok
  obtain ⟨-, hf, u, hu, ⟨⟩⟩ := hok
  have ha : Admits log (.setNodeNumber node key value) := by
    intro cause ho
    cases ho
    case unknownNumbered hn => simp [h.nodeIndex_eq_none.mpr hn] at hu
    case nodeNumber hx      => exact hx (hf value List.mem_cons_self)
  refine ⟨ha, h.of_tables (h.sound.concat ha) hvalid rfl rfl (map_toList_modify fun _ => by rfl) rfl
    rfl rfl ?numbers ?vectors ?weights⟩
  case numbers =>
    simp only [nodeNumbers_concat, nodeNumber?, Option.toList]
    exact h.numbers.set (fun _ => by rfl) (fun _ => by rfl) (h.node_id_eq_iff hu)
  case vectors =>
    simp only [nodeVectors_concat, nodeVector?, Option.toList, List.append_nil]
    exact h.vectors.modify (fun _ => by rfl) fun _ => by rfl
  case weights => simpa [edgeNumber?] using h.weights

theorem setNodeVector {node : String} {values : List α} (hok : d.setNodeVector node key values = .ok d') :
    Admits log (.setNodeVector node key values) ∧
      Reflects (log ++ [.setNodeVector node key values]) d' := by
  have hvalid := h.valid.setNodeVector hok
  simp only [Draft.setNodeVector, Except.bind_eq_ok_iff, Draft.checkFinite_eq_ok_iff,
    Draft.knownNode_eq_ok_iff] at hok
  obtain ⟨-, hf, u, hu, ⟨⟩⟩ := hok
  have ha : Admits log (.setNodeVector node key values) := by
    intro cause ho
    cases ho
    case unknownVectored hn => simp [h.nodeIndex_eq_none.mpr hn] at hu
    case nodeVector hx =>
      obtain ⟨x, hx, hxf⟩ := hx
      exact hxf (hf x hx)
  refine ⟨ha, h.of_tables (h.sound.concat ha) hvalid rfl rfl (map_toList_modify fun _ => by rfl) rfl
    rfl rfl ?numbers ?vectors ?weights⟩
  case numbers =>
    simp only [nodeNumbers_concat, nodeNumber?, Option.toList, List.append_nil]
    exact h.numbers.modify (fun _ => by rfl) fun _ => by rfl
  case vectors =>
    simp only [nodeVectors_concat, nodeVector?, Option.toList]
    exact h.vectors.set (fun _ => by rfl) (fun _ => by rfl) (h.node_id_eq_iff hu)
  case weights => simpa [edgeNumber?] using h.weights

theorem setEdgeNumber {edge : String} {value : α} (hok : d.setEdgeNumber edge key value = .ok d') :
    Admits log (.setEdgeNumber edge key value) ∧
      Reflects (log ++ [.setEdgeNumber edge key value]) d' := by
  have hvalid := h.valid.setEdgeNumber hok
  simp only [Draft.setEdgeNumber, Except.bind_eq_ok_iff, Draft.checkFinite_eq_ok_iff,
    Draft.knownEdge_eq_ok_iff] at hok
  obtain ⟨-, hf, e, he, ⟨⟩⟩ := hok
  have ha : Admits log (.setEdgeNumber edge key value) := by
    intro cause ho
    cases ho
    case unknownEdge hn => simp [h.edgeIndex_eq_none.mpr hn] at he
    case edgeNumber hx  => exact hx (hf value List.mem_cons_self)
  refine ⟨ha, h.of_tables (h.sound.concat ha) hvalid rfl rfl rfl (map_toList_modify fun _ => by rfl)
    rfl rfl ?numbers ?vectors ?weights⟩
  case numbers => simpa [nodeNumber?] using h.numbers
  case vectors => simpa [nodeVector?] using h.vectors
  case weights =>
    simp only [edgeNumbers_concat, edgeNumber?, Option.toList]
    exact h.weights.set (fun _ => by rfl) (fun _ => by rfl) (h.edge_id_eq_iff he)

theorem apply {i? : Option Nat} (hok : d.apply step = .ok (i?, d')) :
    Admits log step ∧ i? = number? log step ∧ Reflects (log ++ [step]) d' := by
  cases step
  all_goals
    simp only [Draft.apply, Except.map_eq_ok_iff, Prod.mk.injEq, Prod.exists] at hok
  case addNode =>
    obtain ⟨_, _, hok, rfl, rfl⟩ := hok
    obtain ⟨ha, rfl, hr⟩ := h.addNode hok
    exact ⟨ha, rfl, hr⟩
  case addEdge =>
    obtain ⟨_, _, hok, rfl, rfl⟩ := hok
    obtain ⟨ha, rfl, hr⟩ := h.addEdge hok
    exact ⟨ha, rfl, hr⟩
  case setNodeNumber =>
    obtain ⟨_, hok, rfl, rfl⟩ := hok
    exact (h.setNodeNumber hok).imp_right fun hr => ⟨rfl, hr⟩
  case setNodeVector =>
    obtain ⟨_, hok, rfl, rfl⟩ := hok
    exact (h.setNodeVector hok).imp_right fun hr => ⟨rfl, hr⟩
  case setEdgeNumber =>
    obtain ⟨_, hok, rfl, rfl⟩ := hok
    exact (h.setEdgeNumber hok).imp_right fun hr => ⟨rfl, hr⟩

theorem of_foldlM {steps : List (Step α)} {b : Builder α}
    (hb : steps.foldlM (fun b step => (·.2) <$> Builder.apply b step) (.collecting d) = .ok b) :
    ∃ d', b = .collecting d' ∧ Reflects (log ++ steps) d' := by
  induction steps generalizing log d
  case nil => exact ⟨d, (Except.ok.inj hb).symm, by simpa using h⟩
  case cons step steps ih =>
    simp only [List.foldlM_cons, Except.bind_eq_ok_iff, Except.map_eq_ok_iff, Builder.apply] at hb
    obtain ⟨_, ⟨⟨i?, b⟩, hstep, rfl⟩, hb⟩ := hb
    split at hstep
    case h_1 hok =>
      cases hstep
      obtain ⟨_, _, h₁⟩ := h.apply hok
      simpa using ih h₁ hb
    case h_2 => contradiction

end Reflects
end Journal

theorem Network.reflects_of_ofSteps [Scalar α] {steps : List (Draft.Step α)} {g : Network α}
    (h : ofSteps steps = .ok g) : ∃ d, Journal.Reflects steps d ∧ g = .ofDraft d := by
  simp only [ofSteps, Except.bind_eq_ok_iff] at h
  obtain ⟨b, hb, _, hbuild, hg⟩ := h
  obtain ⟨d, rfl, hr⟩ := Journal.reflects_empty.of_foldlM hb
  cases hbuild
  cases hg
  exact ⟨d, hr, rfl⟩

end BestFirst
