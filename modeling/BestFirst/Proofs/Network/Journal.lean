import BestFirst.Network.Builder
import Mathlib.Data.List.Basic

namespace BestFirst.Journal

open Draft (Step)

variable {α β : Type}

structure Link where
  id       : String
  source   : String
  target   : String
  directed : Bool

def Link.Leaves (l : Link) (id : String) : Prop :=
  id = l.source ∨ l.directed = false ∧ id = l.target

instance {l : Link} {id : String} : Decidable (l.Leaves id) :=
  inferInstanceAs (Decidable (_ ∨ _))

abbrev Setting (β : Type) := (String × String) × β

section Reading

def nodeId? : Step α → Option String
  | .addNode id => some id
  | _           => none

def link? : Step α → Option Link
  | .addEdge id source target directed => some { id, source, target, directed }
  | _                                  => none

def nodeNumber? : Step α → Option (Setting α)
  | .setNodeNumber node key value => some ((node, key), value)
  | _                             => none

def nodeVector? : Step α → Option (Setting (List α))
  | .setNodeVector node key values => some ((node, key), values)
  | _                              => none

def edgeNumber? : Step α → Option (Setting α)
  | .setEdgeNumber edge key value => some ((edge, key), value)
  | _                             => none

variable (log : List (Step α))

def nodeIds : List String := log.filterMap nodeId?

def links : List Link := log.filterMap link?

def edgeIds : List String := (links log).map (·.id)

def nodeNumbers : List (Setting α) := log.filterMap nodeNumber?

def nodeVectors : List (Setting (List α)) := log.filterMap nodeVector?

def edgeNumbers : List (Setting α) := log.filterMap edgeNumber?

end Reading

def latest? (xs : List (Setting β)) (name key : String) : Option β :=
  xs.reverse.lookup (name, key)

section Rules

variable [Scalar α]

-- What there is to be said against a call.
inductive Objection (log : List (Step α)) : Step α → Refusal → Prop
  | duplicateNode {id} (h : id ∈ nodeIds log) : Objection log (.addNode id) (.duplicateNode id)
  | duplicateEdge {id source target directed} (h : id ∈ edgeIds log) :
    Objection log (.addEdge id source target directed) (.duplicateEdge id)
  | unknownSource {id source target directed} (h : source ∉ nodeIds log) :
    Objection log (.addEdge id source target directed) (.unknownNode source)
  | unknownTarget {id source target directed} (h : target ∉ nodeIds log) :
    Objection log (.addEdge id source target directed) (.unknownNode target)
  | unknownNumbered {node key value} (h : node ∉ nodeIds log) :
    Objection log (.setNodeNumber node key value) (.unknownNode node)
  | unknownVectored {node key values} (h : node ∉ nodeIds log) :
    Objection log (.setNodeVector node key values) (.unknownNode node)
  | unknownEdge {edge key value} (h : edge ∉ edgeIds log) :
    Objection log (.setEdgeNumber edge key value) (.unknownEdge edge)
  | nodeNumber {node key value} (h : ¬Scalar.isFinite value) :
    Objection log (.setNodeNumber node key value) (.notFinite key)
  | nodeVector {node key values} (h : ∃ x ∈ values, ¬Scalar.isFinite x) :
    Objection log (.setNodeVector node key values) (.notFinite key)
  | edgeNumber {edge key value} (h : ¬Scalar.isFinite value) :
    Objection log (.setEdgeNumber edge key value) (.notFinite key)

theorem Objection.kind {log : List (Step α)} {step : Step α} {cause : Refusal} {call : BuilderCall}
    (h : Objection log step cause) : (Failure.refused call cause).kind = .value := by
  cases h <;> rfl

def Admits (log : List (Step α)) (step : Step α) : Prop :=
  ∀ cause, ¬Objection log step cause

def number? (log : List (Step α)) : Step α → Option Nat
  | .addNode ..  => some (nodeIds log).length
  | .addEdge ..  => some (links log).length
  | _            => none

end Rules

section Answers

def entryAt (xs : List β) (i : Int) (failure : Failure) : Except Failure β :=
  match i.toNat?.bind (xs[·]?) with
  | some x => .ok x
  | none   => .error failure

variable (log : List (Step α))

def node (u : NodeIndex) : Except Failure String :=
  entryAt (nodeIds log) u (.nodeOutOfRange u)

def link (e : EdgeIndex) : Except Failure Link :=
  entryAt (links log) e (.edgeOutOfRange e)

def findNode? (id : String) : Option NodeIndex :=
  ((nodeIds log).idxOf? id).map fun u : Nat => (u : NodeIndex)

def findEdge? (id : String) : Option EdgeIndex :=
  ((edgeIds log).idxOf? id).map fun e : Nat => (e : EdgeIndex)

def leaving (id : String) : List Nat :=
  ((links log).zipIdx.filter (·.1.Leaves id)).map (·.2)

def toGraph : Graph α where
  nodeCount         := (nodeIds log).length
  edgeCount         := (links log).length
  findNode?         := findNode? log
  nodeId            := node log
  edgeId e          := (·.id) <$> link log e
  leavingEdges u    := (fun id => (leaving log id).map fun e : Nat => (e : EdgeIndex)) <$> node log u
  endpoints e       := (fun l => ((nodeIds log).idxOf l.source, (nodeIds log).idxOf l.target)) <$>
    link log e
  isDirected e      := (·.directed) <$> link log e
  nodeNumber? u key := (latest? (nodeNumbers log) · key) <$> node log u
  edgeNumber? e key := (fun l => latest? (edgeNumbers log) l.id key) <$> link log e
  nodeVector u key  := (fun id => (latest? (nodeVectors log) id key).getD []) <$> node log u

-- The edges of all nodes one after another, and after how many of them those of each node start.
def rows : Rows where
  offsets := (((nodeIds log).map fun id => (leaving log id).length).scanl (· + ·) 0).toArray
  items   := ((nodeIds log).flatMap (leaving log)).toArray

end Answers

section Growing

variable {log : List (Step α)} {step : Step α} {ids : List String} {id name key : String}

theorem filterMap_concat {γ : Type} {xs : List β} {x : β} {f : β → Option γ} :
    (xs ++ [x]).filterMap f = xs.filterMap f ++ (f x).toList := by
  cases h : f x <;> simp [h]

@[simp]
theorem nodeIds_concat : nodeIds (log ++ [step]) = nodeIds log ++ (nodeId? step).toList :=
  filterMap_concat

@[simp]
theorem links_concat : links (log ++ [step]) = links log ++ (link? step).toList :=
  filterMap_concat

@[simp]
theorem edgeIds_concat :
    edgeIds (log ++ [step]) = edgeIds log ++ ((link? step).map (·.id)).toList := by
  rw [edgeIds, links_concat, List.map_append, Option.toList_map, edgeIds]

@[simp]
theorem nodeNumbers_concat :
    nodeNumbers (log ++ [step]) = nodeNumbers log ++ (nodeNumber? step).toList :=
  filterMap_concat

@[simp]
theorem nodeVectors_concat :
    nodeVectors (log ++ [step]) = nodeVectors log ++ (nodeVector? step).toList :=
  filterMap_concat

@[simp]
theorem edgeNumbers_concat :
    edgeNumbers (log ++ [step]) = edgeNumbers log ++ (edgeNumber? step).toList :=
  filterMap_concat

theorem latest?_concat {xs : List (Setting β)} {x : Setting β} :
    latest? (xs ++ [x]) name key = if x.1 = (name, key) then some x.2 else latest? xs name key := by
  rw [latest?, List.reverse_concat, List.lookup_cons, latest?]
  grind

theorem mem_of_latest? {xs : List (Setting β)} {x : β} (h : latest? xs name key = some x) :
    ((name, key), x) ∈ xs := by
  have ⟨ys, zs, hx, _⟩ := List.lookup_eq_some_iff.mp h
  rw [← List.mem_reverse, hx]
  exact List.mem_append_right ys List.mem_cons_self

theorem idxOf?_concat (h : id ∉ ids) :
    (ids ++ [id]).idxOf? name = if id = name then some ids.length else ids.idxOf? name := by
  rw [List.idxOf?, List.findIdx?_append, ← List.idxOf?]
  split
  case isTrue heq  => simp [← heq, List.idxOf?_eq_none_iff.mpr h]
  case isFalse hne => simp [hne]

end Growing

section Sound

variable [Scalar α] {log : List (Step α)} {step : Step α}

structure Sound (log : List (Step α)) : Prop where
  nodup_nodeIds : (nodeIds log).Nodup
  nodup_edgeIds : (edgeIds log).Nodup
  ends          : ∀ l ∈ links log, l.source ∈ nodeIds log ∧ l.target ∈ nodeIds log
  nodeNumber    : ∀ x ∈ nodeNumbers log, x.1.1 ∈ nodeIds log ∧ Scalar.isFinite x.2
  nodeVector    : ∀ x ∈ nodeVectors log, x.1.1 ∈ nodeIds log ∧ ∀ y ∈ x.2, Scalar.isFinite y
  edgeNumber    : ∀ x ∈ edgeNumbers log, x.1.1 ∈ edgeIds log ∧ Scalar.isFinite x.2

theorem sound_nil : Sound ([] : List (Step α)) := by
  constructor <;> simp [nodeIds, edgeIds, links, nodeNumbers, nodeVectors, edgeNumbers]

theorem Sound.concat (h : Sound log) (ha : Admits log step) : Sound (log ++ [step]) := by
  have known {id : String} (hm : id ∈ nodeIds log) : id ∈ nodeIds (log ++ [step]) := by
    rw [nodeIds_concat]
    exact List.mem_append_left _ hm
  have knownEdge {id : String} (hm : id ∈ edgeIds log) : id ∈ edgeIds (log ++ [step]) := by
    rw [edgeIds_concat]
    exact List.mem_append_left _ hm
  constructor
  case nodup_nodeIds =>
    cases step
    case addNode id =>
      have hid : id ∉ nodeIds log := fun hm => ha _ (.duplicateNode hm)
      simpa [nodeId?, List.nodup_append, h.nodup_nodeIds] using
        fun _ hm => ne_of_mem_of_not_mem hm hid
    all_goals simpa [nodeId?] using h.nodup_nodeIds
  case nodup_edgeIds =>
    cases step
    case addEdge id source target directed =>
      have hid : id ∉ edgeIds log := fun hm => ha _ (.duplicateEdge hm)
      simpa [link?, List.nodup_append, h.nodup_edgeIds] using
        fun _ hm => ne_of_mem_of_not_mem hm hid
    all_goals simpa [link?] using h.nodup_edgeIds
  case ends =>
    intro l hl
    rw [links_concat, List.mem_append, Option.mem_toList] at hl
    obtain hl | hl := hl
    · exact (h.ends l hl).imp known known
    · cases step <;> cases hl
      exact ⟨known (not_not.mp fun hm => ha _ (.unknownSource hm)),
        known (not_not.mp fun hm => ha _ (.unknownTarget hm))⟩
  case nodeNumber =>
    intro x hx
    rw [nodeNumbers_concat, List.mem_append, Option.mem_toList] at hx
    obtain hx | hx := hx
    · exact (h.nodeNumber x hx).imp_left known
    · cases step <;> cases hx
      exact ⟨known (not_not.mp fun hm => ha _ (.unknownNumbered hm)),
        not_not.mp fun hf => ha _ (.nodeNumber hf)⟩
  case nodeVector =>
    intro x hx
    rw [nodeVectors_concat, List.mem_append, Option.mem_toList] at hx
    obtain hx | hx := hx
    · exact (h.nodeVector x hx).imp_left known
    · cases step <;> cases hx
      exact ⟨known (not_not.mp fun hm => ha _ (.unknownVectored hm)),
        fun y hy => not_not.mp fun hf => ha _ (.nodeVector ⟨y, hy, hf⟩)⟩
  case edgeNumber =>
    intro x hx
    rw [edgeNumbers_concat, List.mem_append, Option.mem_toList] at hx
    obtain hx | hx := hx
    · exact (h.edgeNumber x hx).imp_left knownEdge
    · cases step <;> cases hx
      exact ⟨knownEdge (not_not.mp fun hm => ha _ (.unknownEdge hm)),
        not_not.mp fun hf => ha _ (.edgeNumber hf)⟩

end Sound
end BestFirst.Journal
