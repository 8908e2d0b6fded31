import BestFirst.Network.Builder
import BestFirst.Proofs.Hops

namespace BestFirst

variable {α : Type}

namespace Draft

variable {d d' : Draft α} {u e : Nat} {edge : Edge α} {step : Step α} {i? : Option Nat} {id : String}

structure Valid (d : Draft α) : Prop where
  known {id : String} {u : Nat} : d.nodeIndex[id]? = some u → u < d.nodes.size
  ends {edge : Edge α}          : edge ∈ d.edges →
    edge.source < d.nodes.size ∧ edge.target < d.nodes.size

theorem valid_empty : Valid ({} : Draft α) where
  known h := by simp at h
  ends h  := by simp at h

theorem Valid.knownNode (hd : d.Valid) (h : d.knownNode id = .ok u) : u < d.nodes.size := by
  simp only [Draft.knownNode] at h
  split at h
  case h_1 hu => exact Except.ok.inj h ▸ hd.known hu
  case h_2    => contradiction

theorem Valid.addNode (hd : d.Valid) (h : d.addNode id = .ok (u, d')) : d'.Valid := by
  simp only [Draft.addNode] at h
  split at h
  case isTrue => contradiction
  case isFalse =>
    obtain ⟨rfl, rfl⟩ := Prod.mk.inj (Except.ok.inj h)
    constructor
    case known =>
      intro id' u hu
      rw [Std.HashMap.getElem?_insert] at hu
      split at hu
      case isTrue  => simp [← Option.some.inj hu]
      case isFalse => simpa using Nat.lt_succ_of_lt (hd.known hu)
    case ends =>
      intro edge he
      have ⟨hs, ht⟩ := hd.ends he
      rw [Array.size_push]
      exact ⟨Nat.lt_succ_of_lt hs, Nat.lt_succ_of_lt ht⟩

theorem Valid.addEdge {source target : String} {directed : Bool} (hd : d.Valid)
    (h : d.addEdge id source target directed = .ok (e, d')) : d'.Valid := by
  simp only [Draft.addEdge] at h
  split at h
  case isTrue => contradiction
  case isFalse =>
    simp only [Except.bind_eq_ok_iff] at h
    have ⟨a, ha, b, hb, h⟩ := h
    obtain ⟨rfl, rfl⟩ := Prod.mk.inj (Except.ok.inj h)
    refine ⟨hd.known, fun {edge} he => ?_⟩
    obtain he | rfl := Array.mem_push.mp he
    · exact hd.ends he
    · exact ⟨hd.knownNode ha, hd.knownNode hb⟩

section Attributes

variable [Scalar α] {key : String}

theorem Valid.setNodeNumber {value : α} (hd : d.Valid)
    (h : d.setNodeNumber id key value = .ok d') : d'.Valid := by
  simp only [Draft.setNodeNumber, Except.bind_eq_ok_iff] at h
  obtain ⟨_, -, u, -, ⟨⟩⟩ := h
  exact ⟨fun h => by simpa using hd.known h, fun h => by simpa using hd.ends h⟩

theorem Valid.setNodeVector {values : List α} (hd : d.Valid)
    (h : d.setNodeVector id key values = .ok d') : d'.Valid := by
  simp only [Draft.setNodeVector, Except.bind_eq_ok_iff] at h
  obtain ⟨_, -, u, -, ⟨⟩⟩ := h
  exact ⟨fun h => by simpa using hd.known h, fun h => by simpa using hd.ends h⟩

theorem Valid.setEdgeNumber {value : α} (hd : d.Valid)
    (h : d.setEdgeNumber id key value = .ok d') : d'.Valid := by
  simp only [Draft.setEdgeNumber, Except.bind_eq_ok_iff] at h
  obtain ⟨_, -, e, -, ⟨⟩⟩ := h
  refine ⟨hd.known, fun {edge} he => ?_⟩
  have ⟨k, hk⟩ := Array.mem_iff_getElem?.mp he
  rw [Array.getElem?_modify] at hk
  split at hk
  case isTrue =>
    obtain ⟨edge', he', rfl⟩ := Option.map_eq_some_iff.mp hk
    have ⟨hs, ht⟩ := hd.ends (Array.mem_of_getElem? he')
    exact ⟨hs, ht⟩
  case isFalse => exact hd.ends (Array.mem_of_getElem? hk)

theorem Valid.apply (hd : d.Valid) (h : d.apply step = .ok (i?, d')) : d'.Valid := by
  cases step
  all_goals
    simp only [Draft.apply, Except.map_eq_ok_iff, Prod.mk.injEq, Prod.exists] at h
  case addNode =>
    obtain ⟨_, _, h, -, rfl⟩ := h
    exact hd.addNode h
  case addEdge =>
    obtain ⟨_, _, h, -, rfl⟩ := h
    exact hd.addEdge h
  case setNodeNumber =>
    obtain ⟨_, h, -, rfl⟩ := h
    exact hd.setNodeNumber h
  case setNodeVector =>
    obtain ⟨_, h, -, rfl⟩ := h
    exact hd.setNodeVector h
  case setEdgeNumber =>
    obtain ⟨_, h, -, rfl⟩ := h
    exact hd.setEdgeNumber h

end Attributes

end Draft

namespace Builder

variable [Scalar α] {steps : List (Draft.Step α)} {d : Draft α} {b : Builder α}

theorem collecting_of_foldlM (hd : d.Valid)
    (h : steps.foldlM (fun b step => (·.2) <$> Builder.apply b step) (collecting d) = .ok b) :
    ∃ d', b = collecting d' ∧ d'.Valid := by
  induction steps generalizing d
  case nil => exact ⟨d, (Except.ok.inj h).symm, hd⟩
  case cons step steps ih =>
    simp only [List.foldlM_cons, Except.bind_eq_ok_iff, Except.map_eq_ok_iff, apply] at h
    obtain ⟨_, ⟨⟨i?, b⟩, hb, rfl⟩, h⟩ := h
    split at hb
    case h_1 hstep =>
      cases hb
      exact ih (hd.apply hstep) h
    case h_2 => contradiction

end Builder

theorem Network.valid_of_ofSteps [Scalar α] {steps : List (Draft.Step α)} {g : Network α}
    (h : Network.ofSteps steps = .ok g) : ∃ d : Draft α, d.Valid ∧ g = .ofDraft d := by
  simp only [ofSteps, Except.bind_eq_ok_iff] at h
  have ⟨b, hb, _, hbuild, hg⟩ := h
  have ⟨d, hd, hvalid⟩ := Builder.collecting_of_foldlM Draft.valid_empty hb
  subst hd
  cases hbuild
  cases hg
  exact ⟨d, hvalid, rfl⟩

end BestFirst
