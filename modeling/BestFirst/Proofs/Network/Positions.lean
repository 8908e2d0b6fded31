import BestFirst.Proofs.Distance
import BestFirst.Proofs.Network.Refinement
import Mathlib

namespace BestFirst

open Draft (Step)

variable {α : Type}

structure Label (α : Type) where
  vector  : String → List α
  number? : String → Option α

namespace Position

variable [Zero α]

-- With three components or more, a vector leads into space. It ends with the third.
inductive FromVector : List α → Position α → Prop
  | one {x}            : FromVector [x] ⟨x, 0, 0, false⟩
  | two {x y}          : FromVector [x, y] ⟨x, y, 0, false⟩
  | three {x y z rest} : FromVector (x :: y :: z :: rest) ⟨x, y, z, true⟩

-- Any one of the numbers is enough. Only the third leads into space.
inductive FromNumbers : Option α → Option α → Option α → Position α → Prop
  | flat {x? y?} : x?.isSome ∨ y?.isSome →
    FromNumbers x? y? none ⟨x?.getD 0, y?.getD 0, 0, false⟩
  | upright {x? y? z} : FromNumbers x? y? (some z) ⟨x?.getD 0, y?.getD 0, z, true⟩

variable {v : List α} {x? y? z? : Option α} {a b : Position α}

theorem FromVector.unique (ha : FromVector v a) (hb : FromVector v b) : a = b := by
  cases ha <;> cases hb <;> rfl

theorem FromNumbers.unique (ha : FromNumbers x? y? z? a) (hb : FromNumbers x? y? z? b) : a = b := by
  cases ha <;> cases hb <;> rfl

theorem FromVector.ne_nil (h : FromVector v a) : v ≠ [] := by
  cases h <;> exact List.cons_ne_nil _ _

theorem FromVector.z_eq_zero (h : FromVector v a) (hf : a.is3D = false) : a.z = 0 := by
  cases h <;> first | rfl | contradiction

theorem FromNumbers.z_eq_zero (h : FromNumbers x? y? z? a) (hf : a.is3D = false) : a.z = 0 := by
  cases h <;> first | rfl | contradiction

theorem fromVector_ofVector (h : v ≠ []) : FromVector v (ofVector v) := by
  match v with
  | []               => contradiction
  | [_]              => exact .one
  | [_, _]           => exact .two
  | _ :: _ :: _ :: _ => simpa [ofVector] using FromVector.three

theorem FromNumbers.isSome (h : FromNumbers x? y? z? a) : x?.isSome ∨ y?.isSome ∨ z?.isSome := by
  cases h
  case flat h  => exact h.imp_right .inl
  case upright => exact .inr (.inr rfl)

theorem exists_fromNumbers (h : x?.isSome ∨ y?.isSome ∨ z?.isSome) :
    ∃ a, FromNumbers x? y? z? a := by
  cases z?
  case none   => exact ⟨_, .flat (h.imp_right (·.resolve_right Bool.false_ne_true))⟩
  case some z => exact ⟨_, .upright⟩

theorem fromNumbers_ofNumbers {x : α} : FromNumbers (some x) y? z? (ofNumbers x y? z?) := by
  cases z?
  case none   => exact .flat (.inl rfl)
  case some z => exact .upright

end Position

namespace Label

open Position (FromVector FromNumbers)

variable [Zero α]

-- The rule. Numbers are not looked at where there is a vector.
inductive Describes (l : Label α) : Position α → Prop
  | xyz {a} : FromVector (l.vector "xyz") a → Describes l a
  | xy {a} : l.vector "xyz" = [] → FromVector (l.vector "xy") a → Describes l a
  | numbers {a} : l.vector "xyz" = [] → l.vector "xy" = [] →
    FromNumbers (l.number? "x") (l.number? "y") (l.number? "z") a → Describes l a

def Suffices (l : Label α) : Prop :=
  l.vector "xyz" ≠ [] ∨ l.vector "xy" ≠ [] ∨ (l.number? "x").isSome

variable {l : Label α} {a b : Position α}

theorem Describes.unique (ha : l.Describes a) (hb : l.Describes b) : a = b := by
  cases ha <;> cases hb
  case xyz.xyz ha hb             => exact ha.unique hb
  case xyz.xy ha hn _            => exact absurd hn ha.ne_nil
  case xyz.numbers ha hn _ _     => exact absurd hn ha.ne_nil
  case xy.xyz hn _ hb            => exact absurd hn hb.ne_nil
  case xy.xy ha _ hb             => exact ha.unique hb
  case xy.numbers ha _ hn _      => exact absurd hn ha.ne_nil
  case numbers.xyz hn _ _ hb     => exact absurd hn hb.ne_nil
  case numbers.xy hn _ _ hb      => exact absurd hn hb.ne_nil
  case numbers.numbers ha _ _ hb => exact ha.unique hb

theorem exists_describes_iff : (∃ a, l.Describes a) ↔ l.vector "xyz" ≠ [] ∨ l.vector "xy" ≠ [] ∨
    (l.number? "x").isSome ∨ (l.number? "y").isSome ∨ (l.number? "z").isSome := by
  constructor
  case mp =>
    intro ⟨a, h⟩
    cases h
    case xyz h     => exact .inl h.ne_nil
    case xy h      => exact .inr (.inl h.ne_nil)
    case numbers h => exact .inr (.inr h.isSome)
  case mpr =>
    intro h
    by_cases hxyz : l.vector "xyz" = []
    case neg => exact ⟨_, .xyz (Position.fromVector_ofVector hxyz)⟩
    case pos =>
      by_cases hxy : l.vector "xy" = []
      case neg => exact ⟨_, .xy hxyz (Position.fromVector_ofVector hxy)⟩
      case pos =>
        have hn := (h.resolve_left (· hxyz)).resolve_left (· hxy)
        have ⟨a, ha⟩ := Position.exists_fromNumbers hn
        exact ⟨a, .numbers hxyz hxy ha⟩

theorem Describes.z_eq_zero (h : l.Describes a) (hf : a.is3D = false) : a.z = 0 := by
  cases h
  case xyz h     => exact h.z_eq_zero hf
  case xy h      => exact h.z_eq_zero hf
  case numbers h => exact h.z_eq_zero hf

end Label

structure Graph.Bears (g : Graph α) (u : NodeIndex) (id : String) (l : Label α) : Prop where
  nodeId       : g.nodeId u = .ok id
  vector (key) : g.nodeVector u key = .ok (l.vector key)
  number (key) : g.nodeNumber? u key = .ok (l.number? key)

namespace Graph.Bears

variable [Zero α] {g : Graph α} {u : NodeIndex} {id : String} {l : Label α} {a : Position α}
  {failure : Failure} (h : g.Bears u id l)
include h

theorem position_cases :
    (∃ a, g.position u = .ok a ∧ l.Describes a ∧ l.Suffices) ∨
      g.position u = .error (.noPosition id) ∧ ¬l.Suffices := by
  simp only [position, h.vector, h.number, h.nodeId, Except.ok_bind]
  by_cases hxyz : l.vector "xyz" = []
  case neg =>
    exact .inl ⟨_, by simp [hxyz]; rfl, .xyz (Position.fromVector_ofVector hxyz), .inl hxyz⟩
  case pos =>
    by_cases hxy : l.vector "xy" = []
    case neg =>
      exact .inl ⟨_, by simp [hxyz, hxy]; rfl, .xy hxyz (Position.fromVector_ofVector hxy),
        .inr (.inl hxy)⟩
    case pos =>
      cases hx : l.number? "x"
      case none   => exact .inr ⟨by simp [hxyz, hxy]; rfl, by simp [Label.Suffices, hxyz, hxy, hx]⟩
      case some x =>
        exact .inl ⟨_, by simp [hxyz, hxy]; rfl,
          .numbers hxyz hxy (hx ▸ Position.fromNumbers_ofNumbers), .inr (.inr (by simp [hx]))⟩

theorem position_eq_ok_iff : g.position u = .ok a ↔ l.Describes a ∧ l.Suffices := by
  obtain ⟨b, hb, hd, hp⟩ | ⟨he, hn⟩ := h.position_cases
  case inl =>
    rw [hb, Except.ok.injEq]
    exact ⟨fun hab => hab ▸ ⟨hd, hp⟩, fun ha => hd.unique ha.left⟩
  case inr =>
    rw [he]
    exact ⟨nofun, fun ha => absurd ha.right hn⟩

theorem position_eq_error_iff :
    g.position u = .error failure ↔ failure = .noPosition id ∧ ¬l.Suffices := by
  obtain ⟨b, hb, hd, hp⟩ | ⟨he, hn⟩ := h.position_cases
  case inl =>
    rw [hb]
    exact ⟨nofun, fun hf => absurd hp hf.right⟩
  case inr =>
    rw [he, Except.error.injEq, eq_comm]
    exact ⟨fun hf => ⟨hf, hn⟩, fun hf => hf.left⟩

end Graph.Bears

def Node.label (node : Node α) : Label α where
  vector key  := node.vectors.getD key []
  number? key := node.numbers[key]?

theorem Network.bears {g : Network α} {u : NodeIndex} {node : Node α} (h : g.nodeAt u = .ok node) :
    g.toGraph.Bears u node.id node.label where
  nodeId   := Except.map_eq_ok_iff.mpr ⟨node, h, rfl⟩
  vector _ := Except.map_eq_ok_iff.mpr ⟨node, h, rfl⟩
  number _ := Except.map_eq_ok_iff.mpr ⟨node, h, rfl⟩

namespace Journal

variable {log : List (Step α)} {g : Network α} {u : NodeIndex} {id : String}

def label (log : List (Step α)) (id : String) : Label α where
  vector key  := (latest? (nodeVectors log) id key).getD []
  number? key := latest? (nodeNumbers log) id key

theorem Portrayed.bears [Scalar α] (h : Portrayed log g) (hu : g.toGraph.nodeId u = .ok id) :
    g.toGraph.Bears u id (label log id) := by
  rw [h.graph] at hu ⊢
  exact ⟨hu, fun _ => Except.map_eq_ok_iff.mpr ⟨id, hu, rfl⟩,
    fun _ => Except.map_eq_ok_iff.mpr ⟨id, hu, rfl⟩⟩

end Journal

section Zero

variable [Zero α] [Scalar α]

-- After any steps, whether taken or turned down, a node is where the rule says that it is by what was
-- written on it last, unless there is no vector and no number "x". Then it is nowhere, though the rule may
-- still find a position for it.
theorem Workshop.position_ruled (steps : List (Step α)) :
    let log := taken {} steps
    ∃ g, handle (after {} (steps.map .step)) .build =
        (.ok none, { builder := .consumed, network? := some g }) ∧
      ∀ u id, g.toGraph.nodeId u = .ok id →
        let label := Journal.label log id
        (∀ a, g.toGraph.position u = .ok a ↔ label.Describes a ∧ label.Suffices) ∧
        (∀ f, g.toGraph.position u = .error f ↔ f = .noPosition id ∧ ¬label.Suffices) ∧
        (∀ a, g.toGraph.position u = .ok a → a.is3D = false → a.z = 0) ∧
        ((∃ a, label.Describes a) ↔ label.Suffices ∨
          (label.number? "y").isSome ∨ (label.number? "z").isSome) := by
  intro log
  obtain ⟨d, hd, h⟩ : ∃ d, after {} (steps.map .step) = ⟨.collecting d, none⟩ ∧
      Journal.Reflects log d := after_steps Journal.reflects_empty
  refine ⟨.ofDraft d, by rw [hd]; rfl, fun u id hu => ?_⟩
  have hb := h.portrayed.bears hu
  refine ⟨fun _ => hb.position_eq_ok_iff, fun _ => hb.position_eq_error_iff,
    fun _ ha => (hb.position_eq_ok_iff.mp ha).left.z_eq_zero, ?_⟩
  simp only [Label.exists_describes_iff, Label.Suffices, or_assoc]

end Zero

namespace Network

open Draft.Step in
def beaconSteps : List (Step ℝ) :=
  [addNode "p", setNodeNumber "p" "y" 1]

def beacon : Network ℝ := .ofDraft {
  nodes     := #[{ id := "p", numbers := {("y", 1)} }]
  nodeIndex := {("p", 0)} }

theorem ofSteps_beacon : ofSteps beaconSteps = .ok beacon := by
  simp [ofSteps, beaconSteps, Builder.new, Builder.apply, Builder.build, Draft.apply, Draft.addNode,
    Draft.setNodeNumber, Draft.knownNode, Draft.checkFinite, Scalar.isFinite, beacon]

theorem beacon_nowhere : ofSteps beaconSteps = .ok beacon ∧ beacon.toGraph.nodeId 0 = .ok "p" ∧
    (Journal.label beaconSteps "p").Describes ⟨0, 1, 0, false⟩ ∧
    beacon.toGraph.position 0 = .error (.noPosition "p") := by
  refine ⟨ofSteps_beacon, rfl, ?described, ?nowhere⟩
  case described =>
    have hnumbers : Journal.nodeNumbers beaconSteps = [(("p", "y"), 1)] := rfl
    have hx : (Journal.label beaconSteps "p").number? "x" = none := by
      simp [Journal.label, Journal.latest?, hnumbers]
    have hy : (Journal.label beaconSteps "p").number? "y" = some 1 := by
      simp [Journal.label, Journal.latest?, hnumbers]
    have hz : (Journal.label beaconSteps "p").number? "z" = none := by
      simp [Journal.label, Journal.latest?, hnumbers]
    refine .numbers rfl rfl ?_
    rw [hx, hy, hz]
    exact .flat (.inr rfl)
  case nowhere =>
    have hn : beacon.nodeAt 0 = .ok { id := "p", numbers := {("y", 1)} } := rfl
    exact (bears hn).position_eq_error_iff.mpr ⟨rfl, by simp [Label.Suffices, Node.label]⟩

end Network
end BestFirst
