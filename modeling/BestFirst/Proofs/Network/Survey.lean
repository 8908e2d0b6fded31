import BestFirst.Proofs.Network.Positions
import BestFirst.Proofs.Network.Safety
import BestFirst.Proofs.Search.StraightLine
import BestFirst.Proofs.Search.Termination
import Mathlib

namespace BestFirst

variable {α : Type}

-- Distances may be rounded, and they may be infinite, but they are numbers if coordinates are finite.
class MetricSum (α : Type) [Zero α] [Add α] [Sub α] [Mul α] [LE α] [Scalar α] : Prop
    extends GrowingSum α where
  isFinite_zero            : Scalar.isFinite (0 : α)
  number_sub {a b : α}     : Scalar.isFinite a → Scalar.isFinite b → b - a ≤ b - a
  square_nonneg {a : α}    : a ≤ a → 0 ≤ a * a
  sqrt_nonneg {a : α}      : 0 ≤ a → 0 ≤ Scalar.sqrt a
  number_of_nonneg {a : α} : 0 ≤ a → a ≤ a

instance : MetricSum ℝ where
  isFinite_zero      := rfl
  number_sub _ _     := le_rfl
  square_nonneg _    := mul_self_nonneg _
  sqrt_nonneg _      := Real.sqrt_nonneg _
  number_of_nonneg _ := le_rfl

namespace Position

structure Finite [Scalar α] (a : Position α) : Prop where
  x : Scalar.isFinite a.x
  y : Scalar.isFinite a.y
  z : Scalar.isFinite a.z

variable [Zero α] [Add α] [Sub α] [Mul α] [LE α] [Scalar α] [MetricSum α] {a b : Position α}

theorem FromVector.finite {v : List α} (h : FromVector v a) (hv : ∀ x ∈ v, Scalar.isFinite x) :
    a.Finite := by
  have h₀ : Scalar.isFinite (0 : α) := MetricSum.isFinite_zero
  cases h <;> constructor <;> simp_all

theorem FromNumbers.finite {x? y? z? : Option α} (h : FromNumbers x? y? z? a)
    (hx : ∀ x ∈ x?, Scalar.isFinite x) (hy : ∀ y ∈ y?, Scalar.isFinite y)
    (hz : ∀ z ∈ z?, Scalar.isFinite z) : a.Finite := by
  have hgetD {x? : Option α} (hx : ∀ x ∈ x?, Scalar.isFinite x) : Scalar.isFinite (x?.getD 0) := by
    cases x?
    case none   => exact MetricSum.isFinite_zero
    case some x => exact hx x rfl
  cases h
  case flat    => exact ⟨hgetD hx, hgetD hy, MetricSum.isFinite_zero⟩
  case upright => exact ⟨hgetD hx, hgetD hy, hz _ rfl⟩

theorem Finite.distance_nonneg (ha : a.Finite) (hb : b.Finite) : 0 ≤ a.distance b := by
  have add {x y : α} (hx : 0 ≤ x) (hy : 0 ≤ y) : 0 ≤ x + y :=
    RankOrder.trans hx (GrowingSum.le_add hx hy)
  have square {x y : α} (hx : Scalar.isFinite x) (hy : Scalar.isFinite y) :
      0 ≤ (y - x) * (y - x) := MetricSum.square_nonneg (MetricSum.number_sub hx hy)
  refine MetricSum.sqrt_nonneg (add (add (square ha.x hb.x) (square ha.y hb.y)) ?_)
  split
  case isTrue  => exact square ha.z hb.z
  case isFalse => exact MetricSum.square_nonneg GrowingSum.zero_le_zero

end Position

theorem Label.Describes.finite [Zero α] [Add α] [Sub α] [Mul α] [LE α] [Scalar α] [MetricSum α]
    {l : Label α} {a : Position α} (h : l.Describes a)
    (vector : ∀ key, ∀ x ∈ l.vector key, Scalar.isFinite x)
    (number : ∀ key, ∀ x ∈ l.number? key, Scalar.isFinite x) : a.Finite := by
  cases h
  case xyz h     => exact h.finite (vector _)
  case xy h      => exact h.finite (vector _)
  case numbers h => exact h.finite (number _) (number _) (number _)

def Graph.Located [Zero α] (g : Graph α) (u : NodeIndex) : Prop :=
  ∃ a, g.position u = .ok a

section Lines

variable [Zero α] [Add α] [Sub α] [Mul α] [Scalar α] {g : Graph α} {u v : NodeIndex}
  {cause : Failure}

theorem Graph.Located.straightLine (hu : g.Located u) (hv : g.Located v) :
    ∃ c, Costs.straightLine.heuristic g u v = .ok c :=
  have ⟨a, ha⟩ := hu
  have ⟨b, hb⟩ := hv
  ⟨_, Costs.straightLine_eq_ok_iff.mpr ⟨a, b, ha, hb, rfl⟩⟩

theorem Costs.straightLine_eq_error (h : straightLine.heuristic g u v = .error cause) :
    g.position u = .error cause ∨ g.position v = .error cause := by
  simp only [straightLine, Except.bind_eq_error_iff, pure, Except.pure, reduceCtorEq, and_false,
    exists_false, or_false] at h
  obtain h | ⟨_, _, h⟩ := h
  · exact .inl h
  · exact .inr h

end Lines

namespace Network

section Valid

variable [Zero α] {d : Draft α} {g : Network α} {u v source target : NodeIndex} {cause : Failure}

theorem missing_of_position (hu : g.Contains u) (h : g.toGraph.position u = .error cause) :
    cause.kind = .missingPosition := by
  obtain ⟨k, rfl, hk⟩ := contains_iff.mp hu
  have hn := Draft.nodeAt_eq_ok_iff.mpr ⟨k, rfl, Array.getElem?_eq_getElem hk⟩
  obtain ⟨rfl, -⟩ := (bears hn).position_eq_error_iff.mp h
  rfl

variable [Add α] [Sub α] [Mul α] [Scalar α]

theorem missing_of_straightLine (hu : g.Contains u) (hv : g.Contains v)
    (h : Costs.straightLine.heuristic g.toGraph u v = .error cause) :
    cause.kind = .missingPosition :=
  (Costs.straightLine_eq_error h).elim (missing_of_position hu) (missing_of_position hv)

theorem answerable_straightLine (hd : d.Valid) (hs : (ofDraft d).Contains source)
    (ht : (ofDraft d).Contains target) (hlt : (ofDraft d).toGraph.Located target)
    (hl : ∀ u, (ofDraft d).toGraph.Reachable source u → (ofDraft d).toGraph.Located u) :
    Problem.Answerable ⟨(ofDraft d).toGraph, .straightLine, source, target⟩ := by
  obtain ⟨a, rfl, ha⟩ := contains_iff.mp hs
  obtain ⟨b, rfl, hb⟩ := contains_iff.mp ht
  constructor
  case graph     => exact navigable hd ha
  case target    => exact exists_nodeId hb
  case heuristic => exact fun hu => (hl _ hu).straightLine hlt
  case cost =>
    intro u e v hu hop
    have hv := hl v (hu.tail ⟨e, hop⟩)
    obtain hline | hline := hop.edgeLength_eq
    · have ⟨c, hc⟩ := (hl u hu).straightLine hv
      exact ⟨c, hline.trans hc⟩
    · have ⟨c, hc⟩ := hv.straightLine (hl u hu)
      exact ⟨c, hline.trans hc⟩

variable [LE α] [DecidableLE α] {fault : Fault}

theorem missing_of_fails (hd : d.Valid) (hs : (ofDraft d).Contains source)
    (ht : (ofDraft d).Contains target)
    (h : Problem.Fails ⟨(ofDraft d).toGraph, .straightLine, source, target⟩ fault) :
    fault.failure.kind = .missingPosition := by
  obtain ⟨a, rfl, ha⟩ := contains_iff.mp hs
  obtain ⟨b, rfl, hb⟩ := contains_iff.mp ht
  refine h.of_costs (P := (·.kind = .missingPosition)) (navigable hd ha) (exists_nodeId hb)
    ?estimate ?cost
  case estimate =>
    exact fun hu _ h => missing_of_straightLine (contains_of_reachable hd hs hu) ht h
  case cost =>
    intro u e v hu hop cause h
    have hu' := contains_of_reachable hd hs hu
    have hv' := contains_of_reachable hd hs (hu.tail ⟨e, hop⟩)
    obtain hline | hline := hop.edgeLength_eq
    · exact missing_of_straightLine hu' hv' (hline.symm.trans h)
    · exact missing_of_straightLine hv' hu' (hline.symm.trans h)

end Valid

variable [Zero α] [Add α] [Sub α] [Mul α] [LE α] [Scalar α] [MetricSum α]
  {steps log : List (Draft.Step α)} {g : Network α} {u source target : NodeIndex} {a : Position α}

theorem finite_position (h : Journal.Portrayed log g) (ha : g.toGraph.position u = .ok a) :
    a.Finite := by
  have ⟨_, hxyz, _⟩ := Except.bind_eq_ok_iff.mp ha
  have ⟨node, hn, _⟩ := Except.map_eq_ok_iff.mp hxyz
  have hb := bears hn
  refine (hb.position_eq_ok_iff.mp ha).left.finite ?vector ?number
  case vector => exact fun key => h.nodeVector u key _ (hb.vector key)
  case number => exact fun key x hx => h.nodeNumber u key x (hx ▸ hb.number key)

variable [DecidableLE α]

theorem growing_straightLine (h : Journal.Portrayed log g) :
    Problem.Growing ⟨g.toGraph, .straightLine, source, target⟩ := by
  have line {u v c} (hc : Costs.straightLine.heuristic g.toGraph u v = .ok c) : 0 ≤ c := by
    obtain ⟨a, b, ha, hb, rfl⟩ := Costs.straightLine_eq_ok_iff.mp hc
    exact (finite_position h ha).distance_nonneg (finite_position h hb)
  have cost {u e v c} (hop : g.toGraph.Hop u e v)
      (hc : Costs.straightLine.cost g.toGraph u e v = .ok c) : 0 ≤ c := by
    obtain hline | hline := hop.edgeLength_eq
    all_goals exact line (hline.symm.trans hc)
  refine ⟨cost, fun hv i r hr => ?_⟩
  have hg : 0 ≤ r.g := hv.g_nonneg cost hr
  have hh : 0 ≤ r.h := line (hv.genuine hr).heuristic
  exact MetricSum.number_of_nonneg (RankOrder.trans hg (GrowingSum.le_add hg hh))

-- The search fails if one of its ends is nowhere, or if it would have been exhausted but for a node that is
-- nowhere. It does not fail if the target and all nodes that can be reached are somewhere. In between it
-- depends on which nodes the search gets to before it finds a path.
theorem straightLine_surveys (h : ofSteps steps = .ok g) (hs : g.Contains source)
    (ht : g.Contains target) :
    let p : Problem α := ⟨g.toGraph, .straightLine, source, target⟩
    (g.toGraph.Located target → (∀ u, g.toGraph.Reachable source u → g.toGraph.Located u) →
      (∀ fault, ¬p.Fails fault) ∧ ∃ report, p.Returns report) ∧
    (¬(g.toGraph.Located source ∧ g.toGraph.Located target) →
      (∃ fault, p.search = .error fault ∧ p.Fails fault ∧ fault.failure.kind = .missingPosition ∧
        fault.asked = #[.heuristic source target]) ∧ ∀ report, ¬p.Returns report) ∧
    (¬g.toGraph.Reachable source target →
      (∃ u, g.toGraph.Reachable source u ∧ ¬g.toGraph.Located u) →
      (∃ fault, p.Fails fault ∧ fault.failure.kind = .missingPosition) ∧
        ∀ report, ¬p.Returns report) ∧
    (∀ report, p.Returns report → report.verdict = .exhausted →
      ∀ u, g.toGraph.Reachable source u → g.toGraph.Located u) ∧
    ∀ fault, p.Fails fault → fault.failure.kind = .missingPosition := by
  obtain ⟨d, hr, rfl⟩ := reflects_of_ofSteps h
  intro p
  have houtcome : (∃ report, p.Returns report) ∨ ∃ fault, p.Fails fault :=
    (growing_straightLine hr.portrayed).returns_or_fails (finite_reachable _ source)
  have hkind (fault : Fault) (hf : p.Fails fault) : fault.failure.kind = .missingPosition :=
    missing_of_fails hr.valid hs ht hf
  have hexhausted (report : Report α) (hp : p.Returns report) (hv : report.verdict = .exhausted)
      (u : NodeIndex) (hu : p.graph.Reachable source u) : p.graph.Located u := by
    have ⟨xs, s, hxs, hturn⟩ := hp.reaches
    have ⟨_, hx⟩ := Problem.Ends.exists_estimate ⟨s, hxs, hturn⟩ hv hu
    have ⟨a, _, ha, _⟩ := Costs.straightLine_eq_ok_iff.mp hx
    exact ⟨a, ha⟩
  refine ⟨fun hlt hl => ?located, fun hl => ?ends, fun hn ⟨u, hu, hl⟩ => ?reached, hexhausted, hkind⟩
  case located =>
    have hf (fault : Fault) : ¬p.Fails fault :=
      (answerable_straightLine hr.valid hs ht hlt hl).not_fails
    exact ⟨hf, houtcome.resolve_right fun ⟨fault, h⟩ => hf fault h⟩
  case ends =>
    cases hx : Costs.straightLine.heuristic p.graph source target
    case ok =>
      have ⟨a, b, ha, hb, _⟩ := Costs.straightLine_eq_ok_iff.mp hx
      exact absurd ⟨⟨a, ha⟩, b, hb⟩ hl
    case error cause =>
      have hstart := Problem.start_eq_error_of_estimate (p := p) hx
      refine ⟨⟨_, Problem.search_eq_error hstart, .inl hstart, hkind _ (.inl hstart), rfl⟩, ?_⟩
      intro report ⟨_, _, hok, _⟩
      exact absurd (hstart.symm.trans hok) nofun
  case reached =>
    have hp (report : Report α) : ¬p.Returns report := fun hp =>
      hl (hexhausted report hp (hp.complete.right.left.mpr hn) u hu)
    have ⟨fault, hf⟩ := houtcome.resolve_left fun ⟨report, h⟩ => hp report h
    exact ⟨⟨fault, hf, hkind fault hf⟩, hp⟩

section Outpost

open Draft.Step in
def outpostSteps : List (Draft.Step ℝ) :=
  [addNode "s", addNode "t", addNode "a", addEdge "sa" "s" "a" false,
    setNodeNumber "s" "x" 0, setNodeNumber "t" "x" 1]

def outpost : Network ℝ := .ofDraft {
  nodes     := #[
    { id := "s", numbers := {("x", 0)} }, { id := "t", numbers := {("x", 1)} }, { id := "a" }]
  edges     := #[{ id := "sa", source := 0, target := 2, directed := false }]
  nodeIndex := {("a", 2), ("t", 1), ("s", 0)}
  edgeIndex := {("sa", 0)} }

theorem ofSteps_outpost : ofSteps outpostSteps = .ok outpost := by
  simp [ofSteps, outpostSteps, Builder.new, Builder.apply, Builder.build, Draft.apply,
    Draft.addNode, Draft.addEdge, Draft.setNodeNumber, Draft.knownNode, Draft.checkFinite,
    Scalar.isFinite, Std.HashMap.getElem_insert]
  rfl

theorem outpost_not_reachable : ¬outpost.toGraph.Reachable 0 1 := by
  have hne {v : NodeIndex} (h : outpost.toGraph.Reachable 0 v) : v ≠ 1 := by
    cases h
    case refl => decide
    case tail hop =>
      have ⟨_, hop⟩ := hop
      have ⟨edge, he, _, hu⟩ := edge_of_hop hop
      cases Array.mem_singleton.mp he
      obtain ⟨-, rfl⟩ | ⟨-, rfl⟩ := hu <;> decide
  exact fun h => hne h rfl

theorem outpost_surveyed : ofSteps outpostSteps = .ok outpost ∧
    outpost.Contains 0 ∧ outpost.Contains 1 ∧ ¬outpost.toGraph.Reachable 0 1 ∧
    outpost.toGraph.Reachable 0 2 ∧ ¬outpost.toGraph.Located 2 ∧
    ∃ fault, Problem.Fails ⟨outpost.toGraph, .straightLine, 0, 1⟩ fault ∧
      fault.failure.kind = .missingPosition := by
  have hs : outpost.Contains 0 := by decide
  have ht : outpost.Contains 1 := by decide
  obtain ⟨_, _, hreached, _⟩ := straightLine_surveys ofSteps_outpost hs ht
  have hleaving : outpost.toGraph.leavingEdges 0 = .ok [0] := by cbv
  have hu : outpost.toGraph.Reachable 0 2 := .single ⟨0, ⟨_, hleaving, by decide⟩, rfl⟩
  have hl : ¬outpost.toGraph.Located 2 := by
    rintro ⟨_, ha⟩
    have hn : outpost.nodeAt 2 = .ok { id := "a" } := rfl
    have hp := ((bears hn).position_eq_ok_iff.mp ha).right
    simp [Label.Suffices, Node.label] at hp
  exact ⟨ofSteps_outpost, hs, ht, outpost_not_reachable, hu, hl,
    (hreached outpost_not_reachable ⟨2, hu, hl⟩).left⟩

end Outpost

end Network
end BestFirst
