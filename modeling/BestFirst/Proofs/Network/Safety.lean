import BestFirst.Proofs.Network.Navigation
import BestFirst.Proofs.Search.Calls
import Mathlib

namespace BestFirst.Network

variable {α : Type} {g : Network α} {d : Draft α} {u source target : NodeIndex} {cause : Failure}

def Contains (g : Network α) (u : NodeIndex) : Prop :=
  0 ≤ u ∧ u < g.nodes.size

instance : Decidable (g.Contains u) :=
  inferInstanceAs (Decidable (_ ∧ _))

theorem contains_iff : g.Contains u ↔ ∃ k : Nat, u = k ∧ k < g.nodes.size where
  mp h := by
    have ⟨k, hk⟩ := Int.eq_ofNat_of_zero_le h.left
    exact ⟨k, hk, Int.ofNat_lt.mp (hk ▸ h.right)⟩
  mpr h := by
    obtain ⟨k, rfl, hk⟩ := h
    exact ⟨Int.natCast_nonneg k, Int.ofNat_lt.mpr hk⟩

theorem contains_of_reachable (hd : d.Valid) (hs : (ofDraft d).Contains source)
    (h : (ofDraft d).toGraph.Reachable source u) : (ofDraft d).Contains u := by
  obtain ⟨k, rfl, hk⟩ := contains_iff.mp hs
  exact contains_iff.mpr (exists_of_reachable hd hk h)

theorem nodeId_eq_error (h : ¬g.Contains u) : g.toGraph.nodeId u = .error (.nodeOutOfRange u) := by
  refine Except.map_eq_error_iff.mpr ?_
  simp only [Draft.nodeAt]
  split
  case h_1 hn =>
    obtain ⟨k, hu, hk⟩ := Draft.toNat?_bind_eq_some_iff.mp hn
    obtain ⟨hlt, _⟩ := Array.getElem?_eq_some_iff.mp hk
    exact absurd (contains_iff.mpr ⟨k, hu, hlt⟩) h
  case h_2 => rfl

theorem exists_answers_of_opposite {e : EdgeIndex} {v? : Option NodeIndex}
    (h : g.toGraph.opposite? e u = .ok v?) (key : String) :
    ∃ ends number?, g.toGraph.endpoints e = .ok ends ∧ g.toGraph.edgeNumber? e key = .ok number? := by
  have ⟨ends, he, _⟩ := Except.bind_eq_ok_iff.mp h
  have ⟨edge, hedge, _⟩ := Except.map_eq_ok_iff.mp he
  exact ⟨ends, edge.numbers[key]?, he, Except.map_eq_ok_iff.mpr ⟨edge, hedge, rfl⟩⟩

variable [Zero α]

theorem answerable_weighted (hd : d.Valid) (key : String) (default : α)
    (hs : (ofDraft d).Contains source) (ht : (ofDraft d).Contains target) :
    Problem.Answerable ⟨(ofDraft d).toGraph, .weighted key default, source, target⟩ := by
  obtain ⟨a, rfl, ha⟩ := contains_iff.mp hs
  obtain ⟨b, rfl, hb⟩ := contains_iff.mp ht
  constructor
  case graph     => exact navigable hd ha
  case target    => exact exists_nodeId hb
  case heuristic => exact fun _ => ⟨0, rfl⟩
  case cost      => exact fun _ hop => exists_weighted_cost hop

variable [Add α] [LE α] [DecidableLE α]

theorem start_weighted_eq_error (key : String) (default : α)
    (h : ¬((ofDraft d).Contains source ∧ (ofDraft d).Contains target)) :
    ∃ u, (u = source ∨ u = target) ∧ ¬(ofDraft d).Contains u ∧
      Problem.start ⟨(ofDraft d).toGraph, .weighted key default, source, target⟩ =
        .error ⟨.nodeOutOfRange u, #[.heuristic source target]⟩ := by
  by_cases hs : (ofDraft d).Contains source
  case neg =>
    exact ⟨source, .inl rfl, hs, Problem.start_eq_error_of_source rfl (nodeId_eq_error hs)⟩
  case pos =>
    have ht : ¬(ofDraft d).Contains target := fun ht => h ⟨hs, ht⟩
    obtain ⟨a, rfl, ha⟩ := contains_iff.mp hs
    have ⟨id, hid⟩ := exists_nodeId ha
    exact ⟨target, .inr rfl, ht, Problem.start_eq_error_of_target rfl hid (nodeId_eq_error ht)⟩

variable [Scalar α] {steps : List (Draft.Step α)}

-- The search fails exactly where an end is missing. In no other case is any of its calls turned down, and
-- those to its own store are not, whatever is searched. What else a search could fail for is answered to
-- one of its calls.
theorem search_safe (h : ofSteps steps = .ok g) (key : String) (default : α)
    (source target : NodeIndex) :
    let p : Problem α := ⟨g.toGraph, .weighted key default, source, target⟩
    ((∃ fault, p.Fails fault) ↔ ¬(g.Contains source ∧ g.Contains target)) ∧
    (∀ fault, p.Fails fault → p.search = .error fault ∧ fault.failure.kind = .outOfRange ∧
      ∃ u, (u = source ∨ u = target) ∧ ¬g.Contains u ∧ fault.failure = .nodeOutOfRange u) ∧
    (g.Contains source → g.Contains target →
      (∀ callee β (x : Except Failure β), p.Calls callee x → ∃ b, x = .ok b) ∧
      ∀ xs i r done e rest s, p.Visits (.relaxing xs i r done (e :: rest)) s →
        ∃ ends number?, p.graph.endpoints e = .ok ends ∧ p.graph.edgeNumber? e key = .ok number?) ∧
    ∀ q : Problem α,
      (∀ β (x : Except Failure β), q.Calls .store x → ∃ b, x = .ok b) ∧
      (∀ fault, q.Fails fault → q.Meets fault.failure) ∧
      (∀ fault, q.search = .error fault → q.Fails fault ∨ fault.failure = .unfinished) := by
  obtain ⟨d, hd, rfl⟩ := valid_of_ofSteps h
  intro p
  have hans (hs : (ofDraft d).Contains source) (ht : (ofDraft d).Contains target) : p.Answerable :=
    answerable_weighted hd key default hs ht
  have hends (fault : Fault) (hf : p.Fails fault) :
      ¬((ofDraft d).Contains source ∧ (ofDraft d).Contains target) :=
    fun ⟨hs, ht⟩ => (hans hs ht).not_fails hf
  refine ⟨⟨?fails, ?missing⟩, ?cause, fun hs ht => ⟨?calls, ?edge⟩, fun q => ⟨?store, ?met, ?search⟩⟩
  case fails  => exact fun ⟨fault, hf⟩ => hends fault hf
  case calls  => exact fun _ _ _ hx => (hans hs ht).calls_ok hx
  case store  => exact fun _ _ hx => hx.store_ok
  case met    => exact fun _ hf => hf.meets
  case search => exact fun _ hf => Problem.fails_of_search hf
  case missing =>
    intro h
    have ⟨_, _, _, hstart⟩ := start_weighted_eq_error key default h
    exact ⟨_, .inl hstart⟩
  case cause =>
    intro fault hf
    have ⟨u, hu, hn, hstart⟩ := start_weighted_eq_error key default (hends fault hf)
    cases hf.eq_of_start hstart
    exact ⟨Problem.search_eq_error hstart, rfl, u, hu, hn, rfl⟩
  case edge =>
    intro xs i r done e rest s hv
    have ⟨_, ho⟩ := (hans hs ht).calls_ok (.opposite hv)
    exact exists_answers_of_opposite ho key

-- From node 0 one can go to all nodes, and round in circles that cost less the longer one goes on. Still
-- the search does not fail, unless it is for a node that is not there.
theorem bundle_safe : ofSteps bundleSteps = .ok bundle ∧
    (¬∃ fault, Problem.Fails ⟨bundle.toGraph, .weighted "weight" (-1), 0, 2⟩ fault) ∧
    ∃ fault, Problem.Fails ⟨bundle.toGraph, .weighted "weight" (-1), 0, 3⟩ fault := by
  have ⟨hin, _⟩ := search_safe ofSteps_bundle "weight" (-1) 0 2
  have ⟨hout, _⟩ := search_safe ofSteps_bundle "weight" (-1) 0 3
  exact ⟨ofSteps_bundle, fun hf => hin.mp hf (by decide), hout.mpr (by decide)⟩

end BestFirst.Network
