import BestFirst.Proofs.Search.Locality
import BestFirst.Proofs.Search.Progress

namespace BestFirst

variable {α β : Type}

theorem State.attempt_eq_error_iff {s : State α} {x : Except Failure β} {fault : Fault} :
    s.attempt x = .error fault ↔ x = .error fault.failure ∧ fault.asked = s.asked := by
  have ⟨failure, asked⟩ := fault
  cases x <;> simp [attempt, Except.mapError, eq_comm]

theorem Store.exists_close_best [LE α] [DecidableLE α] {s : Store α} {i : Nat} {r : Record α}
    (hb : s.best.1 = some (i, r)) : ∃ s', s.best.2.close i = .ok s' :=
  ⟨_, close_eq_ok_iff.mpr ⟨r, isOpen_best hb, rfl⟩⟩

theorem State.offer_eq_error [Add α] [LE α] [DecidableLE α] {s : State α} {i : Nat} {v : NodeIndex}
    {e : EdgeIndex} {g h : α} {cause : Failure} (hx : s.offer i v e g h = .error cause) :
    s.covers v (g + h) = false ∧ s.store.openFrom i v (asEdge e) g h = .error cause := by
  simp only [offer] at hx
  split at hx
  case isTrue     => contradiction
  case isFalse hc =>
    simp only [Except.bind_eq_error_iff, pure, Except.pure, reduceCtorEq, and_false, exists_false,
      or_false] at hx
    exact ⟨Bool.eq_false_iff.mpr hc, hx⟩

namespace Problem

inductive Callee
  | graph
  | costs
  | store

section Calls

variable [Zero α] [Add α] [LE α] [DecidableLE α]

-- The calls that a search may come to make, wherever it is in its run, each with what is answered.
inductive Calls (p : Problem α) : Callee → {β : Type} → Except Failure β → Prop
  | sourceEstimate : Calls p .costs (p.costs.heuristic p.graph p.source p.target)
  | sourceId : Calls p .graph (p.graph.nodeId p.source)
  | targetId : Calls p .graph (p.graph.nodeId p.target)
  | close {xs s i r} : p.Visits (.choosing xs) s → s.store.best.1 = some (i, r) →
    r.node ≠ p.target → Calls p .store (s.store.best.2.close i)
  | nodeId {xs s i r} : p.Visits (.choosing xs) s → s.store.best.1 = some (i, r) →
    r.node ≠ p.target → Calls p .graph (p.graph.nodeId r.node)
  | leavingEdges {xs s i r} : p.Visits (.choosing xs) s → s.store.best.1 = some (i, r) →
    r.node ≠ p.target → Calls p .graph (p.graph.leavingEdges r.node)
  | opposite {xs i r done e rest s} : p.Visits (.relaxing xs i r done (e :: rest)) s →
    Calls p .graph (p.graph.opposite? e r.node)
  | estimate {xs i r done e rest s v} : p.Visits (.relaxing xs i r done (e :: rest)) s →
    p.graph.opposite? e r.node = .ok (some v) → Calls p .costs (p.costs.heuristic p.graph v p.target)
  | cost {xs i r done e rest s v} : p.Visits (.relaxing xs i r done (e :: rest)) s →
    p.graph.opposite? e r.node = .ok (some v) → Calls p .costs (p.costs.cost p.graph r.node e v)
  | openFrom {xs i r done e rest s t} : p.Visits (.relaxing xs i r done (e :: rest)) s →
    p.Proposes i r e t → s.covers t.node t.rank = false →
    Calls p .store (s.store.openFrom i t.node (asEdge e) t.g t.h)

def Fails (p : Problem α) (fault : Fault) : Prop :=
  p.start = .error fault ∨ ∃ s n, p.start = .ok s ∧ p.run n s = some (.error fault)

def Meets (p : Problem α) (cause : Failure) : Prop :=
  ∃ (callee : Callee) (β : Type), p.Calls callee (.error cause : Except Failure β)

end Calls

variable [Zero α] [Add α] [LE α] [DecidableLE α] {p : Problem α} {s : State α} {i : Nat}
  {r : Record α} {e : EdgeIndex} {es done rest : List EdgeIndex} {xs : List (Nat × Record α)}
  {fault : Fault} {callee : Callee} {x : Except Failure β}

theorem Calls.store_ok (h : p.Calls .store x) : ∃ b, x = .ok b := by
  cases h
  case close hb _ => exact Store.exists_close_best hb
  case openFrom i r _ _ _ s t h _ _ =>
    have hi : i < s.store.arena.size := Store.lt_size_of_record? h.relaxing.left
    exact ⟨_, dif_pos ⟨Int.natCast_nonneg i, hi⟩⟩

theorem Calls.graph_ok (h : p.Calls .graph x) (hg : p.graph.Navigable p.source)
    (ht : ∃ id, p.graph.nodeId p.target = .ok id) : ∃ b, x = .ok b := by
  cases h
  case sourceId       => exact hg.nodeId .refl
  case targetId       => exact ht
  case nodeId h hb _  => exact hg.nodeId (h.reachable (Store.isOpen_of_best hb).record)
  case leavingEdges h hb _ =>
    have ⟨es, hl, _⟩ := hg.leavingEdges (h.reachable (Store.isOpen_of_best hb).record)
    exact ⟨es, hl⟩
  case opposite e _ _ h =>
    have ⟨es, hl, ho⟩ := hg.leavingEdges (h.reachable h.relaxing.left)
    cases Except.ok.inj (h.relaxing.right.right.symm.trans hl)
    exact ho e (by simp)

theorem Calls.costs_cases {P : {β : Type} → Except Failure β → Prop} (h : p.Calls .costs x)
    (estimate : ∀ {u}, p.graph.Reachable p.source u → P (p.costs.heuristic p.graph u p.target))
    (cost : ∀ {u e v}, p.graph.Reachable p.source u → p.graph.Hop u e v →
      P (p.costs.cost p.graph u e v)) : P x := by
  have hrelax {xs i r done e rest s} (h : p.Visits (.relaxing xs i r done (e :: rest)) s) :
      p.graph.Reachable p.source r.node := h.reachable h.relaxing.left
  cases h
  case sourceEstimate => exact estimate .refl
  case estimate h ho  => exact estimate ((hrelax h).tail ⟨_, h.hop ho⟩)
  case cost h ho      => exact cost (hrelax h) (h.hop ho)

theorem Answerable.calls_ok (hp : p.Answerable) (h : p.Calls callee x) : ∃ b, x = .ok b := by
  cases callee
  case graph => exact h.graph_ok hp.graph hp.target
  case costs => exact h.costs_cases (P := fun x => ∃ b, x = .ok b) hp.heuristic hp.cost
  case store => exact h.store_ok

section Failing

theorem Calls.meets {cause : Failure} (h : p.Calls callee x) (hx : x = .error cause) :
    p.Meets cause :=
  ⟨callee, β, hx ▸ h⟩

theorem meets_of_start (h : p.start = .error fault) : p.Meets fault.failure := by
  simp only [start, heuristic, Except.bind_eq_error_iff, State.attempt_eq_error_iff, pure,
    Except.pure, reduceCtorEq, and_false, exists_false, or_false] at h
  obtain ⟨h, -⟩ | ⟨_, -, ⟨h, -⟩ | ⟨_, -, h, -⟩⟩ := h
  case inl     => exact Calls.sourceEstimate.meets h
  case inr.inl => exact Calls.sourceId.meets h
  case inr.inr => exact Calls.targetId.meets h

theorem Visits.meets_of_relax (hv : p.Visits (.relaxing xs i r done (e :: rest)) s)
    (h : p.relax i r s e = .error fault) : p.Meets fault.failure := by
  simp only [Problem.relax, Except.bind_eq_error_iff, State.attempt_eq_error_iff,
    State.attempt_eq_ok_iff] at h
  obtain ⟨h, -⟩ | ⟨v?, ho, h⟩ := h
  case inl => exact (Calls.opposite hv).meets h
  case inr =>
    cases v?
    case none   => contradiction
    case some v =>
      simp only [Problem.heuristic, Problem.cost, Except.bind_eq_error_iff, Except.bind_eq_ok_iff,
        State.attempt_eq_error_iff, State.attempt_eq_ok_iff, pure, Except.pure, reduceCtorEq,
        and_false, exists_false, or_false] at h
      obtain ⟨h, -⟩ | ⟨_, ⟨x, hx, ⟨⟩⟩, ⟨h, -⟩ | ⟨_, ⟨c, hc, ⟨⟩⟩, h, -⟩⟩ := h
      case inl     => exact (Calls.estimate hv ho).meets h
      case inr.inl => exact (Calls.cost hv ho).meets h
      case inr.inr =>
        let t : Record α := { node := v, via := asEdge e, parent := some i, g := r.g + c, h := x }
        have ht : p.Proposes i r e t := ⟨ho, hx, ⟨c, hc, rfl⟩, rfl, rfl⟩
        obtain ⟨hcov, h⟩ := State.offer_eq_error h
        exact (Calls.openFrom hv ht hcov).meets h

theorem Visits.meets_of_relax_all (hv : p.Visits (.relaxing xs i r done es) s)
    (h : es.foldlM (p.relax i r) s = .error fault) : p.Meets fault.failure := by
  induction es generalizing s done
  case nil => contradiction
  case cons e es ih =>
    simp only [List.foldlM_cons, Except.bind_eq_error_iff] at h
    cases h
    case inl h => exact hv.meets_of_relax h
    case inr h =>
      have ⟨s', hs, h⟩ := h
      exact ih (hv.relax (relax_eq_ok_iff.mp hs)) h

theorem Visits.meets_of_turn (hv : p.Visits (.choosing xs) s) (h : p.turn s = .error fault) :
    p.Meets fault.failure := by
  cases hb : s.store.best.1
  case none   => simp [turn_eq_exhausted hb] at h
  case some x =>
    have ⟨i, r⟩ := x
    by_cases hn : r.node = p.target
    case pos => simp [turn_eq_found hb hn] at h
    case neg =>
      simp only [turn_eq_expand hb hn, Except.map_eq_error_iff, expand, Except.bind_eq_error_iff,
        State.attempt_eq_error_iff, State.attempt_eq_ok_iff] at h
      obtain ⟨h, -⟩ | ⟨store, hc, ⟨h, -⟩ | ⟨_, -, ⟨h, -⟩ | ⟨es, hl, h⟩⟩⟩ := h
      case inl         => exact (Calls.close hv hb hn).meets h
      case inr.inl     => exact (Calls.nodeId hv hb hn).meets h
      case inr.inr.inl => exact (Calls.leavingEdges hv hb hn).meets h
      case inr.inr.inr => exact (hv.close hb hn hc hl).meets_of_relax_all h

theorem Reaches.meets_of_run {n : Nat} (hs : p.Reaches xs s) (h : p.run n s = some (.error fault)) :
    p.Meets fault.failure := by
  induction n generalizing s xs
  case zero   => contradiction
  case succ n ih =>
    simp only [run] at h
    split at h
    case h_1 ht =>
      cases h
      exact hs.visits.meets_of_turn ht
    case h_2 => cases h
    case h_3 ht =>
      obtain ⟨_, _, hb, _⟩ := turn_eq_next_iff.mp ht
      exact ih (hs.turn hb ht) h

-- Nothing else goes wrong in a search than what it is answered.
theorem Fails.meets (h : p.Fails fault) : p.Meets fault.failure := by
  cases h
  case inl h => exact meets_of_start h
  case inr h =>
    have ⟨s, n, hs, h⟩ := h
    exact (Reaches.start hs).meets_of_run h

theorem Fails.of_costs {P : Failure → Prop} (h : p.Fails fault) (hg : p.graph.Navigable p.source)
    (ht : ∃ id, p.graph.nodeId p.target = .ok id)
    (estimate : ∀ {u}, p.graph.Reachable p.source u →
      ∀ {cause}, p.costs.heuristic p.graph u p.target = .error cause → P cause)
    (cost : ∀ {u e v}, p.graph.Reachable p.source u → p.graph.Hop u e v →
      ∀ {cause}, p.costs.cost p.graph u e v = .error cause → P cause) : P fault.failure := by
  have ⟨callee, _, h⟩ := h.meets
  cases callee
  case graph =>
    have ⟨_, hx⟩ := h.graph_ok hg ht
    contradiction
  case costs =>
    exact h.costs_cases (P := fun x => ∀ {cause}, x = .error cause → P cause) estimate cost rfl
  case store =>
    have ⟨_, hx⟩ := h.store_ok
    contradiction

theorem fails_of_search (h : p.search = .error fault) :
    p.Fails fault ∨ fault.failure = .unfinished := by
  simp only [search, Except.bind_eq_error_iff] at h
  cases h
  case inl h => exact .inl (.inl h)
  case inr h =>
    obtain ⟨s, hs, h⟩ := h
    split at h
    case h_1 hr => exact .inl (.inr ⟨s, turnLimit, hs, h ▸ hr⟩)
    case h_2    => exact .inr (Except.error.inj h ▸ rfl)

theorem search_eq_error (h : p.start = .error fault) : p.search = .error fault := by
  simp only [search, h]
  rfl

theorem Fails.eq_of_start {fault' : Fault} (h : p.Fails fault) (hs : p.start = .error fault') :
    fault = fault' := by
  cases h
  case inl h => exact Except.error.inj (h.symm.trans hs)
  case inr h =>
    have ⟨s, n, h, _⟩ := h
    exact absurd (h.symm.trans hs) nofun

theorem start_eq_error_of_estimate {cause : Failure}
    (hc : p.costs.heuristic p.graph p.source p.target = .error cause) :
    p.start = .error ⟨cause, #[.heuristic p.source p.target]⟩ := by
  simp only [start, heuristic, hc]
  rfl

theorem start_eq_error_of_source {h : α} {cause : Failure}
    (hh : p.costs.heuristic p.graph p.source p.target = .ok h)
    (hc : p.graph.nodeId p.source = .error cause) :
    p.start = .error ⟨cause, #[.heuristic p.source p.target]⟩ := by
  simp only [start, heuristic, hh, hc]
  rfl

theorem start_eq_error_of_target {h : α} {id : String} {cause : Failure}
    (hh : p.costs.heuristic p.graph p.source p.target = .ok h)
    (hid : p.graph.nodeId p.source = .ok id) (hc : p.graph.nodeId p.target = .error cause) :
    p.start = .error ⟨cause, #[.heuristic p.source p.target]⟩ := by
  simp only [start, heuristic, hh, hid, hc]
  rfl

theorem Answerable.not_fails (hp : p.Answerable) : ¬p.Fails fault := by
  intro h
  have ⟨_, _, h⟩ := h.meets
  have ⟨_, hx⟩ := hp.calls_ok h
  contradiction

end Failing

end Problem
end BestFirst
