import BestFirst.Proofs.Search.Reachability

namespace BestFirst

variable {α : Type}

structure Graph.Navigable (g : Graph α) (u : NodeIndex) : Prop where
  nodeId {v}       : g.Reachable u v → ∃ id, g.nodeId v = .ok id
  leavingEdges {v} : g.Reachable u v → ∃ es, g.leavingEdges v = .ok es ∧
    ∀ e ∈ es, ∃ w?, g.opposite? e v = .ok w?

namespace Problem

-- No question that a search may come to ask remains without an answer.
structure Answerable (p : Problem α) : Prop where
  graph         : p.graph.Navigable p.source
  target        : ∃ id, p.graph.nodeId p.target = .ok id
  heuristic {u} : p.graph.Reachable p.source u →
    ∃ h, p.costs.heuristic p.graph u p.target = .ok h
  cost {u e v}  : p.graph.Reachable p.source u → p.graph.Hop u e v →
    ∃ c, p.costs.cost p.graph u e v = .ok c

variable [Add α] [LE α] [DecidableLE α] {p : Problem α} {s : State α} {i : Nat} {r t : Record α}
  {e : EdgeIndex} {es done rest : List EdgeIndex} {xs : List (Nat × Record α)}

theorem exists_relax (hp : p.Proposes i r e t) (hi : i < s.store.arena.size) :
    ∃ s', p.relax i r s e = .ok s' := by
  cases hc : s.covers t.node t.rank
  case true => exact ⟨_, relax_eq_ok_iff.mpr (.covered hp hc)⟩
  case false =>
    have ht {q : Nat} (hq : t.parent = some q) : q < s.store.arena.size :=
      Option.some.inj (hp.parent.symm.trans hq) ▸ hi
    exact ⟨_, relax_eq_ok_iff.mpr (.adopted ht hp hc)⟩

variable [Zero α]

theorem Answerable.start (hp : p.Answerable) : ∃ s, p.start = .ok s := by
  have ⟨h, hh⟩ := hp.heuristic .refl
  have ⟨id, hid⟩ := hp.graph.nodeId .refl
  have ⟨id', hid'⟩ := hp.target
  simp only [Problem.start, Problem.heuristic, hh, hid, hid', State.attempt_ok, Except.ok_bind, pure,
    Except.pure]
  exact ⟨_, rfl⟩

theorem Visits.exists_relax (h : p.Visits (.relaxing xs i r done (e :: rest)) s)
    (hp : p.Answerable) : ∃ s', p.relax i r s e = .ok s' := by
  have ⟨hr, _, hl⟩ := h.relaxing
  have hu : p.graph.Reachable p.source r.node := h.reachable hr
  have ⟨es, hl', hopp⟩ := hp.graph.leavingEdges hu
  cases Except.ok.inj (hl.symm.trans hl')
  have ⟨v?, hv⟩ := hopp e (by simp)
  cases v?
  case none => exact ⟨s, relax_eq_ok_iff.mpr (.foreign hv)⟩
  case some v =>
    have hop : p.graph.Hop r.node e v := h.hop hv
    have ⟨x, hx⟩ := hp.heuristic (hu.tail ⟨e, hop⟩)
    have ⟨c, hc⟩ := hp.cost hu hop
    let t : Record α := { node := v, via := asEdge e, parent := some i, g := r.g + c, h := x }
    have ht : p.Proposes i r e t := ⟨hv, hx, ⟨c, hc, rfl⟩, rfl, rfl⟩
    exact Problem.exists_relax ht (Store.lt_size_of_record? hr)

theorem Visits.exists_relax_all (h : p.Visits (.relaxing xs i r done es) s) (hp : p.Answerable) :
    ∃ s', es.foldlM (p.relax i r) s = .ok s' := by
  induction es generalizing s done
  case nil => exact ⟨s, rfl⟩
  case cons e es ih =>
    have ⟨s₁, h₁⟩ := h.exists_relax hp
    have ⟨s', h'⟩ := ih (h.relax (relax_eq_ok_iff.mp h₁))
    exact ⟨s', (List.foldlM_cons ..).trans ((congrArg (· >>= _) h₁).trans h')⟩

theorem Visits.exists_turn (h : p.Visits (.choosing xs) s) (hp : p.Answerable) :
    ∃ t, p.turn s = .ok t := by
  cases hb : s.store.best.1
  case none => exact ⟨_, turn_eq_exhausted hb⟩
  case some x =>
    have ⟨i, r⟩ := x
    by_cases hn : r.node = p.target
    case pos => exact ⟨_, turn_eq_found hb hn⟩
    case neg =>
      have hr : s.store.IsOpen i r := Store.isOpen_of_best hb
      have hu : p.graph.Reachable p.source r.node := h.reachable hr.record
      have ⟨id, hid⟩ := hp.graph.nodeId hu
      have ⟨es, hl, _⟩ := hp.graph.leavingEdges hu
      obtain ⟨store, hc⟩ : ∃ store, s.store.best.2.close i = .ok store :=
        ⟨_, Store.close_eq_ok_iff.mpr ⟨r, Store.best_isOpen.mpr hr, rfl⟩⟩
      have ⟨s', h'⟩ := (h.close hb hn hc hl).exists_relax_all hp
      refine ⟨.next s', turn_eq_next_iff.mpr ⟨i, r, hb, hn, ?_⟩⟩
      simp only [expand, hc, hid, hl, State.attempt_ok, Except.ok_bind]
      exact h'

theorem Reaches.exists_report {n : Nat} {answer : Except Fault (Report α)} (h : p.Reaches xs s)
    (hp : p.Answerable) (hr : p.run n s = some answer) : ∃ report, answer = .ok report := by
  induction n generalizing s xs
  case zero => contradiction
  case succ n ih =>
    obtain ⟨t, ht⟩ := h.visits.exists_turn hp
    simp only [run, ht] at hr
    cases t
    case ended report => exact ⟨report, (Option.some.inj hr).symm⟩
    case next s' =>
      obtain ⟨i, r, hb, _⟩ := turn_eq_next_iff.mp ht
      exact ih (h.turn hb ht) hr

theorem Answerable.returns {n : Nat} {answer : Except Fault (Report α)} (hp : p.Answerable)
    (hs : p.start = .ok s) (hr : p.run n s = some answer) : ∃ report, p.Returns report := by
  have ⟨report, h⟩ := (Reaches.start hs).exists_report hp hr
  exact ⟨report, s, n, hs, h ▸ hr⟩

end Problem
end BestFirst
