import BestFirst.Proofs.Search.Steps

namespace BestFirst.Problem

variable {α : Type} [Add α]

inductive Genuine [Zero α] (p : Problem α) (s : Store α) : Record α → Prop
  | root {x} : p.costs.heuristic p.graph p.source p.target = .ok x → Genuine p s (p.root x)
  | proposed {i r es e t} : s.record? i = some r → p.graph.leavingEdges r.node = .ok es → e ∈ es →
    p.Proposes i r e t → Genuine p s t

variable {p : Problem α} {s s' : State α} {i j : Nat} {r t : Record α} {e : EdgeIndex}

section Genuine

variable [Zero α]

theorem Genuine.mono {s s' : Store α} (h : p.Genuine s t)
    (hs : ∀ {i r}, s.record? i = some r → s'.record? i = some r) : p.Genuine s' t := by
  cases h
  case root h => exact .root h
  case proposed hr hl he hp => exact .proposed (hs hr) hl he hp

theorem Genuine.heuristic {s : Store α} (h : p.Genuine s t) :
    p.costs.heuristic p.graph t.node p.target = .ok t.h := by
  cases h
  case root h => exact h
  case proposed h => exact h.heuristic

end Genuine

variable [LE α] [DecidableLE α]

theorem Relaxes.record? (h : p.Relaxes i r s e s') (hj : s.store.record? j = some t) :
    s'.store.record? j = some t := by
  cases h
  case foreign     => exact hj
  case covered     => exact hj
  case adopted ht _ _ => exact Store.record?_add_of_some ht hj

variable [Zero α] {ph : Phase α} {done rest : List EdgeIndex} {xs : List (Nat × Record α)}

theorem Visits.relaxing (h : p.Visits (.relaxing xs i r done rest) s) :
    s.store.record? i = some r ∧ r.node ≠ p.target ∧
      p.graph.leavingEdges r.node = .ok (done ++ rest) := by
  generalize hph : Phase.relaxing xs i r done rest = ph at h
  induction h generalizing done rest
  case start  => cases hph
  case finish => cases hph
  case close hb hn hc hl ih =>
    cases hph
    exact ⟨(Store.close_record? hc i).trans (Store.isOpen_of_best hb).record, hn, hl⟩
  case relax hr ih =>
    cases hph
    have ⟨hi, hn, hl⟩ := ih rfl
    exact ⟨hr.record? hi, hn, by simpa using hl⟩

theorem Visits.done_induction {Q : State α → EdgeIndex → Prop}
    (h : p.Visits (.relaxing xs i r done rest) s)
    (new : ∀ {s s' e done rest}, p.Visits (.relaxing xs i r done (e :: rest)) s →
      p.Relaxes i r s e s' → Q s' e)
    (old : ∀ {s s' e f done rest}, p.Visits (.relaxing xs i r done (e :: rest)) s →
      p.Relaxes i r s e s' → Q s f → Q s' f)
    (he : e ∈ done) : Q s e := by
  generalize hph : Phase.relaxing xs i r done rest = ph at h
  induction h generalizing done rest
  case start  => cases hph
  case finish => cases hph
  case close =>
    cases hph
    contradiction
  case relax hv hx ih =>
    cases hph
    cases List.mem_append.mp he
    case inl he => exact old hv hx (ih he rfl)
    case inr he => exact List.mem_singleton.mp he ▸ new hv hx

theorem Visits.hop {v : NodeIndex} (h : p.Visits (.relaxing xs i r done (e :: rest)) s)
    (ho : p.graph.opposite? e r.node = .ok (some v)) : p.graph.Hop r.node e v :=
  have ⟨_, _, hl⟩ := h.relaxing
  ⟨⟨_, hl, by simp⟩, ho⟩

theorem Visits.genuine (h : p.Visits ph s) (hr : s.store.record? i = some r) :
    p.Genuine s.store r := by
  induction h generalizing i r
  case start hs =>
    obtain ⟨x, _, hx, rfl⟩ := start_eq_ok hs
    rw [Store.record?_add, Store.record?_empty] at hr
    split at hr
    case isTrue  => exact Option.some.inj hr ▸ .root hx
    case isFalse => contradiction
  case close hc _ ih =>
    rw [Store.close_record? hc] at hr
    exact (ih hr).mono fun h => (Store.close_record? hc _).trans h
  case relax hv hx ih =>
    have ⟨hi, _, hl⟩ := hv.relaxing
    cases hx
    case foreign => exact ih hr
    case covered => exact ih hr
    case adopted t ht hp hc =>
      rw [State.adopt, Store.record?_add] at hr
      split at hr
      case isTrue =>
        cases Option.some.inj hr
        exact .proposed (Store.record?_add_of_some ht hi) hl (by simp) hp
      case isFalse => exact (ih hr).mono (Store.record?_add_of_some ht)
  case finish ih => exact ih hr

end BestFirst.Problem
