import BestFirst.Proofs.Search.Expansion
import BestFirst.Proofs.Search.Walks
import Mathlib

namespace BestFirst

variable {α : Type}

def Graph.Reachable (g : Graph α) : NodeIndex → NodeIndex → Prop :=
  Relation.ReflTransGen fun u v => ∃ e, g.Hop u e v

namespace Store

def Knows (s : Store α) (u : NodeIndex) : Prop :=
  (s.openAt? u).isSome ∨ (s.closedAt? u).isSome

variable {s s' : Store α} {i : Nat} {r : Record α} {u : NodeIndex}

theorem knows_close (h : s.close i = .ok s') : s'.Knows u ↔ s.Knows u := by
  have ⟨r, hr, _⟩ := close_eq_ok_iff.mp h
  simp only [Knows, close_openAt? h hr, close_closedAt? h hr]
  split
  case isTrue hn  => simp [← hn, hr.opened]
  case isFalse hn => exact .rfl

theorem knows_add [Add α] [LE α] [DecidableLE α]
    (hr : ∀ {p : Nat}, r.parent = some p → p < s.arena.size) :
    (s.add r hr).Knows u ↔ r.node = u ∨ s.Knows u := by
  simp only [Knows, openAt?_add, closedAt?_add]
  split
  case isTrue hn  => simp [hn]
  case isFalse hn => simp [hn]

theorem Intact.isClosed_of_knows [Add α] [LE α] [DecidableLE α] (hs : s.Intact)
    (hb : s.best.1 = none) (hu : s.Knows u) : ∃ i r, s.IsClosed i r ∧ r.node = u := by
  obtain hu | hu := hu
  case inl =>
    have ⟨i, hi⟩ := Option.isSome_iff_exists.mp hu
    have ⟨r, hr, _⟩ := hs.opened hi
    exact absurd hr (hs.not_isOpen_of_best hb)
  case inr =>
    have ⟨i, hi⟩ := Option.isSome_iff_exists.mp hu
    exact ⟨i, hs.closed hi⟩

end Store

theorem State.knows_of_covers [Add α] [LE α] [DecidableLE α] {s : State α} {u : NodeIndex} {x : α}
    (h : s.covers u x) : s.store.Knows u := by
  simp only [covers, Bool.or_eq_true, holds_iff] at h
  obtain ⟨i, _, hi, _⟩ | ⟨i, _, hi, _⟩ := h
  · exact .inl (Option.isSome_of_eq_some hi)
  · exact .inr (Option.isSome_of_eq_some hi)

namespace Problem

section Explored

-- Where a closed node can be left for, a search has been, unless the edge is still to come.
structure Explored (p : Problem α) (ph : Phase α) (s : Store α) : Prop where
  source         : s.Knows p.source
  hops {i r e v} : s.IsClosed i r → p.graph.Hop r.node e v → ph.Pending i e ∨ s.Knows v
  target {i r}   : s.IsClosed i r → r.node ≠ p.target

variable {p : Problem α} {s s' : Store α} {i : Nat} {r : Record α} {e : EdgeIndex}
  {xs : List (Nat × Record α)} {done rest : List EdgeIndex}

theorem Explored.relax (h : p.Explored (.relaxing xs i r done (e :: rest)) s)
    (hr : s.record? i = some r) (hk : ∀ {u}, s.Knows u → s'.Knows u)
    (hc : ∀ {j t}, s'.IsClosed j t → s.IsClosed j t)
    (he : ∀ {v}, p.graph.opposite? e r.node = .ok (some v) → s'.Knows v) :
    p.Explored (.relaxing xs i r (done ++ [e]) rest) s' where
  source    := hk h.source
  target ht := h.target (hc ht)
  hops {j t f v} ht hop := by
    obtain ⟨rfl, hf⟩ | hv := h.hops (hc ht) hop
    case inr => exact .inr (hk hv)
    case inl =>
      obtain rfl : t = r := Option.some.inj ((hc ht).record.symm.trans hr)
      obtain rfl | hf := List.mem_cons.mp hf
      · exact .inr (he hop.opposite)
      · exact .inl ⟨rfl, hf⟩

theorem Explored.close {es : List EdgeIndex} (h : p.Explored (.choosing xs) s) (hr : s.IsOpen i r)
    (hn : r.node ≠ p.target) (hc : s.close i = .ok s') (hl : p.graph.leavingEdges r.node = .ok es) :
    p.Explored (.relaxing xs i r [] es) s' where
  source    := (Store.knows_close hc).mpr h.source
  target ht := by
    obtain ⟨rfl, rfl⟩ | ⟨ht, -⟩ := (Store.isClosed_close hc hr).mp ht
    · exact hn
    · exact h.target ht
  hops ht hop := by
    obtain ⟨rfl, rfl⟩ | ⟨ht, -⟩ := (Store.isClosed_close hc hr).mp ht
    case inl =>
      have ⟨es', hl', he⟩ := hop.leaves
      cases Except.ok.inj (hl.symm.trans hl')
      exact .inl ⟨rfl, he⟩
    case inr => exact .inr ((Store.knows_close hc).mpr ((h.hops ht hop).resolve_left id))

theorem Explored.best [LE α] [DecidableLE α] {ph : Phase α} (h : p.Explored ph s) :
    p.Explored ph s.best.2 where
  source    := h.source
  hops ht   := h.hops (Store.best_isClosed.mp ht)
  target ht := h.target (Store.best_isClosed.mp ht)

end Explored

variable [Zero α] [Add α] [LE α] [DecidableLE α] {p : Problem α} {ph : Phase α} {s : State α}
  {xs : List (Nat × Record α)} {i : Nat} {r : Record α} {u : NodeIndex} {report : Report α}

theorem Visits.explored (h : p.Visits ph s) : p.Explored ph s.store := by
  induction h
  case start h =>
    have hn {i r} := not_isClosed_of_start (i := i) (r := r) h
    obtain ⟨x, hr, -, rfl⟩ := start_eq_ok h
    exact ⟨(Store.knows_add hr).mpr (.inl rfl), fun h => absurd h hn, fun h => absurd h hn⟩
  case close hb hn hc hl ih =>
    exact ih.best.close (Store.isOpen_best hb) hn hc hl
  case relax hv hx ih =>
    have ⟨hr, _, _⟩ := hv.relaxing
    cases hx
    case foreign ho => exact ih.relax hr id id fun hv => by simp [ho] at hv
    case covered t hp hc =>
      refine ih.relax hr id id fun hv => ?_
      cases Except.ok.inj (hp.opposite.symm.trans hv)
      exact State.knows_of_covers hc
    case adopted t ht hp _ =>
      refine ih.relax hr (fun hu => (Store.knows_add ht).mpr (.inr hu))
        (fun hj => ((Store.isClosed_add ht).mp hj).left) fun hv => (Store.knows_add ht).mpr (.inl ?_)
      exact Option.some.inj (Except.ok.inj (hp.opposite.symm.trans hv))
  case finish ih =>
    refine ⟨ih.source, fun ht hop => ?_, ih.target⟩
    exact .inr ((ih.hops ht hop).resolve_left (by simp [Phase.Pending]))

theorem Visits.reachable (h : p.Visits ph s) (hr : s.store.record? i = some r) :
    p.graph.Reachable p.source r.node := by
  refine h.record_induction (P := fun _ r => p.graph.Reachable p.source r.node) ?root ?proposed hr
  case root     => exact fun _ _ => .refl
  case proposed => exact fun _ hu _ hop _ => hu.tail ⟨_, hop⟩

theorem Visits.isClosed_of_reachable (h : p.Visits (.choosing xs) s) (hb : s.store.best.1 = none)
    (hu : p.graph.Reachable p.source u) : ∃ i r, s.store.IsClosed i r ∧ r.node = u := by
  apply h.intact.isClosed_of_knows hb
  induction hu
  case refl => exact h.explored.source
  case tail v w _ hop ih =>
    have ⟨e, hop⟩ := hop
    have ⟨i, r, hr, hn⟩ := h.intact.isClosed_of_knows hb ih
    exact (h.explored.hops hr (hn ▸ hop)).resolve_left id

theorem Ends.reachable_of_found {path : Path α} (h : p.Ends xs report)
    (hf : report.verdict = .found path) : p.graph.Reachable p.source p.target := by
  have ⟨s, hs, ht⟩ := h
  have ⟨_, _, hv⟩ := turn_eq_ended ht
  rw [hf] at hv
  have ⟨i, r, hb, hn, _⟩ := hv
  exact hn ▸ hs.visits.reachable (Store.isOpen_of_best hb).record

theorem Ends.not_reachable_of_exhausted (h : p.Ends xs report) (he : report.verdict = .exhausted) :
    ¬p.graph.Reachable p.source p.target := by
  intro hu
  have ⟨s, hs, ht⟩ := h
  have ⟨_, _, hb⟩ := turn_eq_ended ht
  rw [he] at hb
  have ⟨i, r, hr, hn⟩ := hs.visits.isClosed_of_reachable hb hu
  exact hs.visits.explored.target hr hn

theorem Ends.mem_expanded_iff (h : p.Ends xs report) (he : report.verdict = .exhausted) :
    u ∈ xs.map (·.2.node) ↔ p.graph.Reachable p.source u := by
  have ⟨s, hs, ht⟩ := h
  have ⟨_, _, hb⟩ := turn_eq_ended ht
  rw [he] at hb
  have hx := hs.visits.expanded
  constructor
  case mp =>
    intro hu
    obtain ⟨x, hx', rfl⟩ := List.mem_map.mp hu
    exact hs.visits.reachable (hx.record hx')
  case mpr =>
    intro hu
    have ⟨i, r, hr, hn⟩ := hs.visits.isClosed_of_reachable hb hu
    exact List.mem_map.mpr ⟨(i, r), hx.closed hr, hn⟩

theorem Ends.exists_estimate (h : p.Ends xs report) (he : report.verdict = .exhausted)
    (hu : p.graph.Reachable p.source u) : ∃ x, p.costs.heuristic p.graph u p.target = .ok x := by
  have ⟨s, hs, ht⟩ := h
  have ⟨_, _, hb⟩ := turn_eq_ended ht
  rw [he] at hb
  obtain ⟨i, r, hr, rfl⟩ := hs.visits.isClosed_of_reachable hb hu
  exact ⟨r.h, (hs.visits.genuine hr.record).heuristic⟩

theorem Ends.found_iff (h : p.Ends xs report) :
    (∃ path, report.verdict = .found path) ↔ p.graph.Reachable p.source p.target where
  mp    := fun ⟨_, hf⟩ => h.reachable_of_found hf
  mpr hu := by
    cases hv : report.verdict
    case found path => exact ⟨path, rfl⟩
    case exhausted  => exact absurd hu (h.not_reachable_of_exhausted hv)

theorem Ends.exhausted_iff (h : p.Ends xs report) :
    report.verdict = .exhausted ↔ ¬p.graph.Reachable p.source p.target := by
  rw [← h.found_iff]
  cases report.verdict <;> simp

theorem Returns.exists_ends (h : p.Returns report) : ∃ xs, p.Ends xs report :=
  have ⟨xs, s, h⟩ := h.reaches
  ⟨xs, s, h⟩

theorem Returns.complete (h : p.Returns report) :
    ((∃ path, report.verdict = .found path) ↔ p.graph.Reachable p.source p.target) ∧
    (report.verdict = .exhausted ↔ ¬p.graph.Reachable p.source p.target) ∧
    (∃ xs, p.Ends xs report) ∧
    ∀ xs, p.Ends xs report → report.verdict = .exhausted →
      ∀ u, u ∈ xs.map (·.2.node) ↔ p.graph.Reachable p.source u := by
  have ⟨xs, he⟩ := h.exists_ends
  exact ⟨he.found_iff, he.exhausted_iff, ⟨xs, he⟩, fun _ he hv _ => he.mem_expanded_iff hv⟩

theorem explores_of_search (h : p.search = .ok report) :
    ((∃ path, report.verdict = .found path) ↔ p.graph.Reachable p.source p.target) ∧
    (report.verdict = .exhausted ↔ ¬p.graph.Reachable p.source p.target) ∧
    ∃ xs, p.Ends xs report ∧ (report.verdict = .exhausted →
      ∀ u, u ∈ xs.map (·.2.node) ↔ p.graph.Reachable p.source u) := by
  have ⟨xs, he⟩ := (Returns.of_search h).exists_ends
  exact ⟨he.found_iff, he.exhausted_iff, xs, he, fun hv _ => he.mem_expanded_iff hv⟩

-- The target can be left but not entered. The other nodes are on a circle, one edge of which costs
-- less than nothing, and the estimates are as wrong as can be.
def island : Problem Int where
  graph  := Network.toGraph <| .ofDraft {
    nodes := #[{ id := "s" }, { id := "a" }, { id := "b" }, { id := "t" }]
    edges := #[
      { id := "sa", source := 0, target := 1, directed := true, numbers := {("weight", 5)} },
      { id := "ab", source := 1, target := 2, directed := true, numbers := {("weight", -4)} },
      { id := "bs", source := 2, target := 0, directed := true, numbers := {("weight", 1)} },
      { id := "ts", source := 3, target := 0, directed := true, numbers := {("weight", 1)} }] }
  costs  := { Costs.standard with heuristic _ u _ := .ok (-10 * u) }
  source := 0
  target := 3

theorem island_complete : ∃ xs report, island.Ends xs report ∧ report.verdict = .exhausted ∧
    ¬island.graph.Reachable 0 3 ∧ ∀ u, u ∈ xs.map (·.2.node) ↔ island.graph.Reachable 0 u := by
  have h : Report.verdict <$> island.search = .ok .exhausted := by cbv
  obtain ⟨stats, asked, h⟩ := Returns.of_verdict h
  obtain ⟨_, he, ⟨xs, hx⟩, hu⟩ := h.complete
  exact ⟨xs, _, hx, rfl, he.mp rfl, hu xs hx rfl⟩

end Problem
end BestFirst
