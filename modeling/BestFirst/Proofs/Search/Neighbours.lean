import BestFirst.Proofs.Search.Improvement
import Mathlib

namespace BestFirst

variable {α : Type} [Add α] [LE α] [DecidableLE α]

namespace Store.Consistent

variable {s : Store α} {u : NodeIndex} {x : α}

theorem covers_iff_known? (hs : s.Consistent) :
    s.Covers u x ↔ ∃ i r, s.known? u = some i ∧ s.record? i = some r ∧ r.node = u ∧ r.rank ≤ x := by
  constructor
  case mp =>
    intro ⟨i, r, hr, hn, hle⟩
    exact ⟨i, r, hs.known?_eq_some_iff.mpr ⟨r, hr, hn⟩, hr.record, hn, hle⟩
  case mpr =>
    intro ⟨i, r, hi, hr, hn, hle⟩
    obtain ⟨t, ht, -⟩ := hs.known?_eq_some_iff.mp hi
    cases Option.some.inj (hr.symm.trans ht.record)
    exact ⟨i, r, ht, hn, hle⟩

theorem openAt?_eq_none_or (hs : s.Consistent) : s.openAt? u = none ∨ s.closedAt? u = none := by
  cases h : s.openAt? u
  case none   => exact .inl rfl
  case some i => exact .inr (hs.apart h)

theorem closedAt?_eq_none (hs : s.Consistent) (h : ∀ i r, s.IsClosed i r → r.node ≠ u) :
    s.closedAt? u = none := by
  by_contra hu
  have ⟨i, hi⟩ := Option.ne_none_iff_exists'.mp hu
  have ⟨r, hr, hn⟩ := hs.closed hi
  exact h i r hr hn

end Store.Consistent

namespace Problem

variable {p : Problem α} {i : Nat} {r : Record α} {e : EdgeIndex} {v : NodeIndex}

theorem Tried.known? {s : Store α} (h : p.Tried s i r e) (hs : s.Consistent)
    (hv : p.graph.opposite? e r.node = .ok (some v)) :
    ∃ x, p.rankVia r.node r.g e v = .ok x ∧
      ∃ j t, s.known? v = some j ∧ s.record? j = some t ∧ t.node = v ∧ t.rank ≤ x := by
  obtain hn | ⟨t, ht, hc⟩ := h
  case inl => exact absurd (hn.symm.trans hv) nofun
  case inr =>
    obtain rfl : t.node = v := ht.node_eq hv
    exact ⟨t.rank, ht.rankVia, hs.covers_iff_known?.mp hc⟩

variable [Zero α] [RankOrder α] {ph : Phase α} {s : State α} {xs : List (Nat × Record α)}

theorem Visits.known_neighbours (h : p.Visits ph s) (hs : s.store.Comparable) (hr : s.store.IsClosed i r) :
    ∃ es, p.graph.leavingEdges r.node = .ok es ∧
      ∀ e ∈ es, ph.Pending i e ∨ ∀ v, p.graph.opposite? e r.node = .ok (some v) →
        ∃ x, p.rankVia r.node r.g e v = .ok x ∧
          ∃ j t, s.store.known? v = some j ∧ s.store.record? j = some t ∧ t.node = v ∧ t.rank ≤ x :=
  have ⟨es, hl, ht⟩ := (h.relaxed hs).edges hr
  ⟨es, hl, fun e he => (ht e he).imp_right fun ht _ hv => ht.known? h.consistent hv⟩

-- When a turn begins, no edge is left to be relaxed. The record by which a neighbour is known is its
-- only one that is open or closed.
theorem Reaches.neighbours (h : p.Reaches xs s) (hs : s.store.Comparable) :
    s.store.closedAt? p.target = none ∧
    (∀ u, s.store.openAt? u = none ∨ s.store.closedAt? u = none) ∧
    ∀ u i, s.store.closedAt? u = some i → ∃ r es, s.store.record? i = some r ∧ r.node = u ∧
      p.graph.leavingEdges u = .ok es ∧ ∀ e ∈ es, ∀ v, p.graph.opposite? e u = .ok (some v) →
        ∃ x, p.rankVia u r.g e v = .ok x ∧
          ∃ j t, s.store.known? v = some j ∧ s.store.record? j = some t ∧ t.node = v ∧ t.rank ≤ x := by
  have hv : p.Visits (.choosing xs) s := h.visits
  have hc : s.store.Consistent := hv.consistent
  refine ⟨?target, fun u => hc.openAt?_eq_none_or, ?edges⟩
  case target => exact hc.closedAt?_eq_none fun _ _ hr => (hv.relaxed hs).targets hr
  case edges =>
    intro u i hi
    obtain ⟨r, hr, rfl⟩ := hc.closed hi
    have ⟨es, hl, hes⟩ := hv.known_neighbours hs hr
    exact ⟨r, es, hr.record, rfl, hl, fun e he => (hes e he).resolve_left id⟩

-- When nodes 0, 1 and 2 have been expanded, 2 is closed and 1 is open again. Edge 3, which leads there,
-- proposes a rank of 2, and no more than that is the rank of 1.
theorem braid_neighbours : ∃ xs s r t, braid.Reaches xs s ∧ s.store.Comparable ∧
    s.store.closedAt? 2 = some 2 ∧ s.store.record? 2 = some r ∧ braid.rankVia 2 r.g 3 1 = .ok 2 ∧
    s.store.openAt? 1 = some 5 ∧ s.store.record? 5 = some t ∧ t.rank ≤ 2 ∧
    s.store.closedAt? braid.target = none := by
  have h : (fun x => (x.2.store.closedAt? 2, x.2.store.openAt? 1, x.2.store.record? 2 |>.map (·.g))) <$>
    braid.head? 3 = some (some 2, some 5, some 5) := by cbv
  obtain ⟨⟨xs, s⟩, hx, h⟩ := Option.map_eq_some_iff.mp h
  simp only [Prod.mk.injEq] at h
  obtain ⟨hclosed, hopen, hg⟩ := h
  have hr : braid.Reaches xs s := .of_head? hx
  obtain ⟨htarget, -, hedges⟩ := hr.neighbours (Store.comparable _)
  obtain ⟨r, es, hrec, -, hl, hes⟩ := hedges 2 2 hclosed
  have hg : r.g = 5 := by simpa [hrec] using hg
  have hl' : braid.graph.leavingEdges 2 = .ok [2, 3, 4] := by cbv
  have hrank : braid.rankVia 2 r.g 3 1 = .ok 2 := by rw [hg]; cbv
  cases Except.ok.inj (hl'.symm.trans hl)
  obtain ⟨x, hrank', j, t, hj, ht, -, hle⟩ := hes 3 (by decide) 1 (by cbv)
  cases Except.ok.inj (hrank.symm.trans hrank')
  obtain rfl : j = 5 := by simpa [Store.known?, hopen] using hj.symm
  exact ⟨xs, s, r, t, hr, Store.comparable _, hclosed, hrec, hrank, hopen, ht, hle, htarget⟩

end Problem
end BestFirst
