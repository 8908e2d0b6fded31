import BestFirst.Proofs.Network.Navigation
import BestFirst.Proofs.Search.Ascent
import BestFirst.Proofs.Search.Optimality
import Mathlib

namespace BestFirst.Problem

variable {α : Type} [AddCommMonoid α] [LinearOrder α]

-- Where one can go on, there are estimates, and the one falls by no more than what it costs.
def Consistent (p : Problem α) : Prop :=
  ∀ {u e v c}, p.graph.Hop u e v → p.costs.cost p.graph u e v = .ok c →
    ∃ x y, p.costs.heuristic p.graph u p.target = .ok x ∧
      p.costs.heuristic p.graph v p.target = .ok y ∧ x ≤ c + y

variable [IsOrderedCancelAddMonoid α] {p : Problem α} {ph : Phase α} {s : State α} {u v : NodeIndex}
  {a b c x y : α} {i : Nat} {r : Record α} {path : Path α} {xs : List (Nat × Record α)}

theorem Consistent.ascends (hp : p.Consistent) : p.Ascends where
  comparable _ := Store.comparable _
  rank_le {xs i r done e rest s t} hv ht := by
    have ⟨hr, _⟩ := hv.relaxing
    have ⟨c, hc, hg⟩ := ht.cost
    have ⟨x, y, hx, hy, hle⟩ := hp (hv.hop ht.opposite) hc
    cases Except.ok.inj (hx.symm.trans (hv.genuine hr).heuristic)
    cases Except.ok.inj (hy.symm.trans ht.heuristic)
    calc r.g + r.h
      _ ≤ r.g + (c + t.h) := add_le_add_right hle r.g
      _ = t.g + t.h       := by rw [hg, add_assoc]

theorem Consistent.add_le_add (hp : p.Consistent) (hw : p.Walk u a v b)
    (hx : p.costs.heuristic p.graph u p.target = .ok x)
    (hy : p.costs.heuristic p.graph v p.target = .ok y) : a + x ≤ b + y := by
  induction hw generalizing y
  case refl => exact Except.ok.inj (hx.symm.trans hy) ▸ le_rfl
  case hop v e w b c _ hop hc ih =>
    have ⟨z, y', hz, hy', hle⟩ := hp hop hc
    cases Except.ok.inj (hy.symm.trans hy')
    calc a + x
      _ ≤ b + z       := ih hz
      _ ≤ b + (c + y) := add_le_add_right hle b
      _ = b + c + y   := (add_assoc ..).symm

-- No walk to the node of the best record costs less than the record. Some open record is on the walk, as
-- the node is not closed, and from there on the estimates account for the rest of it.
theorem Visits.g_le_of_best (h : p.Visits (.choosing xs) s) (hp : p.Consistent)
    (hb : s.store.best.1 = some (i, r)) (hw : p.Walk p.source 0 r.node c) : r.g ≤ c := by
  have hr : s.store.IsOpen i r := Store.isOpen_of_best hb
  obtain ⟨j, t, ht, hn, -⟩ | ⟨j, t, b, ht, hg, -, hw⟩ := h.frontier orderly s.store.comparable hw
  case inl => exact absurd hn (h.consistent.node_ne hr ht)
  case inr =>
    have hh {j t} (ht : s.store.IsOpen j t) := (h.genuine ht.record).heuristic
    refine le_of_add_le_add_right (a := r.h) ?_
    calc r.g + r.h
      _ ≤ t.g + t.h := (h.consistent.best_least s.store.comparable hb ht).left
      _ ≤ b + t.h   := add_le_add_left hg t.h
      _ ≤ c + r.h   := hp.add_le_add hw (hh ht) (hh hr)

theorem Visits.isLeast_of_best (h : p.Visits (.choosing xs) s) (hp : p.Consistent)
    (hb : s.store.best.1 = some (i, r)) : IsLeast { c | p.Walk p.source 0 r.node c } r.g where
  left       := h.walk (Store.isOpen_of_best hb).record
  right _ hw := h.g_le_of_best hp hb hw

theorem Visits.isLeast_of_expanded (h : p.Visits ph s) (hp : p.Consistent)
    {x : Nat × Record α} (hx : x ∈ ph.expanded) : IsLeast { c | p.Walk p.source 0 x.2.node c } x.2.g := by
  have ⟨xs, s', hv, hb⟩ := h.exists_best hx
  exact hv.isLeast_of_best hp hb

theorem Consistent.isLeast (hp : p.Consistent) (h : p.Finds path) :
    IsLeast { c | p.Walk p.source 0 p.target c } path.cost := by
  obtain ⟨xs, s, i, r, hs, hb, hn, rfl⟩ := h.reaches
  exact hn ▸ hs.visits.isLeast_of_best hp hb

-- What holds at every moment of a search holds of those that end in a failure as well.
theorem Consistent.never_reopens (hp : p.Consistent) :
    (∀ ph s, p.Visits ph s →
      ph.expanded.Pairwise (·.2.rank ≤ ·.2.rank) ∧
      (ph.expanded.map (·.2.node)).Nodup ∧
      s.stats.reopenings = 0 ∧
      ∀ x ∈ ph.expanded, IsLeast { c | p.Walk p.source 0 x.2.node c } x.2.g) ∧
    (∀ report, p.Returns report → report.stats.reopenings = 0) ∧
    ∀ path, p.Finds path → IsLeast { c | p.Walk p.source 0 p.target c } path.cost := by
  refine ⟨fun ph s h => ?visits, fun report h => ?returns, fun path h => hp.isLeast h⟩
  case visits =>
    have hr : Ranked ph.expanded s := h.ranked hp.ascends
    exact ⟨hr.sorted, hr.nodup h.expanded, hr.reopenings, fun x hx => h.isLeast_of_expanded hp hx⟩
  case returns =>
    have ⟨xs, s, hs, ht⟩ := h.reaches
    exact (turn_eq_ended ht).left ▸ (hs.visits.ranked hp.ascends).reopenings

-- Going from node 2 to node 1 gives back some of what was spent. It is found out while node 1 is still
-- open, by way of the edge from the source.
def rebateDraft : Draft Int where
  nodes := #[{ id := "s" }, { id := "a" }, { id := "b" }, { id := "t" }]
  edges := #[
    { id := "sa", source := 0, target := 1, directed := true, numbers := {("weight", 3)} },
    { id := "sb", source := 0, target := 2, directed := true, numbers := {("weight", 4)} },
    { id := "ba", source := 2, target := 1, directed := true, numbers := {("weight", -2)} },
    { id := "at", source := 1, target := 3, directed := true, numbers := {("weight", 5)} }]

def rebate : Problem Int where
  graph  := (Network.ofDraft rebateDraft).toGraph
  costs  := { Costs.standard with
    heuristic _ u _ := .ok (if u = 0 then 7 else if u = 1 then 5 else if u = 2 then 3 else 0) }
  source := 0
  target := 3

theorem valid_rebateDraft : rebateDraft.Valid where
  known h := by simp [rebateDraft] at h
  ends h  := by
    simp only [rebateDraft, List.mem_toArray, List.mem_cons, List.not_mem_nil, or_false] at h
    obtain rfl | rfl | rfl | rfl := h
    all_goals decide

theorem consistent_rebate : rebate.Consistent := by
  intro u e v c hop hc
  refine ⟨_, _, rfl, rfl, ?_⟩
  have ⟨edge, hm, he, hu⟩ := Network.directed_hop valid_rebateDraft hop
  cases Except.ok.inj (hc.symm.trans (Network.weighted_cost u v he))
  simp only [rebateDraft, List.mem_toArray, List.mem_cons, List.not_mem_nil, or_false] at hm
  obtain rfl | rfl | rfl | rfl := hm
  all_goals
    obtain ⟨rfl, rfl⟩ : u = _ ∧ v = _ := by simpa using hu
    simp

theorem rebate_never_reopens :
    rebate.Consistent ∧ rebate.Finds ⟨[0, 2, 1, 3], [1, 2, 3], 7⟩ ∧
      IsLeast { c | rebate.Walk 0 0 3 c } 7 :=
  have h : rebate.Finds ⟨[0, 2, 1, 3], [1, 2, 3], 7⟩ := .of_search (by cbv)
  have ⟨_, _, hleast⟩ := consistent_rebate.never_reopens
  ⟨consistent_rebate, h, hleast _ h⟩

end BestFirst.Problem
