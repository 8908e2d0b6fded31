import BestFirst.Proofs.Network.Navigation
import BestFirst.Proofs.Search.Dijkstra
import BestFirst.Proofs.Search.Optimality
import BestFirst.Proofs.Search.Termination

namespace BestFirst.Problem

variable {α : Type}

def blind [Zero α] (p : Problem α) : Problem α :=
  { p with costs := { p.costs with heuristic := fun _ _ _ => .ok 0 } }

section Blind

variable [Zero α] {p : Problem α}

theorem Answerable.blind (hp : p.Answerable) : p.blind.Answerable where
  graph        := hp.graph
  target       := hp.target
  heuristic _  := ⟨0, rfl⟩
  cost hu hop  := hp.cost hu hop

theorem walk_blind_iff [Add α] {u v : NodeIndex} {a b : α} :
    p.blind.Walk u a v b ↔ p.Walk u a v b where
  mp h := by
    induction h
    case refl          => exact .refl
    case hop hop hc ih => exact ih.hop hop hc
  mpr h := by
    induction h
    case refl          => exact .refl
    case hop hop hc ih => exact ih.hop hop hc

end Blind

section Rounding

variable [Zero α] [Add α] [LE α] [DecidableLE α] [RoundedSum α] {p : Problem α} {v : NodeIndex} {b : α}
  {xs : List (Nat × Record α)} {report : Report α}

theorem Uninformed.mem_expanded (hp : p.Uninformed) (h : p.Ends xs report)
    (hw : p.Walk p.source 0 v b) (hb : ∀ c, p.Walk p.source 0 p.target c → ¬c ≤ b) :
    v ∈ xs.map (·.2.node) := by
  have ⟨s, hs, ht⟩ := h
  have hv := hs.visits
  have hc : s.store.Comparable := hv.comparable hp
  suffices hcl : ∃ i r, s.store.IsClosed i r ∧ r.node = v by
    obtain ⟨i, r, hr, rfl⟩ := hcl
    exact List.mem_map.mpr ⟨(i, r), hv.expanded.closed hr, rfl⟩
  obtain ⟨i, r, hr, hn, -⟩ | ⟨j, t, a, ht', hg, ha, hw'⟩ := hv.frontier hp.orderly hc hw
  case inl => exact ⟨i, r, hr, hn⟩
  -- An open record on the walk would have been chosen before the one of the target.
  case inr =>
    have ⟨_, _, hverdict⟩ := turn_eq_ended ht
    split at hverdict
    case h_1 =>
      obtain ⟨i, r, hbest, hn, -⟩ := hverdict
      have hr := (Store.isOpen_of_best hbest).record
      have hle : r.rank ≤ t.rank := (hv.consistent.best_least hc hbest ht').left
      have hrt : r.g ≤ t.g := hv.g_le_of_rank_le hp hr ht'.record hle
      have hab : a ≤ b := hp.walk_le hw' ha
      exact absurd (RankOrder.trans hrt (RankOrder.trans hg hab)) (hb r.g (hn ▸ hv.walk hr))
    case h_2 => exact absurd ht' (hv.intact.not_isOpen_of_best hverdict)

end Rounding

variable [AddCommMonoid α] [LinearOrder α] [IsOrderedCancelAddMonoid α] {p : Problem α} {ph : Phase α}
  {s : State α} {i : Nat} {r : Record α} {ε c : α} {xs : List (Nat × Record α)}

theorem Visits.rank_best_le (h : p.Visits (.choosing xs) s) (ha : p.Admissible ε)
    (hb : s.store.best.1 = some (i, r)) (hw : p.Walk p.source 0 p.target c) : r.rank ≤ c + ε := by
  have ⟨j, t, b, ht, hle, hg, _, hw⟩ := h.open_on_walk orderly s.store.comparable hb hw
  obtain ⟨d, hd, rfl⟩ := hw.from_zero
  have ht : t.h ≤ d + ε := ha.le (h.genuine ht.record).heuristic hd
  calc r.rank
    _ ≤ t.g + t.h   := hle
    _ ≤ b + (d + ε) := add_le_add hg ht
    _ = b + d + ε   := (add_assoc ..).symm

theorem Visits.rank_expanded_le (h : p.Visits ph s) (ha : p.Admissible ε)
    (hw : p.Walk p.source 0 p.target c) {x : Nat × Record α} (hx : x ∈ ph.expanded) :
    x.2.rank ≤ c + ε := by
  have ⟨xs, s', hv, hb⟩ := h.exists_best hx
  exact hv.rank_best_le ha hb hw

-- What is expanded although something is estimated to be left has cost less than any walk to the target.
theorem Visits.mem_expanded_blind (h : p.Visits ph s) (ha : p.Admissible 0)
    (hb : p.blind.Uninformed) {ys : List (Nat × Record α)} {report : Report α}
    (hends : p.blind.Ends ys report) {x : Nat × Record α} (hx : x ∈ ph.expanded) (hh : 0 < x.2.h) :
    x.2.node ∈ ys.map (·.2.node) := by
  have hw : p.blind.Walk p.source 0 x.2.node x.2.g :=
    walk_blind_iff.mpr (h.walk (h.expanded.record hx))
  refine hb.mem_expanded hends hw fun c hc => not_le_of_gt ?_
  calc x.2.g
    _ < x.2.g + x.2.h := lt_add_of_pos_right _ hh
    _ ≤ c + 0         := h.rank_expanded_le ha (walk_blind_iff.mp hc) hx
    _ = c             := add_zero c

theorem Uninformed.exists_finds (hp : p.Uninformed) (hans : p.Answerable)
    (hf : { v | p.graph.Reachable p.source v }.Finite) (ht : p.graph.Reachable p.source p.target) :
    (∃ ys report, p.Ends ys report) ∧ ∃ path, p.Finds path := by
  have hg : p.Growing := ⟨hp.cost, fun _ => Store.comparable _⟩
  have ⟨s, hs⟩ := hans.start
  have ⟨answer, hr⟩ := hg.exists_answer (Graph.finite_simpleWalks hf) hs (Nat.lt_succ_self _)
  have ⟨report, h⟩ := hans.returns hs hr
  have ⟨ys, s', hy, hend⟩ := h.reaches
  have hends : p.Ends ys report := ⟨s', hy, hend⟩
  refine ⟨⟨ys, report, hends⟩, ?_⟩
  cases hv : report.verdict
  case found path => exact ⟨path, report.stats, report.asked, hv ▸ h⟩
  case exhausted  => exact absurd ht (hends.not_reachable_of_exhausted hv)

theorem Admissible.guides (ha : p.Admissible 0)
    (hc : ∀ {u e v c}, p.graph.Hop u e v → p.costs.cost p.graph u e v = .ok c → 0 ≤ c) :
    (∀ C, IsLeast { c | p.Walk p.source 0 p.target c } C →
      (∀ ph s, p.Visits ph s → ∀ x ∈ ph.expanded, x.2.rank ≤ C) ∧
      ∀ ys report, p.blind.Ends ys report → ∀ ph s, p.Visits ph s → ∀ x ∈ ph.expanded,
        ∀ h, p.costs.heuristic p.graph x.2.node p.target = .ok h → 0 < h →
          x.2.node ∈ ys.map (·.2.node)) ∧
    (p.Answerable → { v | p.graph.Reachable p.source v }.Finite →
      p.graph.Reachable p.source p.target →
        (∃ C, IsLeast { c | p.Walk p.source 0 p.target c } C) ∧
          ∃ ys report, p.blind.Ends ys report) := by
  have hb : p.blind.Uninformed := ⟨fun h => (Except.ok.inj h).symm, hc⟩
  refine ⟨fun C hC => ⟨fun ph s h x hx => ?rank, fun ys report hends ph s h x hx y hy hpos => ?expanded⟩,
    fun hans hf ht => ?ends⟩
  case rank => exact add_zero C ▸ h.rank_expanded_le ha hC.left hx
  case expanded =>
    cases Except.ok.inj (hy.symm.trans (h.genuine (h.expanded.record hx)).heuristic)
    exact h.mem_expanded_blind ha hb hends hx hpos
  case ends =>
    have ⟨hends, path, hfinds⟩ := hb.exists_finds hans.blind hf ht
    refine ⟨⟨path.cost, walk_blind_iff.mp hfinds.walk, fun c hw => ?_⟩, hends⟩
    exact hb.cost_le hfinds (walk_blind_iff.mpr hw)

theorem answerable_shortcut : shortcut.Answerable where
  graph       := by
    refine Network.navigable (u := 0) ⟨fun h => by simp at h, fun {edge} he => ?_⟩ (by decide)
    simp only [List.mem_toArray, List.mem_cons, List.not_mem_nil, or_false] at he
    obtain rfl | rfl | rfl | rfl := he
    all_goals decide
  target      := ⟨"t", rfl⟩
  heuristic _ := ⟨_, rfl⟩
  cost _ hop  := Network.exists_weighted_cost hop

theorem shortcut_guided :
    (∀ ph s, shortcut.Visits ph s → ∀ x ∈ ph.expanded, x.2.rank ≤ 6) ∧
    ∃ ys report, shortcut.blind.Ends ys report ∧
      ∀ ph s, shortcut.Visits ph s → ∀ x ∈ ph.expanded, x.2.node = 2 → 2 ∈ ys.map (·.2.node) := by
  have h : shortcut.Finds ⟨[0, 2, 1, 3], [1, 2, 3], 6⟩ := .of_search (by cbv)
  have hc {u e v c} (hop : shortcut.graph.Hop u e v)
      (hc : shortcut.costs.cost shortcut.graph u e v = .ok c) : 0 ≤ c := by
    obtain ⟨edge, he, rfl, -⟩ := Network.weighted_hop hop hc
    simp only [Network.ofDraft, List.mem_toArray, List.mem_cons, List.not_mem_nil, or_false] at he
    obtain rfl | rfl | rfl | rfl := he
    all_goals simp
  have ht : shortcut.graph.Reachable 0 3 := by
    obtain ⟨_, _, h⟩ := h
    obtain ⟨ys, s, hs, hend⟩ := h.reaches
    exact Ends.reachable_of_found ⟨s, hs, hend⟩ rfl
  obtain ⟨hexp, hends⟩ := admissible_shortcut.guides hc
  obtain ⟨_, ys, report, hys⟩ := hends answerable_shortcut (Network.finite_reachable _ 0) ht
  obtain ⟨hrank, hnode⟩ := hexp 6 (h.isLeast admissible_shortcut)
  refine ⟨hrank, ys, report, hys, fun ph s hv x hx hn => ?_⟩
  have hpos : (0 : ℚ) < 5 := by decide
  exact hn ▸ hnode ys report hys ph s hv x hx 5 (by rw [hn]; rfl) hpos

end BestFirst.Problem
