import BestFirst.Proofs.Search.Expansion
import Mathlib.Data.List.Nodup

namespace BestFirst.Problem

variable {α : Type} [Add α] [LE α]

structure Ascends [Zero α] [DecidableLE α] (p : Problem α) : Prop where
  comparable {ph s} : p.Visits ph s → s.store.Comparable
  rank_le {xs i r done e rest s t} : p.Visits (.relaxing xs i r done (e :: rest)) s →
    p.Proposes i r e t → r.rank ≤ t.rank

-- These records were taken in the order of their ranks. They are all closed, and none that is open has a
-- lower rank.
structure Ranked (xs : List (Nat × Record α)) (s : State α) : Prop where
  sorted        : xs.Pairwise (·.2.rank ≤ ·.2.rank)
  closed {x}    : x ∈ xs → s.store.IsClosed x.1 x.2
  least {x j t} : x ∈ xs → s.store.IsOpen j t → x.2.rank ≤ t.rank
  reopenings    : s.stats.reopenings = 0

variable {p : Problem α} {ph : Phase α} {s s' : State α} {i : Nat} {r t : Record α} {e : EdgeIndex}
  {xs : List (Nat × Record α)} {done rest : List EdgeIndex}

theorem Ranked.nodup (h : Ranked xs s) (hx : Expanded xs s.store) : (xs.map (·.2.node)).Nodup := by
  refine List.Nodup.map_on (fun x hx y hy hn => ?_) (.of_map _ hx.nodup)
  have hc := (h.closed hx).closed
  have hi : x.1 = y.1 := Option.some.inj (hc.symm.trans (hn ▸ (h.closed hy).closed))
  have hr := (h.closed hx).record
  exact Prod.ext hi (Option.some.inj (hr.symm.trans (hi ▸ (h.closed hy).record)))

theorem Ranked.sorted_concat (h : Ranked xs s) (hr : s.store.IsOpen i r) :
    (xs ++ [(i, r)]).Pairwise (·.2.rank ≤ ·.2.rank) := by
  refine List.pairwise_append.mpr ⟨h.sorted, by simp, fun x hx y hy => ?_⟩
  cases List.mem_singleton.mp hy
  exact h.least hx hr

variable [DecidableLE α]

theorem Ranked.nodup_concat (h : Ranked xs s) (hx : Expanded xs s.store) (hs : s.store.Consistent)
    (hr : s.store.IsOpen i r) : ((xs ++ [(i, r)]).map (·.2.node)).Nodup := by
  rw [List.map_append, List.nodup_append]
  refine ⟨h.nodup hx, by simp, fun u hu v hv => ?_⟩
  have ⟨x, hx, hxu⟩ := List.mem_map.mp hu
  cases List.mem_singleton.mp hv
  exact hxu ▸ hs.node_ne hr (h.closed hx)

theorem Ranked.close {store : Store α} (h : Ranked xs s) (hs : s.store.Consistent)
    (hr : s.store.IsOpen i r) (hle : ∀ {j t}, s.store.IsOpen j t → r.rank ≤ t.rank)
    (hc : s.store.best.2.close i = .ok store) :
    Ranked (xs ++ [(i, r)]) { s with store, stats.expansions := s.stats.expansions + 1 } := by
  have hr' := Store.best_isOpen.mpr hr
  constructor
  case sorted     => exact h.sorted_concat hr
  case reopenings => exact h.reopenings
  case closed =>
    intro x hx
    apply (Store.isClosed_close hc hr').mpr
    cases List.mem_append.mp hx
    case inl hx => exact .inr ⟨Store.best_isClosed.mpr (h.closed hx), hs.node_ne hr (h.closed hx)⟩
    case inr hx => exact .inl (Prod.mk.inj (List.mem_singleton.mp hx))
  case least =>
    intro x j t hx ht
    have ht := Store.best_isOpen.mp ((Store.isOpen_close hc hr').mp ht).left
    cases List.mem_append.mp hx
    case inl hx => exact h.least hx ht
    case inr hx => exact List.mem_singleton.mp hx ▸ hle ht

variable [Zero α] [RankOrder α]

theorem Ranked.le_proposed (h : Ranked (xs ++ [(i, r)]) s) (hp : p.Ascends)
    (hv : p.Visits (.relaxing xs i r done (e :: rest)) s) (ht : p.Proposes i r e t)
    {x : Nat × Record α} (hx : x ∈ xs ++ [(i, r)]) : x.2.rank ≤ t.rank := by
  have hrt : r.rank ≤ t.rank := hp.rank_le hv ht
  have ⟨_, _, hle⟩ := List.pairwise_append.mp h.sorted
  cases List.mem_append.mp hx
  case inl hx => exact RankOrder.trans (hle x hx _ List.mem_cons_self) hrt
  case inr hx => exact List.mem_singleton.mp hx ▸ hrt

theorem Ranked.node_ne (h : Ranked (xs ++ [(i, r)]) s) (hp : p.Ascends)
    (hv : p.Visits (.relaxing xs i r done (e :: rest)) s) (ht : p.Proposes i r e t)
    (hc : s.covers t.node t.rank = false) {j : Nat} {u : Record α} (hu : s.store.IsClosed j u) :
    u.node ≠ t.node := by
  intro hn
  have hle : u.rank ≤ t.rank := h.le_proposed hp hv ht (hv.expanded.closed hu)
  have hcov := (State.covers_iff hv.consistent).mpr ⟨j, u, .inr hu, hn, hle⟩
  exact Bool.eq_false_iff.mp hc hcov

theorem Ranked.relax (h : Ranked (xs ++ [(i, r)]) s) (hp : p.Ascends)
    (hv : p.Visits (.relaxing xs i r done (e :: rest)) s) (hr : p.Relaxes i r s e s') :
    Ranked (xs ++ [(i, r)]) s' := by
  cases hr
  case foreign => exact h
  case covered => exact ⟨h.sorted, h.closed, h.least, h.reopenings⟩
  case adopted t ht hpt hcov =>
    have hn {j u} (hu : s.store.IsClosed j u) : u.node ≠ t.node := h.node_ne hp hv hpt hcov hu
    constructor
    case sorted => exact h.sorted
    case closed => exact fun hx => (Store.isClosed_add ht).mpr ⟨h.closed hx, hn (h.closed hx)⟩
    case least =>
      intro x j u hx hu
      obtain ⟨-, rfl⟩ | ⟨hu, -⟩ := (Store.isOpen_add ht).mp hu
      · exact h.le_proposed hp hv hpt hx
      · exact h.least hx hu
    case reopenings =>
      have hc : s.store.closedAt? t.node = none := by
        refine Option.eq_none_iff_forall_ne_some.mpr fun j hj => ?_
        have ⟨u, hu, hun⟩ := hv.intact.closed hj
        exact hn hu hun
      simp [State.adopt, State.examine, hc, h.reopenings]

theorem Visits.ranked (h : p.Visits ph s) (hp : p.Ascends) : Ranked ph.expanded s := by
  induction h
  case start h =>
    obtain ⟨x, hr, -, rfl⟩ := start_eq_ok h
    exact ⟨.nil, nofun, nofun, rfl⟩
  case close hv hb _ hc _ ih =>
    exact ih.close hv.consistent (Store.isOpen_of_best hb)
      (fun ht => (hv.consistent.best_least (hp.comparable hv) hb ht).left) hc
  case relax hv hr ih => exact ih.relax hp hv hr
  case finish ih      => exact ih

end BestFirst.Problem
