import BestFirst.Proofs.Search.Growth
import BestFirst.Proofs.Search.Parallels
import Mathlib

namespace BestFirst

variable {α : Type} [Add α] [LE α]

def Record.Improves (t r : Record α) : Prop :=
  t.rank ≤ r.rank ∧ ¬r.rank ≤ t.rank

namespace Arena

def Descends (a : Arena α) : Prop :=
  ∀ (i j : Nat) (r t : Record α), i < j → a.get? i = some r → a.get? j = some t → r.node = t.node →
    t.Improves r

variable {a : Arena α} {i : Nat} {r : Record α}

theorem descends_push_empty (hr : ∀ {p : Nat}, r.parent = some p → p < (∅ : Arena α).size) :
    (Arena.push ∅ r hr).Descends := by
  intro i j x y hij _ hy _
  have hj : j < (Arena.push ∅ r hr).size := lt_size_of_get? hy
  rw [size_push, size_empty] at hj
  omega

theorem Descends.push (h : a.Descends) (hr : ∀ {p : Nat}, r.parent = some p → p < a.size)
    (hx : ∀ {i x}, a.get? i = some x → x.node = r.node → r.Improves x) : (a.push r hr).Descends := by
  intro i j x y hij hi hj hn
  have hlt : j < a.size + 1 := size_push a r hr ▸ lt_size_of_get? hj
  rw [get?_push, if_neg (by omega)] at hi
  rw [get?_push] at hj
  split at hj
  case isTrue  => exact Option.some.inj hj ▸ hx hi (hn.trans (congrArg _ (Option.some.inj hj).symm))
  case isFalse => exact h i j x y hij hi hj hn

end Arena

namespace Store

variable {s : Store α} {i j : Nat} {r t : Record α} {u : NodeIndex}

def known? (s : Store α) (u : NodeIndex) : Option Nat :=
  (s.openAt? u).or (s.closedAt? u)

variable [DecidableLE α]

theorem Consistent.known?_eq_some_iff (hs : s.Consistent) :
    s.known? u = some i ↔ ∃ r, s.IsPresent i r ∧ r.node = u := by
  simp only [known?, Option.or_eq_some_iff]
  constructor
  case mp =>
    rintro (hi | ⟨-, hi⟩)
    · have ⟨r, hr, hn⟩ := hs.opened hi
      exact ⟨r, .inl hr, hn⟩
    · have ⟨r, hr, hn⟩ := hs.closed hi
      exact ⟨r, .inr hr, hn⟩
  case mpr =>
    rintro ⟨r, hr | hr, rfl⟩
    · exact .inl hr.opened
    · refine .inr ⟨?_, hr.closed⟩
      cases ho : s.openAt? r.node
      case none   => rfl
      case some j => exact absurd (hr.closed.symm.trans (hs.apart ho)) nofun

theorem Consistent.index_unique (hs : s.Consistent) (hr : s.IsPresent i r) (ht : s.IsPresent j t)
    (hn : r.node = t.node) : i = j :=
  have hi := hs.known?_eq_some_iff.mpr ⟨r, hr, hn⟩
  have hj := hs.known?_eq_some_iff.mpr ⟨t, ht, rfl⟩
  Option.some.inj (hi.symm.trans hj)

end Store

namespace Problem

variable [Zero α] [DecidableLE α] [RankOrder α] {p : Problem α} {ph : Phase α} {s : State α} {i j : Nat}
  {r t : Record α} {x : Nat × Record α} {xs : List (Nat × Record α)}

theorem Visits.improves_of_not_covers (h : p.Visits ph s) (hs : s.store.Comparable)
    (ht : t.rank ≤ t.rank) (hc : s.covers t.node t.rank = false) (hr : s.store.record? i = some r)
    (hn : r.node = t.node) : t.Improves r :=
  have hlt : ¬r.rank ≤ t.rank := h.not_rank_le hs hc hr hn
  ⟨(RankOrder.total ht (hs hr)).resolve_right hlt, hlt⟩

theorem Visits.descends (h : p.Visits ph s) (hs : s.store.Comparable) : s.store.arena.Descends := by
  refine h.arena_induction
    (P := fun a => (∀ {i r}, a.get? i = some r → r.rank ≤ r.rank) → a.Descends) ?root ?adopt hs
  case root => exact fun hr _ => Arena.descends_push_empty hr
  case adopt =>
    intro xs i r done e rest s t hv hp hc ih ht hs
    have hs : (s.store.add t ht).Comparable := hs
    have ⟨hs, htt⟩ := hs.of_add
    exact (ih hs).push ht fun hr hn => hv.improves_of_not_covers hs htt hc hr hn

-- A node is known by its latest record, as that is the only one which none of its records is better than.
theorem Visits.le_of_isPresent (h : p.Visits ph s) (hs : s.store.Comparable)
    (hr : s.store.IsPresent i r) (ht : s.store.record? j = some t) (hn : t.node = r.node) : j ≤ i := by
  by_contra hij
  have ⟨k, y, hy, hyn, hle⟩ := h.covers_record hs ht
  obtain rfl : k = i := h.consistent.index_unique hy hr (hyn.trans hn)
  obtain rfl : y = r := Option.some.inj (hy.record.symm.trans hr.record)
  exact (h.descends hs _ _ _ _ (Nat.lt_of_not_le hij) hr.record ht hn.symm).right hle

theorem Visits.lt_of_isOpen (h : p.Visits ph s) (hs : s.store.Comparable) (hx : x ∈ ph.expanded)
    (hr : s.store.IsOpen i r) (hn : x.2.node = r.node) : x.1 < i := by
  have hle : x.1 ≤ i := h.le_of_isPresent hs (.inl hr) (h.expanded.record hx) hn
  refine Nat.lt_of_le_of_ne hle fun hi => h.expanded.not_mem hr ?_
  exact hi ▸ List.mem_map_of_mem hx

theorem Visits.expanded_pairwise (h : p.Visits ph s) (hs : s.store.Comparable) :
    ph.expanded.Pairwise fun x y => x.2.node = y.2.node → x.1 < y.1 := by
  induction h
  case start     => exact .nil
  case finish ih => exact ih hs
  case relax hr ih => exact ih (hr.comparable hs)
  case close hv hb _ hc _ ih =>
    have hs {i r} (h : Store.record? _ i = some r) := hs ((Store.close_record? hc i).trans h)
    refine List.pairwise_append.mpr ⟨ih hs, List.pairwise_singleton .., fun x hx y hy hn => ?_⟩
    cases List.mem_singleton.mp hy
    exact hv.lt_of_isOpen hs hx (Store.isOpen_of_best hb) hn

theorem Reaches.turn_improves {s' : State α} (h : p.Reaches xs s) (ht : p.turn s = .ok (.next s'))
    (hs : s'.store.Comparable) :
    ∃ i r, s.store.best.1 = some (i, r) ∧ (∀ x ∈ xs, x.2.node = r.node → x.1 < i) ∧
      ∀ j k y z, j < k → s'.store.record? j = some y → s'.store.record? k = some z →
        y.node = z.node → z.Improves y := by
  have ⟨i, r, hb, hv⟩ := h.visits.turn ht
  have ⟨_, _, hlt⟩ := List.pairwise_append.mp (hv.expanded_pairwise hs)
  exact ⟨i, r, hb, fun x hx => hlt x hx _ List.mem_cons_self, hv.descends hs⟩

-- Whatever is done with the records of a node, the later ones are better, each is expanded once at most,
-- and after that only later ones are open or expanded.
theorem Visits.improves (h : p.Visits ph s) (hs : s.store.Comparable) :
    (∀ i j r t, i < j → s.store.record? i = some r → s.store.record? j = some t → r.node = t.node →
      t.rank ≤ r.rank ∧ ¬r.rank ≤ t.rank) ∧
    (∀ x ∈ ph.expanded, s.store.record? x.1 = some x.2) ∧
    (ph.expanded.map (·.1)).Nodup ∧
    ph.expanded.Pairwise (fun x y => x.2.node = y.2.node → x.1 < y.1) ∧
    ∀ x ∈ ph.expanded, ∀ i r, s.store.IsOpen i r → x.2.node = r.node → x.1 < i := by
  have hx : Expanded ph.expanded s.store := h.expanded
  exact ⟨h.descends hs, fun x => hx.record, hx.nodup, h.expanded_pairwise hs,
    fun x hx i r => h.lt_of_isOpen hs hx⟩

-- Node 1 is opened three times in this search. It is expanded as its first record, 1, and as its third
-- one, 5, which its second one is superseded by.
theorem braid_improves : ∃ xs s, braid.Visits (.choosing xs) s ∧ s.store.Comparable ∧
    xs.map (fun x => (x.1, x.2.node)) = [(0, 0), (1, 1), (2, 2), (5, 1)] ∧
    (∀ i j r t, i < j → s.store.record? i = some r → s.store.record? j = some t → r.node = t.node →
      t.rank ≤ r.rank ∧ ¬r.rank ≤ t.rank) ∧
    (xs.map (·.1)).Nodup := by
  have h : (·.1.map fun x => (x.1, x.2.node)) <$> braid.head? 4 =
    some [(0, 0), (1, 1), (2, 2), (5, 1)] := by cbv
  obtain ⟨⟨xs, s⟩, hxs, h⟩ := Option.map_eq_some_iff.mp h
  have hv : braid.Visits (.choosing xs) s := (Reaches.of_head? hxs).visits
  obtain ⟨himp, -, hnodup, -, -⟩ := hv.improves (Store.comparable _)
  exact ⟨xs, s, hv, Store.comparable _, h, himp, hnodup⟩

end Problem
end BestFirst
