import BestFirst.Proofs.Search.Walks
import BestFirst.Proofs.Store.Chains
import Mathlib.Algebra.Order.Monoid.Defs

namespace BestFirst

variable {α : Type}

-- Sums which may be rounded. Only amounts that are not negative are spent; an estimate may be
-- anything, as long as the sums with it are numbers.
class GrowingSum (α : Type) [Zero α] [Add α] [LE α] : Prop extends RankOrder α where
  zero_le_zero            : (0 : α) ≤ 0
  le_add {a c : α}        : 0 ≤ a → 0 ≤ c → a ≤ a + c
  add_le_add {a b h : α}  : 0 ≤ a → a ≤ b → a + h ≤ a + h → b + h ≤ b + h → a + h ≤ b + h

instance [AddCommMonoid α] [LinearOrder α] [IsOrderedAddMonoid α] : GrowingSum α where
  zero_le_zero         := le_rfl
  le_add _ h           := le_add_of_nonneg_right h
  add_le_add _ h _ _   := add_le_add_left h _

namespace Problem

section Growing

variable [Zero α] [Add α] [LE α] [DecidableLE α]

structure Growing (p : Problem α) : Prop where
  cost {u e v c}    : p.graph.Hop u e v → p.costs.cost p.graph u e v = .ok c → 0 ≤ c
  comparable {ph s} : p.Visits ph s → s.store.Comparable

variable {p : Problem α} {ph : Phase α} {s : State α} {i : Nat} {r t : Record α} {e : EdgeIndex}
  {xs : List (Nat × Record α)} {done rest : List EdgeIndex}

-- Arenas grow by records that are proposed along some hop by one that is there, and that are not
-- covered.
theorem Visits.arena_induction {P : Arena α → Prop} (h : p.Visits ph s)
    (root : ∀ {x} hr, P (Arena.push ∅ (p.root x) hr))
    (adopt : ∀ {xs i r done e rest s t}, p.Visits (.relaxing xs i r done (e :: rest)) s →
      p.Proposes i r e t → s.covers t.node t.rank = false → P s.store.arena →
      ∀ ht, P (s.store.arena.push t ht)) :
    P s.store.arena := by
  induction h
  case start h =>
    obtain ⟨x, hr, -, rfl⟩ := start_eq_ok h
    exact root hr
  case close hc _ ih =>
    obtain ⟨r, -, rfl⟩ := Store.close_eq_ok_iff.mp hc
    exact ih
  case relax hv hr ih =>
    cases hr
    case foreign          => exact ih
    case covered          => exact ih
    case adopted ht hp hc => exact adopt hv hp hc ih ht
  case finish ih => exact ih

end Growing

variable [Zero α] [Add α] [LE α] [DecidableLE α] [GrowingSum α] {p : Problem α} {ph : Phase α}
  {s : State α} {i : Nat} {r t x : Record α} {e : EdgeIndex} {xs : List (Nat × Record α)}
  {done rest : List EdgeIndex}

theorem Visits.g_nonneg (h : p.Visits ph s) (hcost : ∀ {u e v c}, p.graph.Hop u e v →
    p.costs.cost p.graph u e v = .ok c → 0 ≤ c) (hr : s.store.record? i = some r) : 0 ≤ r.g := by
  refine h.record_induction (P := fun _ r => 0 ≤ r.g) ?root ?proposed hr
  case root => exact fun _ _ => GrowingSum.zero_le_zero
  case proposed =>
    intro i r e j t _ hr _ hop ht
    have ⟨c, hc, hg⟩ := ht.cost
    exact hg ▸ RankOrder.trans hr (GrowingSum.le_add hr (hcost hop hc))

theorem Visits.g_le_of_proposes (h : p.Visits ph s) (hp : p.Growing)
    (hr : s.store.record? i = some r) (hop : p.graph.Hop r.node e t.node)
    (ht : p.Proposes i r e t) : r.g ≤ t.g := by
  have ⟨c, hc, hg⟩ := ht.cost
  exact hg ▸ GrowingSum.le_add (h.g_nonneg hp.cost hr) (hp.cost hop hc)

theorem Visits.g_le_of_mem_chain (h : p.Visits ph s) (hp : p.Growing)
    (hr : s.store.record? i = some r) (hop : p.graph.Hop r.node e t.node)
    (ht : p.Proposes i r e t) (hx : x ∈ s.store.arena.chain i) : x.g ≤ t.g := by
  refine h.record_induction
    (P := fun i r => ∀ {e t}, p.graph.Hop r.node e t.node → p.Proposes i r e t →
      ∀ x ∈ s.store.arena.chain i, x.g ≤ t.g) ?root ?proposed hr hop ht x hx
  case root =>
    intro i y hi _ e t hop ht x hx
    rw [Arena.chain_of_parent_eq_none hi rfl, List.mem_singleton] at hx
    exact hx ▸ h.g_le_of_proposes hp hi hop ht
  case proposed =>
    intro i r e j t _ ih hj hop ht e' t' hop' ht' x hx
    have hle := h.g_le_of_proposes hp hj hop' ht'
    rw [Arena.chain_of_parent_eq_some hj ht.parent] at hx
    cases hx
    case head    => exact hle
    case tail hx => exact RankOrder.trans (ih hop ht x hx) hle

theorem Visits.node_ne_of_mem_chain (h : p.Visits (.relaxing xs i r done (e :: rest)) s)
    (hp : p.Growing) (ht : p.Proposes i r e t) (hc : s.covers t.node t.rank = false)
    (hx : x ∈ s.store.arena.chain i) : x.node ≠ t.node := by
  intro hn
  have ⟨hr, _⟩ := h.relaxing
  have hop : p.graph.Hop r.node e t.node := h.hop ht.opposite
  have ⟨j, hj⟩ := Arena.exists_of_mem_chain hx
  have hh : x.h = t.h := Except.ok.inj ((h.genuine hj).heuristic.symm.trans (hn ▸ ht.heuristic))
  have hpar {q : Nat} (hq : t.parent = some q) : q < s.store.arena.size :=
    Option.some.inj (ht.parent.symm.trans hq) ▸ Store.lt_size_of_record? hr
  have hs : (s.store.add t hpar).Comparable := hp.comparable (h.relax (.adopted hpar ht hc))
  have htt := hs.of_add.right
  apply h.not_rank_le (hp.comparable h) hc hj hn
  simp only [Record.rank, hh] at htt ⊢
  refine GrowingSum.add_le_add (h.g_nonneg hp.cost hj) (h.g_le_of_mem_chain hp hr hop ht hx) ?_ htt
  exact hh ▸ hp.comparable h hj

theorem Visits.nodup_chain (h : p.Visits ph s) (hp : p.Growing) (hi : i < s.store.arena.size) :
    ((s.store.arena.chain i).map (·.node)).Nodup := by
  refine h.arena_induction
    (P := fun a => ∀ i < a.size, ((a.chain i).map (·.node)).Nodup) ?root ?adopt i hi
  case root =>
    intro x hr i hi
    have hi : i = (∅ : Arena α).size := Nat.lt_one_iff.mp (by simpa using hi)
    rw [hi, Arena.chain_of_parent_eq_none (Arena.get?_push_self hr) rfl]
    simp
  case adopt =>
    intro xs i r done e rest s t h hpt hc ih ht j hj
    rw [Arena.size_push] at hj
    obtain hj | rfl := Nat.lt_succ_iff_lt_or_eq.mp hj
    case inl =>
      rw [Arena.chain_push ht hj]
      exact ih j hj
    case inr =>
      rw [Arena.chain_push_self ht hpt.parent, List.map_cons, List.nodup_cons]
      refine ⟨fun hm => ?_, ih i (ht hpt.parent)⟩
      obtain ⟨x, hx, hn⟩ := List.mem_map.mp hm
      exact h.node_ne_of_mem_chain hp hpt hc hx hn

-- A record that was reached along the same edges as the one that is proposed would be the same in all
-- respects, and the proposed one would be covered by it.
theorem Visits.course_ne (h : p.Visits (.relaxing xs i r done (e :: rest)) s) (hp : p.Growing)
    (ht : p.Proposes i r e t) (hc : s.covers t.node t.rank = false) {j : Nat}
    (hj : s.store.record? j = some x)
    (hi : ∀ k < s.store.arena.size, s.store.arena.course k = s.store.arena.course i → k = i) :
    s.store.arena.course j ≠ e :: s.store.arena.course i := by
  intro hji
  cases h.genuine hj
  case root =>
    rw [Arena.course_of_parent_eq_none hj rfl] at hji
    contradiction
  case proposed k y _ f hk _ _ hx =>
    rw [Arena.course_of_parent_eq_some hj hx.parent hx.via] at hji
    obtain ⟨rfl, hki⟩ := List.cons.inj hji
    obtain rfl := hi k (Store.lt_size_of_record? hk) hki
    obtain rfl : y = r := Option.some.inj (hk.symm.trans h.relaxing.left)
    obtain rfl : x = t := hx.unique ht
    exact h.not_rank_le (hp.comparable h) hc hj rfl (hp.comparable h hj)

theorem Visits.course_injective (h : p.Visits ph s) (hp : p.Growing) {j : Nat}
    (hi : i < s.store.arena.size) (hj : j < s.store.arena.size)
    (hij : s.store.arena.course i = s.store.arena.course j) : i = j := by
  refine h.arena_induction
    (P := fun a => ∀ i < a.size, ∀ j < a.size, a.course i = a.course j → i = j)
    ?root ?adopt i hi j hj hij
  case root =>
    intro x hr i hi j hj _
    simp only [Arena.size_push, Arena.size_empty] at hi hj
    omega
  case adopt =>
    intro xs k r done e rest s t h hpt hc ih ht i hi j hj hij
    have hk : k < s.store.arena.size := ht hpt.parent
    have hne {j : Nat} (hj : j < s.store.arena.size) :
        s.store.arena.course j ≠ e :: s.store.arena.course k := by
      obtain ⟨x, hx⟩ := Option.isSome_iff_exists.mp ((s.store.arena.get?_isSome_iff j).mpr hj)
      exact h.course_ne hp hpt hc hx fun i hi => ih i hi k hk
    have hself := Arena.course_push_self ht hpt.parent hpt.via
    rw [Arena.size_push] at hi hj
    obtain hi | rfl := Nat.lt_succ_iff_lt_or_eq.mp hi <;>
      obtain hj | rfl := Nat.lt_succ_iff_lt_or_eq.mp hj
    · rw [Arena.course_push ht hi, Arena.course_push ht hj] at hij
      exact ih i hi j hj hij
    · rw [Arena.course_push ht hi, hself] at hij
      exact absurd hij (hne hi)
    · rw [hself, Arena.course_push ht hj] at hij
      exact absurd hij.symm (hne hj)
    · rfl

end Problem
end BestFirst
