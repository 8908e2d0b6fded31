import BestFirst.Proofs.Search.Ascent
import BestFirst.Proofs.Search.Walks
import Mathlib

namespace BestFirst

variable {α : Type}

-- Sums which may be rounded, and of which nothing is required where an amount is negative.
class RoundedSum (α : Type) [Zero α] [Add α] [LE α] : Prop extends RankOrder α where
  zero_le_zero          : (0 : α) ≤ 0
  add_le_add {a b c : α} : 0 ≤ a → 0 ≤ b → 0 ≤ c → a ≤ b → a + c ≤ b + c
  le_add {a c : α}       : 0 ≤ a → 0 ≤ c → a ≤ a + c
  add_zero_le {a : α}    : 0 ≤ a → a + 0 ≤ a

instance [AddCommMonoid α] [LinearOrder α] [IsOrderedAddMonoid α] : RoundedSum α where
  zero_le_zero       := le_rfl
  add_le_add _ _ _ h := add_le_add_left h _
  le_add _ h         := le_add_of_nonneg_right h
  add_zero_le _      := (add_zero _).le

namespace Problem

section Uninformed

variable [Zero α]

structure Uninformed [LE α] (p : Problem α) : Prop where
  heuristic {u h} : p.costs.heuristic p.graph u p.target = .ok h → h = 0
  cost {u e v c}  : p.graph.Hop u e v → p.costs.cost p.graph u e v = .ok c → 0 ≤ c

variable {p : Problem α}

theorem Uninformed.weighted [LE α] {key : String} {default : α} (hc : p.costs = .weighted key default)
    (hd : 0 ≤ default) (hw : ∀ {e x}, p.graph.edgeNumber? e key = .ok (some x) → 0 ≤ x) :
    p.Uninformed where
  heuristic h := by
    rw [hc] at h
    exact (Except.ok.inj h).symm
  cost _ h := by
    simp only [hc, Costs.weighted, Except.map_eq_ok_iff] at h
    obtain ⟨x?, hx, rfl⟩ := h
    cases x?
    case none   => exact hd
    case some x => exact hw hx

variable [Add α] [LE α] [RoundedSum α] {u v : NodeIndex} {a b : α}

theorem Uninformed.orderly (hp : p.Uninformed) : p.Orderly (0 ≤ ·) where
  zero              := RoundedSum.zero_le_zero
  add ha hop hc     := RankOrder.trans ha (RoundedSum.le_add ha (hp.cost hop hc))
  mono ha hb hop hc := RoundedSum.add_le_add ha hb (hp.cost hop hc)
  cancel ha hb hh h := by
    cases hp.heuristic hh
    have h₀ : (0 : α) ≤ 0 := RoundedSum.zero_le_zero
    exact RankOrder.trans (RoundedSum.le_add ha h₀) (RankOrder.trans h (RoundedSum.add_zero_le hb))

theorem Uninformed.walk_le (hp : p.Uninformed) (hw : p.Walk u a v b) (ha : 0 ≤ a) : a ≤ b := by
  induction hw
  case refl =>
    exact RankOrder.trans (RoundedSum.le_add ha RoundedSum.zero_le_zero) (RoundedSum.add_zero_le ha)
  case hop v e w b c hw hop hc ih =>
    exact RankOrder.trans ih (RoundedSum.le_add (hw.orderly hp.orderly ha) (hp.cost hop hc))

end Uninformed

structure Ascending [LE α] (xs : List (Nat × Record α)) : Prop where
  nodup  : (xs.map (·.2.node)).Nodup
  sorted : xs.Pairwise (·.2.g ≤ ·.2.g)

variable [Zero α] [Add α] [LE α] [DecidableLE α] [RoundedSum α] {p : Problem α} {ph : Phase α}
  {s : State α} {i j : Nat} {r t : Record α} {e : EdgeIndex} {xs : List (Nat × Record α)}
  {done rest : List EdgeIndex}

theorem Visits.rank (h : p.Visits ph s) (hp : p.Uninformed) (hr : s.store.record? i = some r) :
    0 ≤ r.g ∧ r.g ≤ r.rank ∧ r.rank ≤ r.g := by
  have hg : 0 ≤ r.g := (h.walk hr).orderly hp.orderly RoundedSum.zero_le_zero
  have hh : r.h = 0 := hp.heuristic (h.genuine hr).heuristic
  rw [Record.rank, hh]
  exact ⟨hg, RoundedSum.le_add hg RoundedSum.zero_le_zero, RoundedSum.add_zero_le hg⟩

theorem Visits.comparable (h : p.Visits ph s) (hp : p.Uninformed) : s.store.Comparable := by
  intro i r hr
  have ⟨_, hg, hg'⟩ := h.rank hp hr
  exact RankOrder.trans hg' hg

theorem Visits.g_le_of_rank_le (h : p.Visits ph s) (hp : p.Uninformed)
    (hr : s.store.record? i = some r) (ht : s.store.record? j = some t) (hle : r.rank ≤ t.rank) :
    r.g ≤ t.g :=
  have ⟨_, hr, _⟩ := h.rank hp hr
  have ⟨_, _, ht⟩ := h.rank hp ht
  RankOrder.trans hr (RankOrder.trans hle ht)

theorem Visits.proposes (h : p.Visits (.relaxing xs i r done (e :: rest)) s) (hp : p.Uninformed)
    (ht : p.Proposes i r e t) : r.g ≤ t.g ∧ t.g ≤ t.rank := by
  have ⟨hr, _⟩ := h.relaxing
  have ⟨c, hc, htg⟩ := ht.cost
  have hg : 0 ≤ r.g := (h.rank hp hr).left
  have hle : r.g ≤ t.g := htg ▸ RoundedSum.le_add hg (hp.cost (h.hop ht.opposite) hc)
  refine ⟨hle, ?_⟩
  rw [Record.rank, hp.heuristic ht.heuristic]
  exact RoundedSum.le_add (RankOrder.trans hg hle) RoundedSum.zero_le_zero

theorem Uninformed.ascends (hp : p.Uninformed) : p.Ascends where
  comparable h  := h.comparable hp
  rank_le hv ht := by
    have ⟨hr, _⟩ := hv.relaxing
    have ⟨_, _, hrg⟩ := hv.rank hp hr
    have ⟨hle, htg⟩ := hv.proposes hp ht
    exact RankOrder.trans hrg (RankOrder.trans hle htg)

theorem Visits.ascending (h : p.Visits ph s) (hp : p.Uninformed)
    (hr : ∀ x ∈ xs, s.store.record? x.1 = some x.2) (hn : (xs.map (·.2.node)).Nodup)
    (hs : xs.Pairwise (·.2.rank ≤ ·.2.rank)) : Ascending xs where
  nodup  := hn
  sorted := hs.imp_of_mem fun hx hy => h.g_le_of_rank_le hp (hr _ hx) (hr _ hy)

-- An open record on the walk costs no less than the one that was chosen, and no more than the walk.
theorem Uninformed.cost_le {path : Path α} {c : α} (hp : p.Uninformed) (h : p.Finds path)
    (hw : p.Walk p.source 0 p.target c) : path.cost ≤ c := by
  obtain ⟨xs, s, i, r, hs, hb, hn, rfl⟩ := h.reaches
  have hv := hs.visits
  have hc : s.store.Comparable := hv.comparable hp
  have ⟨j, t, b, ht, hle, hg, hb₀, hw⟩ := hv.open_on_walk hp.orderly hc hb hw
  have hrt : r.g ≤ t.g := hv.g_le_of_rank_le hp (Store.isOpen_of_best hb).record ht.record hle
  exact RankOrder.trans hrt (RankOrder.trans hg (hp.walk_le hw hb₀))

theorem Uninformed.ascending (hp : p.Uninformed) (h : p.Reaches xs s) :
    Ascending (xs ++ s.store.best.1.toList) ∧ s.stats.reopenings = 0 := by
  have hv := h.visits
  have hx : Expanded xs s.store := hv.expanded
  have hs : Ranked xs s := hv.ranked hp.ascends
  refine ⟨?_, hs.reopenings⟩
  cases hb : s.store.best.1
  case none =>
    exact (List.append_nil xs).symm ▸ hv.ascending hp (fun _ => hx.record) (hs.nodup hx) hs.sorted
  case some x =>
    have hr := Store.isOpen_of_best hb
    refine hv.ascending hp ?_ (hs.nodup_concat hx hv.consistent hr) (hs.sorted_concat hr)
    intro y hy
    cases List.mem_append.mp hy
    case inl hy => exact hx.record hy
    case inr hy => exact List.mem_singleton.mp hy ▸ hr.record

theorem Uninformed.dijkstra (hp : p.Uninformed) :
    (∀ path c, p.Finds path → p.Walk p.source 0 p.target c → path.cost ≤ c) ∧
    (∀ xs s, p.Reaches xs s →
      Ascending (xs ++ s.store.best.1.toList) ∧ s.stats.reopenings = 0) ∧
    (∀ report, p.Returns report → report.stats.reopenings = 0) := by
  refine ⟨fun _ _ => hp.cost_le, fun _ _ => hp.ascending, fun report h => ?_⟩
  have ⟨xs, s, hs, ht⟩ := h.reaches
  exact (turn_eq_ended ht).left ▸ (hp.ascending hs).right

end Problem

-- Numbers of two significant bits, whose sums are rounded down.
structure Coarse where
  place : Fin 8

namespace Coarse

def values : List Nat :=
  [0, 1, 2, 3, 4, 6, 8, 12]

def value (x : Coarse) : Nat :=
  values[x.place]

def round (n : Nat) : Coarse :=
  ⟨Fin.ofNat 8 (values.countP (· ≤ n) - 1)⟩

instance : Zero Coarse := ⟨round 0⟩

instance : Add Coarse := ⟨fun x y => round (x.value + y.value)⟩

instance : LE Coarse := ⟨fun x y => x.place ≤ y.place⟩

instance : DecidableLE Coarse := fun x y => inferInstanceAs (Decidable (x.place ≤ y.place))

theorem zero_le (x : Coarse) : 0 ≤ x :=
  Fin.zero_le x.place

instance : RoundedSum Coarse where
  trans := Fin.le_trans
  total {a b} _ _ := Fin.le_total a.place b.place
  zero_le_zero := zero_le 0
  add_le_add {a b c} _ _ _ hab := by
    have h : ∀ a b c : Fin 8, a ≤ b → (⟨a⟩ : Coarse) + ⟨c⟩ ≤ ⟨b⟩ + ⟨c⟩ := by decide
    exact h a.place b.place c.place hab
  le_add {a c} _ _ := by
    have h : ∀ a c : Fin 8, (⟨a⟩ : Coarse) ≤ ⟨a⟩ + ⟨c⟩ := by decide
    exact h a.place c.place
  add_zero_le {a} _ := by
    have h : ∀ a : Fin 8, (⟨a⟩ : Coarse) + 0 ≤ ⟨a⟩ := by decide
    exact h a.place

end Coarse

namespace Problem

-- The edges that lead by nodes 1 and 2 carry as much as the one that leads to node 3 at once. But what
-- the shorter ones of them would add to the first is lost by rounding.
def rounding : Problem Coarse where
  graph  := Network.toGraph <| .ofDraft {
    nodes := #[{ id := "s" }, { id := "a" }, { id := "b" }, { id := "t" }]
    edges := #[
      { id := "st", source := 0, target := 3, directed := false, numbers := {("weight", .round 6)} },
      { id := "sa", source := 0, target := 1, directed := false, numbers := {("weight", .round 4)} },
      { id := "ab", source := 1, target := 2, directed := false, numbers := {("weight", .round 1)} },
      { id := "bt", source := 2, target := 3, directed := false, numbers := {("weight", .round 1)} }] }
  costs  := .weighted "weight" 0
  source := 0
  target := 3

theorem rounding_dijkstra :
    rounding.Uninformed ∧ rounding.Finds ⟨[0, 1, 2, 3], [1, 2, 3], .round 4⟩ ∧
      ∀ c, rounding.Walk 0 0 3 c → .round 4 ≤ c :=
  have hp : rounding.Uninformed := .weighted rfl (Coarse.zero_le 0) fun _ => Coarse.zero_le _
  have h : rounding.Finds ⟨[0, 1, 2, 3], [1, 2, 3], .round 4⟩ := .of_search (by cbv)
  ⟨hp, h, fun c => hp.dijkstra.left _ c h⟩

end Problem
end BestFirst
