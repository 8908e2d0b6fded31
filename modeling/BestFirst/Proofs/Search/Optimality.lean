import BestFirst.Proofs.Search.Walks
import Mathlib

namespace BestFirst.Problem

variable {α : Type} [AddCommMonoid α]

section Walks

variable {p : Problem α} {u v w : NodeIndex} {a b c : α}

theorem Walk.from_zero (h : p.Walk u a v b) : ∃ c, p.Walk u 0 v c ∧ b = a + c := by
  induction h
  case refl => exact ⟨0, .refl, (add_zero a).symm⟩
  case hop hop hc ih =>
    obtain ⟨d, hd, rfl⟩ := ih
    exact ⟨_, hd.hop hop hc, add_assoc ..⟩

theorem Walk.after (h : p.Walk u 0 v c) (a : α) : p.Walk u a v (a + c) := by
  induction h
  case refl          => exact (add_zero a).symm ▸ .refl
  case hop hop hc ih => exact add_assoc a _ _ ▸ ih.hop hop hc

theorem Walk.trans (h : p.Walk u a v b) (hw : p.Walk v b w c) : p.Walk u a w c := by
  induction hw
  case refl          => exact h
  case hop hop hc ih => exact ih.hop hop hc

end Walks

variable [LinearOrder α]

-- The estimates are at most `ε` above what it costs to walk to the target.
structure Admissible (p : Problem α) (ε : α) : Prop where
  target {h}  : p.costs.heuristic p.graph p.target p.target = .ok h → 0 ≤ h
  le {u h c}  : p.costs.heuristic p.graph u p.target = .ok h → p.Walk u 0 p.target c → h ≤ c + ε

variable [IsOrderedCancelAddMonoid α] {p : Problem α}

theorem orderly : p.Orderly fun _ => True where
  zero           := trivial
  add _ _ _      := trivial
  mono _ _ _ _ h := add_le_add_left h _
  cancel _ _ _ h := le_of_add_le_add_right h

variable {u v : NodeIndex} {ε a b c x : α} {path : Path α}

-- Some open record is on the walk. It is not better than the one of the target, and what is
-- estimated to be left from its node is not much more than the rest of the walk.
theorem Finds.cost_le (h : p.Finds path) (ha : p.Admissible ε) (hw : p.Walk p.source 0 p.target c) :
    path.cost ≤ c + ε := by
  obtain ⟨xs, s, i, r, hs, hb, hn, rfl⟩ := h.reaches
  have hv := hs.visits
  have hh {j t} (h : s.store.IsOpen j t) := (hv.genuine h.record).heuristic
  have ⟨j, t, b, ht, hle, hg, _, hw⟩ := hv.open_on_walk orderly s.store.comparable hb hw
  obtain ⟨d, hd, rfl⟩ := hw.from_zero
  have hr : 0 ≤ r.h := ha.target (hn ▸ hh (Store.isOpen_of_best hb))
  have ht : t.h ≤ d + ε := ha.le (hh ht) hd
  calc r.g
    _ ≤ r.g + r.h   := le_add_of_nonneg_right hr
    _ ≤ t.g + t.h   := hle
    _ ≤ b + (d + ε) := add_le_add hg ht
    _ = b + d + ε   := (add_assoc ..).symm

-- What bounds the estimates falls by no more than the cost of a hop when one goes along it. Hops that
-- do not lead on to the target do not matter.
theorem Walk.le_of_consistent {f : NodeIndex → α} (hw : p.Walk u a v b)
    (hf : ∀ {u e v c x}, p.graph.Hop u e v → p.costs.cost p.graph u e v = .ok c →
      p.Walk v 0 p.target x → f u ≤ c + f v)
    (hv : p.Walk v 0 p.target x) : a + f u ≤ b + f v := by
  induction hw generalizing x
  case refl => exact le_rfl
  case hop v e w b c _ hop hc ih =>
    have hw : p.Walk v 0 w c := zero_add c ▸ .hop .refl hop hc
    calc a + f u
      _ ≤ b + f v       := ih (hw.trans (hv.after c))
      _ ≤ b + (c + f w) := add_le_add_right (hf hop hc hv) b
      _ = b + c + f w   := (add_assoc ..).symm

theorem Admissible.of_consistent (f : NodeIndex → α)
    (hf : ∀ {u e v c x}, p.graph.Hop u e v → p.costs.cost p.graph u e v = .ok c →
      p.Walk v 0 p.target x → f u ≤ c + f v)
    (hh : ∀ {u h}, p.costs.heuristic p.graph u p.target = .ok h → h ≤ f u + ε)
    (ht : f p.target ≤ 0)
    (h₀ : ∀ {h}, p.costs.heuristic p.graph p.target p.target = .ok h → 0 ≤ h) :
    p.Admissible ε where
  target := h₀
  le {u h c} hu hw := by
    have hle : f u ≤ c :=
      calc f u
        _ = 0 + f u        := (zero_add _).symm
        _ ≤ c + f p.target := hw.le_of_consistent hf .refl
        _ ≤ c + 0          := add_le_add_right ht c
        _ = c              := add_zero c
    exact (hh hu).trans (add_le_add_left hle ε)

theorem Finds.isLeast (h : p.Finds path) (ha : p.Admissible 0) :
    IsLeast { c | p.Walk p.source 0 p.target c } path.cost where
  left       := h.walk
  right c hw := add_zero c ▸ h.cost_le ha hw

theorem Finds.near_optimal (h : p.Finds path) (ha : p.Admissible ε) :
    (∀ c, p.Walk p.source 0 p.target c → path.cost ≤ c + ε) ∧
      (ε = 0 → IsLeast { c | p.Walk p.source 0 p.target c } path.cost) :=
  ⟨fun _ => h.cost_le ha, fun hε => h.isLeast (hε ▸ ha)⟩

-- At node 2 the estimate is right, and everywhere else nothing is known. So node 1 is expanded by way
-- of the dearer edge at first, and once more when node 2 has been.
def shortcut : Problem ℚ where
  graph  := Network.toGraph <| .ofDraft {
    nodes := #[{ id := "s" }, { id := "a" }, { id := "b" }, { id := "t" }]
    edges := #[
      { id := "sa", source := 0, target := 1, directed := false, numbers := {("weight", 3)} },
      { id := "sb", source := 0, target := 2, directed := false, numbers := {("weight", 1)} },
      { id := "ba", source := 2, target := 1, directed := false, numbers := {("weight", 1)} },
      { id := "at", source := 1, target := 3, directed := false, numbers := {("weight", 4)} }] }
  costs  := { Costs.standard with heuristic _ u _ := .ok (if u = 2 then 5 else 0) }
  source := 0
  target := 3

theorem admissible_shortcut : shortcut.Admissible 0 := by
  let f (u : NodeIndex) : ℚ := if u = 0 then 6 else if u = 1 then 4 else if u = 2 then 5 else 0
  refine .of_consistent f ?consistent ?bound (by decide) ?target
  case consistent =>
    intro u e v c _ hop hc _
    obtain ⟨edge, he, rfl, hu⟩ := Network.weighted_hop hop hc
    simp only [Network.ofDraft, List.mem_toArray, List.mem_cons, List.not_mem_nil, or_false] at he
    obtain rfl | rfl | rfl | rfl := he
    all_goals
      simp at hu ⊢
      obtain ⟨rfl, rfl⟩ | ⟨rfl, rfl⟩ := hu
    all_goals decide +kernel
  case bound =>
    intro u h hh
    cases hh
    simp only [f]
    grind
  case target =>
    intro h hh
    cases hh
    decide

theorem shortcut_optimal :
    shortcut.Finds ⟨[0, 2, 1, 3], [1, 2, 3], 6⟩ ∧
      IsLeast { c | shortcut.Walk 0 0 3 c } 6 :=
  have h : shortcut.Finds ⟨[0, 2, 1, 3], [1, 2, 3], 6⟩ := .of_search (by cbv)
  ⟨h, (h.near_optimal admissible_shortcut).right rfl⟩

end BestFirst.Problem
