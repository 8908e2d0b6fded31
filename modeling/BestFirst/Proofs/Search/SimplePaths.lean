import BestFirst.Proofs.Search.Dijkstra
import BestFirst.Proofs.Search.Growth
import Mathlib

namespace BestFirst

namespace Problem

variable {α : Type} [Zero α] [Add α] [LE α] [DecidableLE α] {p : Problem α} {ph : Phase α} {s : State α}
  {i : Nat} {path : Path α}

theorem Finds.exists_path (h : p.Finds path) :
    ∃ ph s i, p.Visits ph s ∧ s.store.path? i = some path := by
  obtain ⟨xs, s, i, r, hs, hb, -, rfl⟩ := h.reaches
  have hr := (Store.isOpen_of_best hb).record
  exact ⟨_, s, i, hs.visits, Option.map_eq_some_iff.mpr ⟨r, hr, rfl⟩⟩

variable [GrowingSum α]

theorem Visits.nodup_path (h : p.Visits ph s) (hp : p.Growing) (hi : s.store.path? i = some path) :
    path.nodes.Nodup := by
  obtain ⟨r, hr, rfl⟩ := Option.map_eq_some_iff.mp hi
  exact List.nodup_reverse.mpr (h.nodup_chain hp (Store.lt_size_of_record? hr))

theorem Growing.paths_simple (hp : p.Growing) :
    (∀ ph s i path, p.Visits ph s → s.store.path? i = some path → path.nodes.Nodup) ∧
      ∀ path, p.Finds path → path.nodes.Nodup := by
  refine ⟨fun ph s i path h hi => h.nodup_path hp hi, fun path h => ?_⟩
  have ⟨ph, s, i, hv, hi⟩ := h.exists_path
  exact hv.nodup_path hp hi

end Problem

-- What is lost by rounding is never more than what is added.
instance : GrowingSum Coarse where
  zero_le_zero          := RoundedSum.zero_le_zero
  le_add                := RoundedSum.le_add
  add_le_add ha hab _ _ := RoundedSum.add_le_add ha (RankOrder.trans ha hab) (Coarse.zero_le _) hab

namespace Problem

-- Node 1 is expanded by way of the dearer edge at first, since the estimate at node 2 is too high. When it is
-- reached from there, the loop and both of the edges that lead back cost less than what rounding loses, so
-- that going round is free.
def roundabout : Problem Coarse where
  graph  := Network.toGraph <| .ofDraft {
    nodes := #[{ id := "s" }, { id := "a" }, { id := "b" }, { id := "t" }]
    edges := #[
      { id := "sa", source := 0, target := 1, directed := false, numbers := {("weight", .round 8)} },
      { id := "sb", source := 0, target := 2, directed := false, numbers := {("weight", .round 4)} },
      { id := "ba", source := 2, target := 1, directed := false, numbers := {("weight", .round 1)} },
      { id := "ab", source := 1, target := 2, directed := false, numbers := {("weight", .round 1)} },
      { id := "aa", source := 1, target := 1, directed := false, numbers := {("weight", .round 1)} },
      { id := "at", source := 1, target := 3, directed := false, numbers := {("weight", .round 4)} }] }
  costs  := { Costs.weighted "weight" 0 with heuristic _ u _ := .ok (if u = 2 then .round 12 else 0) }
  source := 0
  target := 3

theorem growing_roundabout : roundabout.Growing where
  cost _ _     := Coarse.zero_le _
  comparable _ := fun _ => Fin.le_refl _

theorem roundabout_simple :
    roundabout.Growing ∧ roundabout.Finds ⟨[0, 2, 1, 3], [1, 2, 5], .round 8⟩ ∧
      ([0, 2, 1, 3] : List NodeIndex).Nodup :=
  have h : roundabout.Finds ⟨[0, 2, 1, 3], [1, 2, 5], .round 8⟩ := .of_search (by cbv)
  have ⟨_, hsimple⟩ := growing_roundabout.paths_simple
  ⟨growing_roundabout, h, hsimple _ h⟩

end Problem
end BestFirst
