import BestFirst.Proofs.Search.Calls
import BestFirst.Proofs.Search.Growth
import BestFirst.Proofs.Search.Soundness
import Mathlib

namespace BestFirst

variable {α : Type}

namespace Graph

inductive Along (g : Graph α) : NodeIndex → List EdgeIndex → List NodeIndex → Prop
  | nil {u} : Along g u [] []
  | cons {u e v es ns} : g.Hop u e v → Along g v es ns → Along g u (e :: es) (v :: ns)

def simpleWalks (g : Graph α) (u : NodeIndex) : Set (List EdgeIndex) :=
  { es | ∃ ns, g.Along u es ns ∧ (u :: ns).Nodup }

def edgesFrom (g : Graph α) (u : NodeIndex) : Set EdgeIndex :=
  { e | ∃ v es, g.Reachable u v ∧ g.leavingEdges v = .ok es ∧ e ∈ es }

variable {g : Graph α} {u v w : NodeIndex} {e : EdgeIndex} {es : List EdgeIndex} {ns : List NodeIndex}

theorem Along.length_eq (h : g.Along u es ns) : es.length = ns.length := by
  induction h
  case nil       => rfl
  case cons ih   => simp [ih]

theorem Along.snoc (h : g.Along u es ns) (hv : (u :: ns).getLast? = some v) (hop : g.Hop v e w) :
    g.Along u (es ++ [e]) (ns ++ [w]) := by
  induction h
  case nil =>
    obtain rfl : _ = v := by simpa using hv
    exact .cons hop .nil
  case cons hop' _ ih =>
    rw [List.getLast?_cons_cons] at hv
    exact .cons hop' (ih hv)

theorem Along.reachable (h : g.Along u es ns) (hv : v ∈ u :: ns) : g.Reachable u v := by
  induction h
  case nil =>
    cases List.mem_singleton.mp hv
    exact .refl
  case cons hop _ ih =>
    obtain rfl | hv := List.mem_cons.mp hv
    · exact .refl
    · exact .head ⟨_, hop⟩ (ih hv)

theorem Along.subset_edgesFrom (h : g.Along u es ns) (he : e ∈ es) : e ∈ g.edgesFrom u := by
  induction h
  case nil => contradiction
  case cons f v _ _ hop _ ih =>
    obtain rfl | he := List.mem_cons.mp he
    case inl =>
      have ⟨fs, hl, hf⟩ := hop.leaves
      exact ⟨_, fs, .refl, hl, hf⟩
    case inr =>
      have ⟨w, fs, hw, hl, hf⟩ := ih he
      exact ⟨w, fs, .head ⟨f, hop⟩ hw, hl, hf⟩

theorem finite_edgesFrom (hf : { v | g.Reachable u v }.Finite) : (g.edgesFrom u).Finite := by
  have hl (v : NodeIndex) : { e | ∃ es, g.leavingEdges v = .ok es ∧ e ∈ es }.Finite := by
    cases hv : g.leavingEdges v
    case error => simp
    case ok es => simp
  refine (hf.biUnion fun v _ => hl v).subset fun e he => ?_
  have ⟨v, es, hv, hl, he⟩ := he
  exact Set.mem_biUnion hv ⟨es, hl, he⟩

-- A simple walk is no longer than there are nodes, and goes along the edges that leave them.
theorem finite_simpleWalks (hf : { v | g.Reachable u v }.Finite) : (g.simpleWalks u).Finite := by
  have := (finite_edgesFrom hf).to_subtype
  have hfin := List.finite_length_le (g.edgesFrom u) hf.toFinset.card
  refine (hfin.image (List.map Subtype.val)).subset fun es hes => ?_
  have ⟨ns, ha, hnd⟩ := hes
  have hlen : es.length ≤ hf.toFinset.card := by
    calc es.length
      _ = ns.length                 := ha.length_eq
      _ ≤ (u :: ns).length          := Nat.le_succ _
      _ = (u :: ns).toFinset.card   := (List.toFinset_card_of_nodup hnd).symm
      _ ≤ hf.toFinset.card          := Finset.card_le_card fun v hv => by
        simpa using ha.reachable (List.mem_toFinset.mp hv)
  refine ⟨es.attachWith _ fun e => ha.subset_edgesFrom, ?_, List.attachWith_map_subtype_val ..⟩
  simpa using hlen

end Graph

theorem Network.finite_reachable (g : Network α) (u : NodeIndex) :
    { v | g.toGraph.Reachable u v }.Finite := by
  let ends : List NodeIndex := g.edges.toList.flatMap fun edge => [(edge.source : Int), edge.target]
  refine (u :: ends).finite_toSet.subset fun v hv => ?_
  cases hv
  case refl => exact List.mem_cons_self
  case tail hop =>
    have ⟨e, hop⟩ := hop
    have ⟨edge, hm, _, hu⟩ := edge_of_hop hop
    refine List.mem_cons_of_mem _ (List.mem_flatMap.mpr ⟨edge, by simpa using hm, ?_⟩)
    obtain ⟨-, rfl⟩ | ⟨-, rfl⟩ := hu
    all_goals simp

namespace Problem

theorem Way.along [Zero α] [Add α] {p : Problem α} {v : NodeIndex} {path : Path α}
    (h : p.Way v path) : ∃ ns, path.nodes = p.source :: ns ∧ p.graph.Along p.source path.edges ns := by
  induction h
  case source => exact ⟨[], rfl, .nil⟩
  case hop hw hop _ ih =>
    have ⟨ns, hn, ha⟩ := ih
    refine ⟨ns ++ [_], by simp [Path.extend, hn], ha.snoc ?_ hop⟩
    exact hn ▸ hw.follows.target

theorem Expanded.length_le {xs : List (Nat × Record α)} {s : Store α} (h : Expanded xs s) :
    xs.length ≤ s.arena.size := by
  have hsub : xs.map (·.1) ⊆ List.range s.arena.size := by
    intro i hi
    have ⟨x, hx, hi⟩ := List.mem_map.mp hi
    exact List.mem_range.mpr (hi ▸ Store.lt_size_of_record? (h.record hx))
  simpa using (h.nodup.subperm hsub).length_le

variable [Zero α] [Add α] [LE α] [DecidableLE α] {p : Problem α} {ph : Phase α} {s : State α}
  {i : Nat} {xs : List (Nat × Record α)}

theorem Reaches.of_run_eq_none {n : Nat} (h : p.Reaches xs s) (hn : p.run n s = none) :
    ∃ ys s', p.Reaches ys s' ∧ ys.length = xs.length + n := by
  induction n generalizing s xs
  case zero => exact ⟨xs, s, h, rfl⟩
  case succ n ih =>
    simp only [run] at hn
    split at hn
    case h_1 => contradiction
    case h_2 => contradiction
    case h_3 ht =>
      obtain ⟨i, r, hb, _⟩ := turn_eq_next_iff.mp ht
      obtain ⟨ys, s', hs, hl⟩ := ih (h.turn hb ht) hn
      exact ⟨ys, s', hs, by simp at hl; omega⟩

variable [GrowingSum α]

theorem Visits.course_mem_simpleWalks (h : p.Visits ph s) (hp : p.Growing)
    (hi : i < s.store.arena.size) :
    (s.store.arena.course i).reverse ∈ p.graph.simpleWalks p.source := by
  have ⟨r, hr⟩ := Option.isSome_iff_exists.mp ((s.store.arena.get?_isSome_iff i).mpr hi)
  have ⟨ns, hn, ha⟩ := (h.way hr).along
  refine ⟨ns, ha, ?_⟩
  rw [← hn]
  exact List.nodup_reverse.mpr (h.nodup_chain hp hi)

theorem Visits.size_le (h : p.Visits ph s) (hp : p.Growing)
    (hf : (p.graph.simpleWalks p.source).Finite) :
    s.store.arena.size ≤ (p.graph.simpleWalks p.source).ncard := by
  have hle := Set.ncard_le_ncard_of_injOn (s := Set.Iio s.store.arena.size)
    (fun i => (s.store.arena.course i).reverse) (fun i hi => h.course_mem_simpleWalks hp hi)
    (fun i hi j hj hij => h.course_injective hp hi hj (List.reverse_injective hij)) hf
  simpa using hle

theorem Growing.exists_answer {n : Nat} (hp : p.Growing)
    (hf : (p.graph.simpleWalks p.source).Finite) (hs : p.start = .ok s)
    (hn : (p.graph.simpleWalks p.source).ncard < n) : ∃ answer, p.run n s = some answer := by
  cases hr : p.run n s
  case some answer => exact ⟨answer, rfl⟩
  case none =>
    have ⟨xs, s', h, hl⟩ := (Reaches.start hs).of_run_eq_none hr
    have hlen : xs.length ≤ s'.store.arena.size := h.visits.expanded.length_le
    have hsize := h.visits.size_le hp hf
    simp only [List.length_nil] at hl
    omega

theorem Growing.returns_or_fails (hp : p.Growing)
    (hf : { v | p.graph.Reachable p.source v }.Finite) :
    (∃ report, p.Returns report) ∨ ∃ fault, p.Fails fault := by
  cases hs : p.start
  case error fault => exact .inr ⟨fault, .inl hs⟩
  case ok s =>
    have ⟨answer, hr⟩ := hp.exists_answer (Graph.finite_simpleWalks hf) hs (Nat.lt_succ_self _)
    cases answer
    case error fault => exact .inr ⟨fault, .inr ⟨s, _, hs, hr⟩⟩
    case ok report   => exact .inl ⟨report, s, _, hs, hr⟩

-- A search takes no more turns than there are simple walks and one more, and at all times every record
-- has a simple walk to itself, the one that it was reached along.
theorem Growing.terminates (hp : p.Growing) (hf : { v | p.graph.Reachable p.source v }.Finite)
    (hs : p.start = .ok s) :
    (p.graph.simpleWalks p.source).Finite ∧
    (∀ n, (p.graph.simpleWalks p.source).ncard < n → ∃ answer, p.run n s = some answer) ∧
    ∀ ph s', p.Visits ph s' →
      s'.store.arena.size ≤ (p.graph.simpleWalks p.source).ncard ∧
      ∀ i < s'.store.arena.size, (s'.store.arena.course i).reverse ∈ p.graph.simpleWalks p.source ∧
        ∀ j < s'.store.arena.size, s'.store.arena.course i = s'.store.arena.course j → i = j := by
  have hfin := Graph.finite_simpleWalks hf
  exact ⟨hfin, fun n hn => hp.exists_answer hfin hs hn, fun ph s' h => ⟨h.size_le hp hfin, fun i hi =>
    ⟨h.course_mem_simpleWalks hp hi, fun j hj => h.course_injective hp hi hj⟩⟩⟩

-- All edges but the last are free, one of them is a loop, and two lead from one node to the same other
-- one. The estimates call a search back and forth.
def stroll : Problem Int where
  graph  := Network.toGraph <| .ofDraft {
    nodes := #[{ id := "s" }, { id := "a" }, { id := "b" }, { id := "t" }]
    edges := #[
      { id := "sa", source := 0, target := 1, directed := false, numbers := {("weight", 0)} },
      { id := "aa", source := 1, target := 1, directed := false, numbers := {("weight", 0)} },
      { id := "ab", source := 1, target := 2, directed := false, numbers := {("weight", 0)} },
      { id := "ba", source := 2, target := 1, directed := false, numbers := {("weight", 0)} },
      { id := "bt", source := 2, target := 3, directed := false, numbers := {("weight", 7)} }] }
  costs  := { Costs.standard with heuristic _ u _ := .ok (if u = 1 then 50 else -20 * u) }
  source := 0
  target := 3

theorem growing_stroll : stroll.Growing where
  comparable _ := Store.comparable _
  cost hop hc := by
    obtain ⟨edge, he, rfl, -⟩ := Network.weighted_hop hop hc
    simp only [Network.ofDraft, List.mem_toArray, List.mem_cons, List.not_mem_nil, or_false] at he
    obtain rfl | rfl | rfl | rfl | rfl := he
    all_goals simp

theorem stroll_terminates : stroll.Growing ∧ { v | stroll.graph.Reachable 0 v }.Finite ∧
    ∃ s, stroll.start = .ok s ∧ ∃ n answer, stroll.run n s = some answer := by
  have hf : { v | stroll.graph.Reachable 0 v }.Finite := Network.finite_reachable _ 0
  have ⟨_, hn, _⟩ := growing_stroll.terminates hf rfl
  exact ⟨growing_stroll, hf, _, rfl, _, hn _ (Nat.lt_succ_self _)⟩

end Problem
end BestFirst
