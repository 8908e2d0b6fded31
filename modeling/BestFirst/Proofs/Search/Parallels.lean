import BestFirst.Proofs.Search.Expansion
import BestFirst.Proofs.Search.Soundness
import Mathlib

namespace BestFirst

variable {α : Type}

namespace Problem

variable [Add α]

def rankVia (p : Problem α) (u : NodeIndex) (a : α) (e : EdgeIndex) (v : NodeIndex) :
    Except Failure α :=
  return a + (← p.costs.cost p.graph u e v) + (← p.costs.heuristic p.graph v p.target)

theorem Proposes.rankVia {p : Problem α} {i : Nat} {r t : Record α} {e : EdgeIndex}
    (h : p.Proposes i r e t) : p.rankVia r.node r.g e t.node = .ok t.rank := by
  have ⟨c, hc, hg⟩ := h.cost
  rw [Problem.rankVia, hc, h.heuristic, Record.rank, hg]
  rfl

def spentOn [Zero α] (p : Problem α) (hops : List (NodeIndex × EdgeIndex × NodeIndex)) :
    Except Failure α :=
  hops.foldlM (fun total (u, e, v) => return total + (← p.costs.cost p.graph u e v)) 0

theorem spentOn_hops [Zero α] (p : Problem α) (path : Path α) : p.spentOn path.hops = p.spent path :=
  rfl

-- Where `a` has been spent to be at `u`, those of the edges `es` that lead to `v` all give it a rank
-- that satisfies `P`.
def Ranks (p : Problem α) (u : NodeIndex) (a : α) (v : NodeIndex) (es : List EdgeIndex)
    (P : α → Prop) : Prop :=
  ∀ e ∈ es, p.graph.opposite? e u = .ok (some v) → ∃ x, p.rankVia u a e v = .ok x ∧ P x

theorem Ranks.of_rankVia {p : Problem α} {u v : NodeIndex} {a x : α} {es : List EdgeIndex}
    {e : EdgeIndex} {P : α → Prop} (h : p.Ranks u a v es P) (he : e ∈ es)
    (ho : p.graph.opposite? e u = .ok (some v)) (hx : p.rankVia u a e v = .ok x) : P x :=
  have ⟨_, hy, h⟩ := h e he ho
  Except.ok.inj (hy.symm.trans hx) ▸ h

theorem eq_or_mem_of_split {before after before' after' : List EdgeIndex} {e f : EdgeIndex}
    (h : before ++ e :: after = before' ++ f :: after') :
    f = e ∨ e ∈ before' ∧ f ∈ after ∨ f ∈ before ∧ e ∈ after' := by
  obtain ⟨mid, hb, ha⟩ | ⟨mid, hb, ha⟩ := List.append_eq_append_iff.mp h
  all_goals
    cases mid
    case nil => exact .inl (by simp_all)
    case cons => simp_all

section FirstLeast

variable [LE α]

-- Of the edges `es`, `e` leads from `u` to `v` and gives `v` the least rank, and it is the first one
-- that does so.
def FirstLeast (p : Problem α) (u : NodeIndex) (a : α) (v : NodeIndex) (es : List EdgeIndex)
    (e : EdgeIndex) : Prop :=
  p.graph.opposite? e u = .ok (some v) ∧ ∃ x before after, p.rankVia u a e v = .ok x ∧
    es = before ++ e :: after ∧ p.Ranks u a v before (fun y => x ≤ y ∧ ¬y ≤ x) ∧
    p.Ranks u a v after (fun y => x ≤ y)

variable {p : Problem α} {u v : NodeIndex} {a : α} {es : List EdgeIndex} {e f : EdgeIndex}

theorem FirstLeast.unique (h : p.FirstLeast u a v es e) (h' : p.FirstLeast u a v es f) : f = e := by
  have ⟨ho, x, before, after, hx, hes, hb, ha⟩ := h
  have ⟨ho', y, before', after', hy, hes', hb', ha'⟩ := h'
  obtain hfe | ⟨he, hf⟩ | ⟨hf, he⟩ := eq_or_mem_of_split (hes.symm.trans hes')
  · exact hfe
  · exact absurd (ha.of_rankVia hf ho' hy) (hb'.of_rankVia he ho hx).right
  · exact absurd (ha'.of_rankVia he ho hx) (hb.of_rankVia hf ho' hy).right

theorem FirstLeast.concat (h : p.FirstLeast u a v es e)
    (hf : ∀ x, p.rankVia u a e v = .ok x → p.Ranks u a v [f] (fun y => x ≤ y)) :
    p.FirstLeast u a v (es ++ [f]) e := by
  have ⟨ho, x, before, after, hx, hes, hb, ha⟩ := h
  refine ⟨ho, x, before, after ++ [f], hx, by simp [hes], hb, fun e' he' => ?_⟩
  cases List.mem_append.mp he'
  case inl he' => exact ha e' he'
  case inr he' => exact hf x hx e' he'

end FirstLeast

section Choosing

variable [LE α]

def Picks (p : Problem α) (i : Nat) (r : Record α) (es : List EdgeIndex) (t : Record α) : Prop :=
  ∃ e, p.Proposes i r e t ∧ p.FirstLeast r.node r.g t.node es e

-- Record `t` is the one of the source, or it was reached from one of the records `xs`, along the first
-- edge that gives its node the least rank.
inductive Picked [Zero α] (p : Problem α) (xs : List (Nat × Record α)) : Record α → Prop
  | root {x} : Picked p xs (p.root x)
  | left {i r es t} : (i, r) ∈ xs → p.graph.leavingEdges r.node = .ok es → p.Picks i r es t →
    Picked p xs t

theorem Picked.mono [Zero α] {p : Problem α} {xs ys : List (Nat × Record α)} {t : Record α}
    (h : p.Picked xs t) (hs : xs ⊆ ys) : p.Picked ys t := by
  cases h
  case root         => exact .root
  case left hi hl h => exact .left (hs hi) hl h

-- What is known of an open record. While a record is expanded, one that was reached from it has only
-- been compared with what the edges before proposed.
def Phase.Admits [Zero α] (p : Problem α) : Phase α → Record α → Prop
  | .choosing xs, t             => p.Picked xs t
  | .relaxing xs i r done _, t  => p.Picked xs t ∨ p.Picks i r done t

structure Selective [Zero α] (p : Problem α) (ph : Phase α) (s : Store α) : Prop where
  opened {i r}   : s.IsOpen i r → ph.Admits p r
  expanded {i r} : (i, r) ∈ ph.expanded → p.Picked ph.expanded r

variable [DecidableLE α] {p : Problem α} {s s' : State α} {i j : Nat} {r t : Record α} {e : EdgeIndex}
  {done rest : List EdgeIndex} {xs : List (Nat × Record α)}

theorem Picks.relax (h : p.Picks i r done t) (hs : s.store.Consistent) (hx : p.Relaxes i r s e s')
    (ht : s.store.IsOpen j t) (ht' : s'.store.IsOpen j t) : p.Picks i r (done ++ [e]) t := by
  have ⟨f, hp, hf⟩ := h
  refine ⟨f, hp, hf.concat fun x hrank e' he ho => ?_⟩
  cases Except.ok.inj (hrank.symm.trans hp.rankVia)
  cases List.mem_singleton.mp he
  cases hx
  case foreign hn => exact absurd (hn.symm.trans ho) nofun
  case covered y hy hc =>
    have hn : y.node = t.node := hy.node_eq ho
    have hc : s.store.Covers y.node y.rank := (State.covers_iff hs).mp hc
    exact ⟨y.rank, hn ▸ hy.rankVia, hs.rank_le_of_covers ht (hn ▸ hc)⟩
  case adopted y hpar hy _ =>
    have hn : y.node = t.node := hy.node_eq ho
    cases (Store.isOpen_add hpar).mp ht'
    case inl hj => exact absurd hj.left (Nat.ne_of_lt (Store.lt_size_of_record? ht.record))
    case inr ht => exact absurd hn.symm ht.right

variable [Zero α] [RankOrder α]

theorem Visits.picks (h : p.Visits (.relaxing xs i r done (e :: rest)) s) (hs : s.store.Comparable)
    (hp : p.Proposes i r e t) (hc : s.covers t.node t.rank = false) (ht : t.rank ≤ t.rank) :
    p.Picks i r (done ++ [e]) t := by
  refine ⟨e, hp, hp.opposite, t.rank, done, [], hp.rankVia, rfl, fun f hf ho => ?_, nofun⟩
  cases h.tried hs hf
  case inl hn => exact absurd (hn.symm.trans ho) nofun
  case inr hf =>
    have ⟨y, hy, k, x, hx, hxn, hle⟩ := hf
    have hn : y.node = t.node := hy.node_eq ho
    have hlt : ¬x.rank ≤ t.rank := h.not_rank_le hs hc hx.record (hxn.trans hn)
    have hge : t.rank ≤ x.rank := (RankOrder.total ht (hs hx.record)).resolve_right hlt
    exact ⟨y.rank, hn ▸ hy.rankVia, RankOrder.trans hge hle, fun hyt => hlt (RankOrder.trans hle hyt)⟩

theorem Selective.relax (h : p.Selective (.relaxing xs i r done (e :: rest)) s.store)
    (hv : p.Visits (.relaxing xs i r done (e :: rest)) s) (hx : p.Relaxes i r s e s')
    (hs : s'.store.Comparable) : p.Selective (.relaxing xs i r (done ++ [e]) rest) s'.store where
  expanded := h.expanded
  opened {j t} ht := by
    have hkeep (hj : s.store.IsOpen j t) : Phase.Admits p (.relaxing xs i r (done ++ [e]) rest) t :=
      (h.opened hj).imp_right fun ht' => ht'.relax hv.consistent hx hj ht
    cases hx
    case foreign => exact hkeep ht
    case covered => exact hkeep ht
    case adopted y hpar hy hc =>
      cases (Store.isOpen_add hpar).mp ht
      case inr hj => exact hkeep hj.left
      case inl hj =>
        have hs : (s.store.add y hpar).Comparable := hs
        have ⟨hs, hy'⟩ := hs.of_add
        exact .inr (hj.right ▸ hv.picks hs hy hc hy')

theorem Visits.selective {ph : Phase α} (h : p.Visits ph s) (hs : s.store.Comparable) :
    p.Selective ph s.store := by
  induction h
  case start h =>
    obtain ⟨x, hr, -, rfl⟩ := start_eq_ok h
    refine ⟨fun ht => ?_, nofun⟩
    cases (Store.isOpen_add hr).mp ht
    case inl ht => exact ht.right ▸ .root
    case inr ht => exact absurd ht.left.record (by simp [Store.record?_empty])
  case close s xs i r store es hv hb hn hc hl ih =>
    have ih := ih fun h => hs ((Store.close_record? hc _).trans h)
    have hi : s.store.IsOpen i r := Store.isOpen_of_best hb
    constructor
    case opened =>
      intro j t ht
      have ⟨ht, _⟩ := (Store.isOpen_close hc (Store.isOpen_best hb)).mp ht
      exact .inl (ih.opened (Store.best_isOpen.mp ht))
    case expanded =>
      intro j t ht
      have hsub : xs ⊆ xs ++ [(i, r)] := List.subset_append_left ..
      cases List.mem_append.mp ht
      case inl ht => exact (ih.expanded ht).mono hsub
      case inr ht =>
        cases List.mem_singleton.mp ht
        exact (ih.opened hi).mono hsub
  case relax hv hx ih => exact (ih (hx.comparable hs)).relax hv hx hs
  case finish s xs i r done hv ih =>
    have ih := ih hs
    have ⟨_, _, hl⟩ := hv.relaxing
    refine ⟨fun ht => ?_, ih.expanded⟩
    cases ih.opened ht
    case inl ht => exact ht.mono (List.subset_append_left ..)
    case inr ht => exact .left (by simp) (List.append_nil done ▸ hl) ht

end Choosing

section Finding

def PicksAt [Zero α] [LE α] (p : Problem α) (path : Path α) (k : Nat) : Prop :=
  ∀ u e v, path.hops[k]? = some (u, e, v) → ∃ a es, p.spentOn (path.hops.take k) = .ok a ∧
    p.graph.leavingEdges u = .ok es ∧ p.FirstLeast u a v es e

variable [Zero α] [LE α] {p : Problem α} {path : Path α} {u v : NodeIndex} {e : EdgeIndex} {c : α}
  {es : List EdgeIndex} {k : Nat}

theorem Follows.picksAt_extend (hf : p.Follows u path) (h : ∀ k, p.PicksAt path k)
    (hl : p.graph.leavingEdges u = .ok es) (he : p.FirstLeast u path.cost v es e) :
    p.PicksAt (path.extend e v c) k := by
  intro u' e' v' hk
  rw [Path.hops_extend hf.length hf.target] at hk ⊢
  rw [List.getElem?_append] at hk
  split at hk
  case isTrue hlt =>
    rw [List.take_append_of_le_length (Nat.le_of_lt hlt)]
    exact h k u' e' v' hk
  case isFalse hlt =>
    rw [List.getElem?_singleton] at hk
    split at hk
    case isFalse => contradiction
    case isTrue hk' =>
      cases hk
      obtain rfl : k = path.hops.length := by omega
      rw [List.take_left]
      exact ⟨path.cost, es, (p.spentOn_hops path).trans hf.cost, hl, he⟩

-- A walk to the target goes on by the first of the edges that give the next node the least rank wherever
-- it goes on, and there is no other edge of which this is true.
theorem Follows.edge_iff (h : p.Follows v path) (hp : ∀ k, p.PicksAt path k)
    (hk : path.edges[k]? = some e) : ∃ u w a es, path.nodes[k]? = some u ∧ path.nodes[k + 1]? = some w ∧
      p.spentOn (path.hops.take k) = .ok a ∧ p.graph.leavingEdges u = .ok es ∧
      ∀ f, p.FirstLeast u a w es f ↔ f = e := by
  rw [← Path.hops_map_edge h.length, List.getElem?_map, Option.map_eq_some_iff] at hk
  obtain ⟨⟨u, _, w⟩, hk, rfl⟩ := hk
  have ⟨a, es, ha, hes, he⟩ := hp k u _ w hk
  have ⟨hu, hk⟩ := List.getElem?_zip_eq_some.mp hk
  have ⟨_, hw⟩ := List.getElem?_zip_eq_some.mp hk
  rw [List.getElem?_tail] at hw
  exact ⟨u, w, a, es, hu, hw, ha, hes, fun f => ⟨he.unique, fun h => h ▸ he⟩⟩

variable [DecidableLE α] [RankOrder α] {s : State α} {xs : List (Nat × Record α)} {i : Nat}
  {r : Record α}

theorem Visits.picksAt (h : p.Visits (.choosing xs) s) (hs : s.store.Comparable)
    (hr : s.store.record? i = some r) (hx : p.Picked xs r) :
    p.PicksAt (.along (s.store.arena.chain i) r.g) k := by
  induction i using Nat.strongRecOn generalizing r k
  case ind i ih =>
    cases hx
    case root =>
      rw [Arena.chain_of_parent_eq_none hr rfl]
      intro u e v hk
      contradiction
    case left j t es hj hl hp =>
      obtain ⟨e, hp, he⟩ := hp
      have ⟨c, _, hg⟩ := hp.cost
      have hjr : s.store.record? j = some t := h.expanded.record hj
      have hji : j < i := s.store.arena.parent_lt hr hp.parent
      have hf := (h.way hjr).follows
      rw [Arena.chain_of_parent_eq_some hr hp.parent, hg, Path.along_cons hp.parent hp.via]
      exact hf.picksAt_extend (fun k => ih j hji hjr ((h.selective hs).expanded hj)) hl he

theorem Finds.exists_picks (h : p.Finds path) (hs : ∀ ph s, p.Visits ph s → s.store.Comparable) :
    ∃ walk, p.Follows p.target walk ∧ walk.named = path ∧ ∀ k, p.PicksAt walk k := by
  obtain ⟨xs, s, i, r, hv, hi, hf, hw⟩ := h.exists_along
  have hpick := (hv.selective (hs _ _ hv)).opened hi
  exact ⟨_, hf, hw, fun k => hv.picksAt (hs _ _ hv) hi.record hpick⟩

-- The path is a walk to the target without those edges that have no index, so it is the walk itself if
-- there are none such. Each edge of the walk is the first of the least ones.
theorem Finds.first_least (h : p.Finds path) (hs : ∀ ph s, p.Visits ph s → s.store.Comparable) :
    ∃ walk : Path α, walk.nodes = path.nodes ∧ walk.edges.filter (· ≠ noEdge) = path.edges ∧
      (p.graph.Numbered → walk = path) ∧ walk.nodes.length = walk.edges.length + 1 ∧
      ∀ k e, walk.edges[k]? = some e → ∃ u v a es,
        walk.nodes[k]? = some u ∧ walk.nodes[k + 1]? = some v ∧
        p.spentOn (walk.hops.take k) = .ok a ∧ p.graph.leavingEdges u = .ok es ∧
        ∀ f, p.FirstLeast u a v es f ↔ f = e := by
  obtain ⟨walk, hf, rfl, hp⟩ := h.exists_picks hs
  exact ⟨walk, rfl, rfl, fun hn => (hf.named_eq hn).symm, hf.length, fun k e => hf.edge_iff hp⟩

-- Three edges lead from "b" to "a", where the last two cost the same, and so do two from "a" to "t". The
-- way by "b" to "a" is the cheaper one, but it is found when "a" has been expanded already.
def braid : Problem Int where
  graph  := Network.toGraph <| .ofDraft {
    nodes := #[{ id := "s" }, { id := "a" }, { id := "b" }, { id := "t" }]
    edges := #[
      { id := "sa", source := 0, target := 1, directed := true, numbers := {("weight", 4)} },
      { id := "sb", source := 0, target := 2, directed := true, numbers := {("weight", 5)} },
      { id := "ba1", source := 2, target := 1, directed := true, numbers := {("weight", -2)} },
      { id := "ba2", source := 2, target := 1, directed := true, numbers := {("weight", -3)} },
      { id := "ba3", source := 2, target := 1, directed := true, numbers := {("weight", -3)} },
      { id := "at1", source := 1, target := 3, directed := true, numbers := {("weight", 8)} },
      { id := "at2", source := 1, target := 3, directed := true, numbers := {("weight", 8)} }] }
  costs  := .standard
  source := 0
  target := 3

theorem braid_first_least : braid.Finds ⟨[0, 2, 1, 3], [1, 3, 5], 10⟩ ∧
    braid.graph.leavingEdges 2 = .ok [2, 3, 4] ∧ ∀ f, braid.FirstLeast 2 5 1 [2, 3, 4] f ↔ f = 3 := by
  have h : braid.Finds ⟨[0, 2, 1, 3], [1, 3, 5], 10⟩ := .of_search (by cbv)
  have hes : braid.graph.leavingEdges 2 = .ok [2, 3, 4] := by cbv
  have ha : braid.spentOn [(0, 1, 2)] = .ok 5 := by cbv
  obtain ⟨walk, -, -, hwalk, -, hpicks⟩ := h.first_least fun _ _ _ => Store.comparable _
  obtain rfl := hwalk (Network.numbered _)
  obtain ⟨u, v, a, es, hu, hv, ha', hes', hf⟩ := hpicks 1 3 rfl
  cases hu
  cases hv
  cases Except.ok.inj (ha.symm.trans ha')
  cases Except.ok.inj (hes.symm.trans hes')
  exact ⟨h, hes, hf⟩

-- The only edge is listed under the index that stands for none. It is taken, but the path does not show it.
def unmarked : Problem Int where
  graph  := { Network.toGraph (.ofDraft { nodes := #[{ id := "s" }, { id := "t" }] }) with
    leavingEdges u := .ok (if u = 0 then [noEdge] else [])
    endpoints _    := .ok (0, 1) }
  costs  := { Costs.standard with cost _ _ _ _ := .ok 1 }
  source := 0
  target := 1

example : Report.verdict <$> unmarked.search = .ok (.found ⟨[0, 1], [], 1⟩) := by cbv

end Finding
end Problem
end BestFirst
