import BestFirst.Proofs.Search.Reachability
import BestFirst.Proofs.Store.Nodes
import Mathlib

namespace BestFirst

variable {α : Type}

namespace Graph

-- The hops from `u` along these edges, in their order. An edge that does not touch `u` gives none.
def hopsAlong (g : Graph α) (u : NodeIndex) (es : List EdgeIndex) :
    List (NodeIndex × EdgeIndex × NodeIndex) :=
  es.filterMap fun e =>
    match g.opposite? e u with
    | .ok (some v) => some (u, e, v)
    | _            => none

def hopsFrom (g : Graph α) (u : NodeIndex) : List (NodeIndex × EdgeIndex × NodeIndex) :=
  match g.leavingEdges u with
  | .ok es   => g.hopsAlong u es
  | .error _ => []

end Graph

namespace Store

-- How often a node left the closed set while a store went through these states, the latest of which
-- comes first.
def departures : List (Store α) → Nat
  | s' :: s :: before => (s.closedNodes \ s'.closedNodes).card + departures (s :: before)
  | _                 => 0

end Store

namespace State

variable [Add α] [LE α] [DecidableLE α]

theorem adopt_reopenings {s : State α} {r : Record α}
    (hr : ∀ {p : Nat}, r.parent = some p → p < s.store.arena.size) :
    (s.adopt r hr).stats.reopenings =
      s.stats.reopenings + (s.store.closedNodes \ (s.adopt r hr).store.closedNodes).card := by
  simp only [adopt, Store.closedNodes_add hr]
  by_cases hc : r.node ∈ s.store.closedNodes
  case pos =>
    rw [Finset.sdiff_erase_self hc, if_pos (Store.mem_closedNodes.mp hc), Finset.card_singleton]
  case neg =>
    rw [Finset.erase_eq_of_notMem hc, if_neg (Store.mem_closedNodes.not.mp hc), sdiff_self]
    rfl

end State

namespace Problem

def questions (p : Problem α) : NodeIndex × EdgeIndex × NodeIndex → List Question
  | (u, e, v) => [.heuristic v p.target, .cost u e v]

def Phase.finished : Phase α → List (Nat × Record α)
  | .choosing xs         => xs
  | .relaxing xs _ _ _ _ => xs

def Phase.hops (g : Graph α) : Phase α → List (NodeIndex × EdgeIndex × NodeIndex)
  | .choosing xs            => xs.flatMap fun x => g.hopsFrom x.2.node
  | .relaxing xs _ r done _ => xs.flatMap (fun x => g.hopsFrom x.2.node) ++ g.hopsAlong r.node done

section Passing

variable [Zero α] [Add α] [LE α] [DecidableLE α]

-- The steps of a search as `Visits` has them, with the states that the store was in before, the latest
-- of which comes first.
inductive Passes (p : Problem α) : List (Store α) → Phase α → State α → Prop
  | start {s} : p.start = .ok s → Passes p [{}] (.choosing []) s
  | close {before s xs i r store es} :
    Passes p before (.choosing xs) s →
    s.store.best.1 = some (i, r) →
    r.node ≠ p.target →
    s.store.best.2.close i = .ok store →
    p.graph.leavingEdges r.node = .ok es →
    Passes p (s.store :: before) (.relaxing xs i r [] es)
      { s with store, stats.expansions := s.stats.expansions + 1 }
  | relax {before s s' xs i r done e rest} :
    Passes p before (.relaxing xs i r done (e :: rest)) s →
    p.Relaxes i r s e s' →
    Passes p (s.store :: before) (.relaxing xs i r (done ++ [e]) rest) s'
  | finish {before s xs i r done} :
    Passes p before (.relaxing xs i r done []) s →
    Passes p before (.choosing (xs ++ [(i, r)])) s

-- What a report says is so, of a search that expanded `xs` and whose store came to be `s` after it had
-- been in the states `before`. The records of `xs` are those that were closed at any time, each once, and
-- whatever is listed at their nodes was answered for.
structure Truthful (p : Problem α) (report : Report α) (xs : List (Nat × Record α)) (s : Store α)
    (before : List (Store α)) : Prop where
  expansions    : report.stats.expansions = xs.length
  nodup         : (xs.map (·.1)).Nodup
  closed {i r}  : (i, r) ∈ xs ↔ ∃ m ∈ s :: before, m.IsClosed i r
  balance       : report.stats.expansions = report.stats.reopenings + s.closed.size
  answered {x}  : x ∈ xs → ∃ es, p.graph.leavingEdges x.2.node = .ok es ∧
    ∀ e ∈ es, ∃ v?, p.graph.opposite? e x.2.node = .ok v?
  relaxations   : report.stats.relaxations = (xs.map fun x => (p.graph.hopsFrom x.2.node).length).sum
  reopenings    : report.stats.reopenings = Store.departures (s :: before)
  maxOpen       : ((s :: before).map (·.opened.size)).max? = some report.stats.maxOpen
  someOpen      : 1 ≤ report.stats.maxOpen
  maxOpen_le    : (report.stats.maxOpen : ℕ∞) ≤ {u | p.graph.Reachable p.source u}.encard
  asked         : report.asked.toList = .heuristic p.source p.target ::
    xs.flatMap fun x => (p.graph.hopsFrom x.2.node).flatMap p.questions

end Passing

variable [Add α] [LE α] [DecidableLE α] {p : Problem α} {ph : Phase α} {s s' : State α} {i : Nat}
  {r : Record α} {e : EdgeIndex} {xs : List (Nat × Record α)} {before : List (Store α)}
  {report : Report α}

section Steps

theorem Relaxes.opposite (h : p.Relaxes i r s e s') : ∃ v?, p.graph.opposite? e r.node = .ok v? := by
  cases h
  case foreign ho   => exact ⟨none, ho⟩
  case covered ht _ => exact ⟨_, ht.opposite⟩
  case adopted ht _ => exact ⟨_, ht.opposite⟩

theorem Relaxes.hops (h : p.Relaxes i r s e s') :
    s'.stats.relaxations = s.stats.relaxations + (p.graph.hopsAlong r.node [e]).length ∧
    s'.asked.toList = s.asked.toList ++ (p.graph.hopsAlong r.node [e]).flatMap p.questions := by
  cases h
  case foreign ho   => simp [Graph.hopsAlong, ho]
  case covered ht _ => simp [Graph.hopsAlong, ht.opposite, State.examine, questions]
  case adopted ht _ => simp [Graph.hopsAlong, ht.opposite, State.examine, State.adopt, questions]

theorem Relaxes.expansions (h : p.Relaxes i r s e s') : s'.stats.expansions = s.stats.expansions := by
  cases h <;> rfl

theorem Relaxes.reopenings (h : p.Relaxes i r s e s') :
    s'.store.closedNodes ⊆ s.store.closedNodes ∧
    s'.stats.reopenings =
      s.stats.reopenings + (s.store.closedNodes \ s'.store.closedNodes).card := by
  cases h
  case foreign => simp
  case covered => simp [State.examine]
  case adopted ht _ _ =>
    exact ⟨Store.closedNodes_add ht ▸ Finset.erase_subset .., State.adopt_reopenings ht⟩

theorem Relaxes.maxOpen (h : p.Relaxes i r s e s') (hs : s.store.opened.size ≤ s.stats.maxOpen) :
    s'.stats.maxOpen = max s'.store.opened.size s.stats.maxOpen := by
  cases h
  case foreign => exact (max_eq_right hs).symm
  case covered => exact (max_eq_right hs).symm
  case adopted => exact max_comm ..

end Steps

section Runs

variable [Zero α]

theorem Passes.visits (h : p.Passes before ph s) : p.Visits ph s := by
  induction h
  case start h              => exact .start h
  case close hb hn hc hl ih => exact ih.close hb hn hc hl
  case relax hr ih          => exact ih.relax hr
  case finish ih            => exact ih.finish

theorem Visits.exists_passes (h : p.Visits ph s) : ∃ before, p.Passes before ph s := by
  induction h
  case start h => exact ⟨_, .start h⟩
  case close hb hn hc hl ih =>
    have ⟨_, h⟩ := ih
    exact ⟨_, h.close hb hn hc hl⟩
  case relax hr ih =>
    have ⟨_, h⟩ := ih
    exact ⟨_, h.relax hr⟩
  case finish ih =>
    have ⟨_, h⟩ := ih
    exact ⟨_, h.finish⟩

theorem Visits.expansions (h : p.Visits ph s) : s.stats.expansions = ph.expanded.length := by
  induction h
  case start h =>
    obtain ⟨_, _, _, rfl⟩ := start_eq_ok h
    rfl
  case close ih    => simpa [Phase.expanded] using ih
  case relax hr ih => exact hr.expansions.trans ih
  case finish ih   => exact ih

-- Every node that was closed is closed still, or has been re-opened since.
theorem Visits.balance (h : p.Visits ph s) :
    s.stats.expansions = s.stats.reopenings + s.store.closed.size := by
  rw [← Store.card_closedNodes]
  induction h
  case start h =>
    obtain ⟨x, hr, _, rfl⟩ := start_eq_ok h
    rw [Store.closedNodes_add hr, Store.closedNodes_empty]
    rfl
  case close s _ i r store _ hv hb _ hc _ ih =>
    have hr := Store.isOpen_best hb
    have hn : r.node ∉ s.store.best.2.closedNodes := by
      simp [Store.mem_closedNodes, hv.intact.best.apart hr.opened]
    rw [Store.closedNodes_close hc hr, Finset.card_insert_of_notMem hn]
    exact congrArg (· + 1) ih
  case relax hr ih =>
    have ⟨hsub, hre⟩ := hr.reopenings
    rw [hr.expansions, ih, hre, add_assoc, Finset.card_sdiff_add_card_eq_card hsub]
  case finish ih => exact ih

theorem Visits.hops (h : p.Visits ph s) :
    s.stats.relaxations = (ph.hops p.graph).length ∧
    s.asked.toList =
      .heuristic p.source p.target :: (ph.hops p.graph).flatMap p.questions := by
  induction h
  case start h =>
    obtain ⟨_, _, _, rfl⟩ := start_eq_ok h
    exact ⟨rfl, rfl⟩
  case close ih => simpa [Phase.hops, Graph.hopsAlong] using ih
  case relax hr ih =>
    have ⟨hn, ha⟩ := hr.hops
    have ⟨ihn, iha⟩ := ih
    rw [hn, ha, ihn, iha]
    simp [Phase.hops, Graph.hopsAlong, Nat.add_assoc]
  case finish hv ih =>
    have ⟨_, _, hl⟩ := hv.relaxing
    simpa [Phase.hops, Graph.hopsFrom, hl] using ih

theorem Visits.size_opened_le (h : p.Visits ph s) :
    (s.store.opened.size : ℕ∞) ≤ {u | p.graph.Reachable p.source u}.encard := by
  rw [← Store.card_openNodes, ← Set.encard_coe_eq_coe_finsetCard]
  refine Set.encard_le_encard fun u hu => ?_
  have ⟨i, hi⟩ := Option.isSome_iff_exists.mp (Store.mem_openNodes.mp hu)
  obtain ⟨r, hr, rfl⟩ := h.intact.opened hi
  exact h.reachable hr.record

theorem size_opened_of_start (h : p.start = .ok s) : s.store.opened.size = 1 := by
  obtain ⟨_, hr, _, rfl⟩ := start_eq_ok h
  rw [← Store.card_openNodes, Store.openNodes_add hr, Store.openNodes_empty]
  rfl

theorem Visits.size_opened_le_maxOpen (h : p.Visits ph s) :
    s.store.opened.size ≤ s.stats.maxOpen := by
  induction h
  case start h =>
    rw [size_opened_of_start h]
    obtain ⟨_, _, _, rfl⟩ := start_eq_ok h
    exact le_rfl
  case close s _ i r store _ _ hb _ hc _ ih =>
    have hr := Store.isOpen_best hb
    refine le_trans ?_ ih
    rw [← Store.card_openNodes, ← Store.card_openNodes, Store.openNodes_close hc hr]
    exact Finset.card_erase_le
  case relax hr ih => exact hr.maxOpen ih ▸ le_max_left ..
  case finish ih   => exact ih

theorem Visits.maxOpen_le (h : p.Visits ph s) :
    1 ≤ s.stats.maxOpen ∧
    (s.stats.maxOpen : ℕ∞) ≤ {u | p.graph.Reachable p.source u}.encard := by
  induction h
  case start h =>
    obtain ⟨_, _, _, rfl⟩ := start_eq_ok h
    exact ⟨le_rfl, by simpa using Set.one_le_encard_iff_nonempty.mpr ⟨p.source, .refl⟩⟩
  case close ih => exact ih
  case relax s s' _ _ _ _ _ _ hv hr ih =>
    have ⟨hpos, hle⟩ := ih
    rw [hr.maxOpen hv.size_opened_le_maxOpen]
    refine ⟨le_max_of_le_right hpos, ?_⟩
    cases max_choice s'.store.opened.size s.stats.maxOpen
    case inl hm =>
      rw [hm]
      exact (hv.relax hr).size_opened_le
    case inr hm =>
      rw [hm]
      exact hle
  case finish ih => exact ih

theorem Visits.answered (h : p.Visits ph s) {x : Nat × Record α} (hx : x ∈ ph.finished) :
    ∃ es, p.graph.leavingEdges x.2.node = .ok es ∧
      ∀ e ∈ es, ∃ v?, p.graph.opposite? e x.2.node = .ok v? := by
  induction h
  case start    => contradiction
  case close ih => exact ih hx
  case relax ih => exact ih hx
  case finish done hv ih =>
    cases List.mem_append.mp hx
    case inl hx => exact ih hx
    case inr hx =>
      cases List.mem_singleton.mp hx
      have ⟨_, _, hl⟩ := hv.relaxing
      refine ⟨done, by simpa using hl, fun e he => ?_⟩
      exact hv.done_induction (fun _ hx => hx.opposite) (fun _ _ ho => ho) he

theorem Passes.expanded_of_isClosed {m : Store α} (h : p.Passes before ph s) (hm : m ∈ before)
    (hr : m.IsClosed i r) : (i, r) ∈ ph.expanded := by
  induction h
  case start =>
    cases List.mem_singleton.mp hm
    exact absurd hr Store.not_isClosed_empty
  case close hv _ _ _ _ ih =>
    apply List.mem_append_left
    cases List.mem_cons.mp hm
    case inl hm => exact hv.visits.expanded.closed (hm ▸ hr)
    case inr hm => exact ih hm
  case relax hv _ ih =>
    cases List.mem_cons.mp hm
    case inl hm => exact hv.visits.expanded.closed (hm ▸ hr)
    case inr hm => exact ih hm
  case finish ih => exact ih hm

theorem Passes.exists_isClosed (h : p.Passes before ph s) (hx : (i, r) ∈ ph.expanded) :
    ∃ m ∈ s.store :: before, m.IsClosed i r := by
  induction h
  case start => contradiction
  case close s _ j t store _ _ hb _ hc _ ih =>
    cases List.mem_append.mp hx
    case inl hx =>
      have ⟨m, hm, hr⟩ := ih hx
      exact ⟨m, List.mem_cons_of_mem _ hm, hr⟩
    case inr hx =>
      cases List.mem_singleton.mp hx
      have ht := Store.isOpen_best hb
      exact ⟨store, List.mem_cons_self, (Store.isClosed_close hc ht).mpr (.inl ⟨rfl, rfl⟩)⟩
  case relax ih =>
    have ⟨m, hm, hr⟩ := ih hx
    exact ⟨m, List.mem_cons_of_mem _ hm, hr⟩
  case finish ih => exact ih hx

theorem Passes.mem_expanded_iff (h : p.Passes before ph s) :
    (i, r) ∈ ph.expanded ↔ ∃ m ∈ s.store :: before, m.IsClosed i r where
  mp hx := h.exists_isClosed hx
  mpr   := fun ⟨m, hm, hr⟩ => by
    cases List.mem_cons.mp hm
    case inl hm => exact h.visits.expanded.closed (hm ▸ hr)
    case inr hm => exact h.expanded_of_isClosed hm hr

theorem Passes.reopenings (h : p.Passes before ph s) :
    s.stats.reopenings = Store.departures (s.store :: before) := by
  induction h
  case start h =>
    obtain ⟨_, _, _, rfl⟩ := start_eq_ok h
    simp [Store.departures, Store.closedNodes_empty]
  case close s _ i r store _ _ hb _ hc _ ih =>
    have hr := Store.isOpen_best hb
    have hs : s.store.closedNodes ⊆ store.closedNodes := by
      rw [Store.closedNodes_close hc hr]
      exact Finset.subset_insert ..
    rw [Store.departures, Finset.sdiff_eq_empty_iff_subset.mpr hs, ← ih]
    simp
  case relax hr ih =>
    rw [Store.departures, ← ih, hr.reopenings.right, add_comm]
  case finish ih => exact ih

theorem Passes.maxOpen (h : p.Passes before ph s) :
    ((s.store :: before).map (·.opened.size)).max? = some s.stats.maxOpen := by
  induction h
  case start h =>
    rw [List.map_cons, size_opened_of_start h]
    obtain ⟨_, _, _, rfl⟩ := start_eq_ok h
    simp
  case close s _ _ _ _ _ hv hb hn hc hl ih =>
    have hle := (hv.visits.close hb hn hc hl).size_opened_le_maxOpen
    rw [List.map_cons, List.max?_cons, ih]
    exact congrArg some (max_eq_right hle)
  case relax hv hr ih =>
    rw [List.map_cons, List.max?_cons, ih, hr.maxOpen hv.visits.size_opened_le_maxOpen]
    rfl
  case finish ih => exact ih

theorem Passes.truthful (h : p.Passes before (.choosing xs) s)
    (ht : p.turn s = .ok (.ended report)) : p.Truthful report xs s.store before := by
  have ⟨hs, ha, _⟩ := turn_eq_ended ht
  have hv := h.visits
  have ⟨hrel, hasked⟩ := hv.hops
  have ⟨hpos, hle⟩ := hv.maxOpen_le
  constructor
  case expansions  => exact hs ▸ hv.expansions
  case nodup       => exact hv.expanded.nodup
  case closed      => exact h.mem_expanded_iff
  case balance     => exact hs ▸ hv.balance
  case answered    => exact hv.answered
  case relaxations => rw [hs, hrel, Phase.hops, List.length_flatMap]
  case reopenings  => exact hs ▸ h.reopenings
  case maxOpen     => exact hs ▸ h.maxOpen
  case someOpen    => exact hs ▸ hpos
  case maxOpen_le  => exact hs ▸ hle
  case asked       => rw [ha, hasked, Phase.hops, List.flatMap_assoc]

end Runs

theorem Returns.exists_passes [Zero α] (h : p.Returns report) :
    ∃ before xs s, p.Passes before (.choosing xs) s ∧ p.turn s = .ok (.ended report) := by
  have ⟨xs, s, hs, ht⟩ := h.reaches
  have ⟨before, hp⟩ := hs.visits.exists_passes
  exact ⟨before, xs, s, hp, ht⟩

theorem Returns.statistics_truthful [Zero α] (h : p.Returns report) :
    (∃ before xs s, p.Passes before (.choosing xs) s ∧ p.turn s = .ok (.ended report)) ∧
    ∀ before xs s, p.Passes before (.choosing xs) s → p.turn s = .ok (.ended report) →
      p.Truthful report xs s.store before :=
  ⟨h.exists_passes, fun _ _ _ h ht => h.truthful ht⟩

theorem truthful_of_search [Zero α] (h : p.search = .ok report) :
    ∃ before xs s, p.Passes before (.choosing xs) s ∧ p.turn s = .ok (.ended report) ∧
      p.Truthful report xs s.store before := by
  have ⟨before, xs, s, hp, ht⟩ := (Returns.of_search h).exists_passes
  exact ⟨before, xs, s, hp, ht, hp.truthful ht⟩

def clutterNetwork : Network Int := .ofDraft {
  nodes := #[{ id := "s" }, { id := "a" }, { id := "b" }, { id := "t" }]
  edges := #[
    { id := "sa", source := 0, target := 1, directed := true, numbers := {("weight", 3)} },
    { id := "sb", source := 0, target := 2, directed := true, numbers := {("weight", 1)} },
    { id := "ba", source := 2, target := 1, directed := true, numbers := {("weight", 1)} },
    { id := "at", source := 1, target := 3, directed := true, numbers := {("weight", 10)} }] }

-- Edge "ba" is listed at "s" as well, which it does not touch, and "sa" is listed twice. Node "b" is taken
-- to be far from the target, so that "a" is expanded first, and again when it was reached through "b".
def clutter : Problem Int where
  graph  := { clutterNetwork.toGraph with
    leavingEdges u := .ok (if u = 0 then [0, 2, 0, 1] else if u = 1 then [3] else if u = 2 then [2] else []) }
  costs  := { Costs.standard with heuristic _ u _ := .ok (if u = 2 then 5 else 0) }
  source := 0
  target := 3

theorem clutter_truthful : ∃ before xs s report,
    clutter.Passes before (.choosing xs) s ∧ clutter.turn s = .ok (.ended report) ∧
    clutter.Truthful report xs s.store before ∧ xs.length = 4 ∧ s.store.closed.size = 3 ∧
    (xs.map fun x => (clutter.graph.hopsFrom x.2.node).length).sum = 6 ∧
    Store.departures (s.store :: before) = 1 := by
  have h : (fun report => (report.stats.expansions, report.stats.relaxations, report.stats.reopenings)) <$>
      clutter.search = .ok (4, 6, 1) := by cbv
  obtain ⟨report, hr, hs⟩ := Except.map_eq_ok_iff.mp h
  obtain ⟨⟨before, xs, s, hp, ht⟩, htrue⟩ := (Returns.of_search hr).statistics_truthful
  have htr := htrue before xs s hp ht
  obtain ⟨hexp, hrel, hre⟩ : report.stats.expansions = 4 ∧ report.stats.relaxations = 6 ∧
      report.stats.reopenings = 1 := by simpa using hs
  have hb := htr.balance
  exact ⟨before, xs, s, report, hp, ht, htr, htr.expansions.symm.trans hexp, by omega,
    htr.relaxations.symm.trans hrel, htr.reopenings.symm.trans hre⟩

end Problem
end BestFirst
