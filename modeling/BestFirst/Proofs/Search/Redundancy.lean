import BestFirst.Proofs.Search.Statistics
import Mathlib

namespace BestFirst

variable {α : Type}

namespace Graph

def Foreign (g : Graph α) (u : NodeIndex) (e : EdgeIndex) : Prop :=
  g.opposite? e u = .ok none

def Redundant (g : Graph α) (u : NodeIndex) (done : List EdgeIndex) (e : EdgeIndex) : Prop :=
  g.Foreign u e ∨ e ∈ done

end Graph

-- Some entries are left out, each of which satisfies `P` in view of the entries that come before it.
inductive Thins (P : List EdgeIndex → EdgeIndex → Prop) :
    List EdgeIndex → List EdgeIndex → List EdgeIndex → Prop
  | nil {done}          : Thins P done [] []
  | keep {done e es fs} : Thins P (done ++ [e]) es fs → Thins P done (e :: es) (e :: fs)
  | drop {done e es fs} : P done e → Thins P (done ++ [e]) es fs → Thins P done (e :: es) fs

namespace Thins

variable {P : List EdgeIndex → EdgeIndex → Prop} {done es fs : List EdgeIndex} {e : EdgeIndex}

theorem refl : Thins P done es es := by
  induction es generalizing done
  case nil     => exact .nil
  case cons ih => exact .keep ih

theorem erase (h : P (done ++ es) e) : Thins P done (es ++ e :: fs) (es ++ fs) := by
  induction es generalizing done
  case nil          => exact .drop (by simpa using h) refl
  case cons x es ih => exact .keep (ih (by simpa using h))

end Thins

namespace Problem

-- `q` is `p` with shorter lists of edges. What is left out of the list at `u` satisfies `P u`.
structure Prunes (p q : Problem α) (P : NodeIndex → List EdgeIndex → EdgeIndex → Prop) : Prop where
  source              : q.source = p.source
  target              : q.target = p.target
  nodeId              : q.graph.nodeId = p.graph.nodeId
  endpoints           : q.graph.endpoints = p.graph.endpoints
  heuristic u         : q.costs.heuristic q.graph u q.target = p.costs.heuristic p.graph u p.target
  cost u e v          : q.costs.cost q.graph u e v = p.costs.cost p.graph u e v
  leavingEdges {u es} : p.graph.leavingEdges u = .ok es →
    ∃ fs, q.graph.leavingEdges u = .ok fs ∧ Thins (P u) [] es fs

section Prunes

variable {p q : Problem α} {P : NodeIndex → List EdgeIndex → EdgeIndex → Prop}

theorem Prunes.opposite? (h : p.Prunes q P) : q.graph.opposite? = p.graph.opposite? := by
  funext e u
  rw [Graph.opposite?, Graph.opposite?, h.endpoints]

theorem Prunes.proposes [Add α] {i : Nat} {r t : Record α} {e : EdgeIndex} (h : p.Prunes q P)
    (ht : p.Proposes i r e t) : q.Proposes i r e t where
  opposite  := h.opposite? ▸ ht.opposite
  heuristic := (h.heuristic t.node).trans ht.heuristic
  cost      := by simpa only [h.cost] using ht.cost
  via       := ht.via
  parent    := ht.parent

variable [Add α] [LE α] [DecidableLE α]

theorem Prunes.start [Zero α] (h : p.Prunes q P) : q.start = p.start := by
  have hh := h.heuristic p.source
  rw [h.target] at hh
  simp only [Problem.start, Problem.heuristic, h.source, h.target, h.nodeId, hh]

theorem Prunes.relaxes {i : Nat} {r : Record α} {e : EdgeIndex} {s s' : State α} (h : p.Prunes q P)
    (hx : p.Relaxes i r s e s') : q.Relaxes i r s e s' := by
  cases hx
  case foreign ho => exact .foreign (h.opposite? ▸ ho)
  case covered hp hc =>
    rw [← h.target]
    exact .covered (h.proposes hp) hc
  case adopted ht hp hc =>
    rw [← h.target]
    exact .adopted (p := q) ht (h.proposes hp) hc

end Prunes

section Lockstep

variable [Zero α] [Add α] [LE α] [DecidableLE α]

-- A relation between the states of two searches that is kept when both go along the same edge, and when
-- the first goes along one that is not listed for the second.
structure Lockstep (p q : Problem α) (P : NodeIndex → List EdgeIndex → EdgeIndex → Prop)
    (R : State α → State α → Prop) : Prop where
  prunes       : p.Prunes q P
  refl s       : R s s
  store {s s'} : R s s' → s'.store = s.store
  close {s s'} {store : Store α} : R s s' →
    R { s with store, stats.expansions := s.stats.expansions + 1 }
      { s' with store, stats.expansions := s'.stats.expansions + 1 }
  keep {i r e s s' t} : R s s' → p.Relaxes i r s e t → ∃ t', q.Relaxes i r s' e t' ∧ R t t'
  drop {xs i r done e rest s s' t} : p.Visits (.relaxing xs i r done (e :: rest)) s → P r.node done e →
    R s s' → p.Relaxes i r s e t → R t s'

namespace Lockstep

variable {p q : Problem α} {P : NodeIndex → List EdgeIndex → EdgeIndex → Prop}
  {R : State α → State α → Prop} {s s' t : State α} {i n : Nat} {r : Record α}
  {es fs done : List EdgeIndex} {xs : List (Nat × Record α)} {report : Report α}

theorem relax_all (h : Lockstep p q P R) (hv : p.Visits (.relaxing xs i r done es) s)
    (hf : Thins (P r.node) done es fs) (hR : R s s') (hx : es.foldlM (p.relax i r) s = .ok t) :
    ∃ t', fs.foldlM (q.relax i r) s' = .ok t' ∧ R t t' := by
  induction hf generalizing s s'
  case nil =>
    cases hx
    exact ⟨s', rfl, hR⟩
  case keep e es fs _ ih =>
    simp only [List.foldlM_cons, Except.bind_eq_ok_iff, relax_eq_ok_iff] at hx ⊢
    have ⟨s₁, h₁, hx⟩ := hx
    have ⟨s₁', h₁', hR⟩ := h.keep hR h₁
    have ⟨t', ht, hR⟩ := ih (hv.relax h₁) hR hx
    exact ⟨t', ⟨s₁', h₁', ht⟩, hR⟩
  case drop hP _ ih =>
    simp only [List.foldlM_cons, Except.bind_eq_ok_iff, relax_eq_ok_iff] at hx
    have ⟨s₁, h₁, hx⟩ := hx
    exact ih (hv.relax h₁) (h.drop hv hP hR h₁) hx

theorem turn_next (h : Lockstep p q P R) (hv : p.Visits (.choosing xs) s) (hR : R s s')
    (hx : p.turn s = .ok (.next t)) : ∃ t', q.turn s' = .ok (.next t') ∧ R t t' := by
  have ⟨i, r, hb, hn, hx⟩ := turn_eq_next_iff.mp hx
  simp only [expand, Except.bind_eq_ok_iff, State.attempt_eq_ok_iff] at hx
  have ⟨store, hc, id, hid, es, hl, hx⟩ := hx
  have ⟨fs, hl', hf⟩ := h.prunes.leavingEdges hl
  have ⟨t', ht, hR'⟩ := h.relax_all (hv.close hb hn hc hl) hf (h.close hR) hx
  have hs : s'.store = s.store := h.store hR
  refine ⟨t', turn_eq_next_iff.mpr ⟨i, r, hs ▸ hb, h.prunes.target ▸ hn, ?_⟩, hR'⟩
  simp only [expand, hs, hc, h.prunes.nodeId, hid, hl', State.attempt_ok, Except.ok_bind]
  exact ht

theorem turn_ended (h : Lockstep p q P R) (hR : R s s') (hx : p.turn s = .ok (.ended report)) :
    q.turn s' = .ok (.ended ⟨report.verdict, s'.stats, s'.asked⟩) := by
  have hs : s'.store = s.store := h.store hR
  have ⟨_, _, hv⟩ := turn_eq_ended hx
  cases hr : report.verdict
  case found path =>
    rw [hr] at hv
    have ⟨i, r, hb, hn, hp⟩ := hv
    rw [turn_eq_found (hs ▸ hb) (hn.trans h.prunes.target.symm), hs, hp]
  case exhausted =>
    rw [hr] at hv
    exact turn_eq_exhausted (hs ▸ hv)

theorem run (h : Lockstep p q P R) (hv : p.Visits (.choosing xs) s) (hR : R s s')
    (hx : p.run n s = some (.ok report)) :
    ∃ t t', R t t' ∧ report.stats = t.stats ∧ report.asked = t.asked ∧
      q.run n s' = some (.ok ⟨report.verdict, t'.stats, t'.asked⟩) := by
  induction n generalizing s s' xs
  case zero => contradiction
  case succ n ih =>
    simp only [Problem.run] at hx ⊢
    split at hx
    case h_1 => cases hx
    case h_2 ht =>
      cases hx
      obtain ⟨hstats, hasked, _⟩ := turn_eq_ended ht
      exact ⟨s, s', hR, hstats, hasked, by rw [h.turn_ended hR ht]⟩
    case h_3 ht =>
      obtain ⟨_, _, _, hv'⟩ := hv.turn ht
      obtain ⟨t', ht', hR'⟩ := h.turn_next hv hR ht
      rw [ht']
      exact ih hv' hR' hx

theorem returns (h : Lockstep p q P R) (hx : p.Returns report) :
    ∃ t t', R t t' ∧ report.stats = t.stats ∧ report.asked = t.asked ∧
      q.Returns ⟨report.verdict, t'.stats, t'.asked⟩ := by
  have ⟨s, n, hs, hx⟩ := hx
  have ⟨t, t', hR, hstats, hasked, hx'⟩ := h.run (.start hs) (h.refl s) hx
  exact ⟨t, t', hR, hstats, hasked, s, n, h.prunes.start.trans hs, hx'⟩

end Lockstep
end Lockstep

-- The state of one search is the state of the other, but for how many edges have been looked at and what
-- has been asked about them.
structure Mirrors (s s' : State α) : Prop where
  store      : s'.store = s.store
  expansions : s'.stats.expansions = s.stats.expansions
  reopenings : s'.stats.reopenings = s.stats.reopenings
  maxOpen    : s'.stats.maxOpen = s.stats.maxOpen

namespace Mirrors

variable {s s' s'' : State α}

theorem refl (s : State α) : Mirrors s s :=
  ⟨rfl, rfl, rfl, rfl⟩

theorem trans (h : Mirrors s s') (h' : Mirrors s' s'') : Mirrors s s'' where
  store      := h'.store.trans h.store
  expansions := h'.expansions.trans h.expansions
  reopenings := h'.reopenings.trans h.reopenings
  maxOpen    := h'.maxOpen.trans h.maxOpen

variable [Add α] [LE α] [DecidableLE α] {t : Record α}

theorem adopt (h : Mirrors s s') (ht : ∀ {k : Nat}, t.parent = some k → k < s.store.arena.size)
    (ht' : ∀ {k : Nat}, t.parent = some k → k < s'.store.arena.size) :
    Mirrors (s.adopt t ht) (s'.adopt t ht') := by
  have ⟨store, stats, asked⟩ := s'
  obtain ⟨rfl, he, hr, hm⟩ := h
  exact ⟨rfl, he, congrArg (· + _) hr, congrArg (max · _) hm⟩

theorem relaxes {p : Problem α} {i : Nat} {r : Record α} {e : EdgeIndex} {t : State α}
    (h : Mirrors s s') (hx : p.Relaxes i r s e t) : ∃ t', p.Relaxes i r s' e t' ∧ Mirrors t t' := by
  have hcov {u x} : s'.covers u x = s.covers u x := by
    simp only [State.covers, State.covers.holds, h.store]
  cases hx
  case foreign ho => exact ⟨s', .foreign ho, h⟩
  case covered hp hc =>
    exact ⟨_, .covered hp (hcov.trans hc), h.store, h.expansions, h.reopenings, h.maxOpen⟩
  case adopted t ht hp hc =>
    have ht' {k : Nat} (hk : t.parent = some k) : k < s'.store.arena.size := h.store ▸ ht hk
    have he : Mirrors (s.examine r.node e t.node p.target) (s'.examine r.node e t.node p.target) :=
      ⟨h.store, h.expansions, h.reopenings, h.maxOpen⟩
    exact ⟨_, .adopted ht' hp (hcov.trans hc), he.adopt ht ht'⟩

end Mirrors

variable [Add α] [LE α] [DecidableLE α] {p q : Problem α} {s t : State α} {i : Nat} {r : Record α}
  {e : EdgeIndex} {done rest : List EdgeIndex} {xs : List (Nat × Record α)} {report : Report α}

theorem Relaxes.eq_of_foreign (h : p.Relaxes i r s e t) (he : p.graph.Foreign r.node e) : t = s := by
  cases h
  case foreign      => rfl
  case covered hp _ => exact absurd (hp.opposite.symm.trans he) nofun
  case adopted hp _ => exact absurd (hp.opposite.symm.trans he) nofun

theorem Relaxes.mirrors_of_tried (h : p.Relaxes i r s e t) (hs : s.store.Consistent)
    (he : p.Tried s.store i r e) : Mirrors t s := by
  cases h
  case foreign => exact .refl s
  case covered => exact ⟨rfl, rfl, rfl, rfl⟩
  case adopted hp hc =>
    cases he
    case inl he => exact absurd (hp.opposite.symm.trans he) nofun
    case inr he =>
      have ⟨t', hp', hcov⟩ := he
      cases hp.unique hp'
      simp [(State.covers_iff hs).mpr hcov] at hc

variable [Zero α]

theorem Prunes.lockstep_eq (h : p.Prunes q fun u _ e => p.graph.Foreign u e) :
    Lockstep p q (fun u _ e => p.graph.Foreign u e) Eq where
  prunes          := h
  refl _          := rfl
  store hs        := hs ▸ rfl
  close hs        := hs ▸ rfl
  keep hs hx      := ⟨_, hs ▸ h.relaxes hx, rfl⟩
  drop _ he hs hx := (hx.eq_of_foreign he).trans hs

variable [RankOrder α]

theorem Prunes.lockstep_mirrors (h : p.Prunes q p.graph.Redundant)
    (hc : ∀ ph s, p.Visits ph s → s.store.Comparable) :
    Lockstep p q p.graph.Redundant Mirrors where
  prunes     := h
  refl       := .refl
  store hm   := hm.store
  close hm   := ⟨rfl, congrArg (· + 1) hm.expansions, hm.reopenings, hm.maxOpen⟩
  keep hm hx := hm.relaxes (h.relaxes hx)
  drop hv he hm hx := by
    refine (hx.mirrors_of_tried hv.consistent ?_).trans hm
    cases he
    case inl he => exact .inl he
    case inr he => exact hv.tried (hc _ _ hv) he

-- Without redundant entries a search comes to the same verdict by the same expansions. It gives the very
-- same report if it is only foreign entries that are left out, as these are not counted.
theorem Returns.redundancy_harmless (h : p.Returns report)
    (hc : ∀ ph s, p.Visits ph s → s.store.Comparable) :
    (p.Prunes q p.graph.Redundant → ∃ report', q.Returns report' ∧
      report'.verdict = report.verdict ∧
      report'.stats.expansions = report.stats.expansions ∧
      report'.stats.reopenings = report.stats.reopenings ∧
      report'.stats.maxOpen = report.stats.maxOpen) ∧
    ((p.Prunes q fun u _ e => p.graph.Foreign u e) → q.Returns report) := by
  constructor
  case left =>
    intro hq
    have ⟨t, t', hm, hs, _, hr⟩ := (hq.lockstep_mirrors hc).returns h
    exact ⟨_, hr, rfl, hs ▸ hm.expansions, hs ▸ hm.reopenings, hs ▸ hm.maxOpen⟩
  case right =>
    intro hq
    obtain ⟨t, _, rfl, hs, ha, hr⟩ := hq.lockstep_eq.returns h
    rwa [← hs, ← ha] at hr

def clutterBy (es : List EdgeIndex) : Problem Int :=
  { clutter with graph := { clutter.graph with
    leavingEdges u := if u = 0 then .ok es else clutter.graph.leavingEdges u } }

theorem prunes_clutterBy {P : NodeIndex → List EdgeIndex → EdgeIndex → Prop} {es : List EdgeIndex}
    (h : Thins (P 0) [] [0, 2, 0, 1] es) : clutter.Prunes (clutterBy es) P where
  source      := rfl
  target      := rfl
  nodeId      := rfl
  endpoints   := rfl
  heuristic _ := rfl
  cost _ _ _  := rfl
  leavingEdges {u fs} hl := by
    by_cases hu : u = 0
    case neg => exact ⟨fs, (if_neg hu).trans hl, .refl⟩
    case pos =>
      cases hu
      cases hl
      exact ⟨es, rfl, h⟩

theorem clutter_harmless : ∃ report report',
    clutter.Returns report ∧ report.verdict = .found ⟨[0, 2, 1, 3], [1, 2, 3], 12⟩ ∧
    (clutterBy [0, 1]).Returns report' ∧ report'.verdict = report.verdict ∧
    report'.stats.expansions = report.stats.expansions ∧ (clutterBy [0, 0, 1]).Returns report := by
  have h : Report.verdict <$> clutter.search = .ok (.found ⟨[0, 2, 1, 3], [1, 2, 3], 12⟩) := by cbv
  obtain ⟨stats, asked, h⟩ := Returns.of_verdict h
  have hforeign : clutter.graph.Foreign 0 2 := rfl
  have hall : Thins (clutter.graph.Redundant 0) [] [0, 2, 0, 1] [0, 1] :=
    .keep (.drop (.inl hforeign) (.drop (.inr (by decide)) (.keep .nil)))
  have hone : Thins (fun _ e => clutter.graph.Foreign 0 e) [] ([0] ++ 2 :: [0, 1]) ([0] ++ [0, 1]) :=
    .erase hforeign
  have hc (ph : Phase Int) (s : State Int) (_ : clutter.Visits ph s) : s.store.Comparable :=
    Store.comparable _
  obtain ⟨report', hr, hv, he, _⟩ := (h.redundancy_harmless hc).left (prunes_clutterBy hall)
  have hr' := (h.redundancy_harmless hc).right (prunes_clutterBy hone)
  exact ⟨_, report', h, rfl, hr, hv, he, hr'⟩

end Problem
end BestFirst
