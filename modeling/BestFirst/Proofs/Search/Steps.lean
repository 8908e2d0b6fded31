import BestFirst.Proofs.Hops
import BestFirst.Proofs.Store.Consistency
import BestFirst.Search

namespace BestFirst

variable {α : Type}

namespace State

@[simp]
theorem attempt_eq_ok_iff {β : Type} {s : State α} {x : Except Failure β} {b : β} :
    s.attempt x = .ok b ↔ x = .ok b :=
  Except.mapError_eq_ok_iff

theorem attempt_ok {β : Type} {s : State α} {b : β} : s.attempt (.ok b) = .ok b := rfl

def examine (s : State α) (u : NodeIndex) (e : EdgeIndex) (v target : NodeIndex) : State α :=
  { s with
    stats.relaxations := s.stats.relaxations + 1
    asked             := (s.asked.push (.heuristic v target)).push (.cost u e v) }

variable [Add α] [LE α] [DecidableLE α]

def adopt (s : State α) (r : Record α) (hr : ∀ {p : Nat}, r.parent = some p → p < s.store.arena.size) :
    State α :=
  let store := s.store.add r hr
  { s with
    store
    stats.reopenings := s.stats.reopenings + if (s.store.closedAt? r.node).isSome then 1 else 0
    stats.maxOpen    := max s.stats.maxOpen store.opened.size }

end State

namespace Problem

def root [Zero α] (p : Problem α) (h : α) : Record α :=
  { node := p.source, via := none, parent := none, g := 0, h }

variable [Add α]

structure Proposes (p : Problem α) (i : Nat) (r : Record α) (e : EdgeIndex) (t : Record α) : Prop where
  opposite  : p.graph.opposite? e r.node = .ok (some t.node)
  heuristic : p.costs.heuristic p.graph t.node p.target = .ok t.h
  cost      : ∃ c, p.costs.cost p.graph r.node e t.node = .ok c ∧ t.g = r.g + c
  via       : t.via = asEdge e
  parent    : t.parent = some i

theorem Proposes.node_eq {p : Problem α} {i : Nat} {r t : Record α} {e : EdgeIndex} {v : NodeIndex}
    (h : p.Proposes i r e t) (ho : p.graph.opposite? e r.node = .ok (some v)) : t.node = v :=
  Option.some.inj (Except.ok.inj (h.opposite.symm.trans ho))

theorem Proposes.unique {p : Problem α} {i : Nat} {r t t' : Record α} {e : EdgeIndex}
    (h : p.Proposes i r e t) (h' : p.Proposes i r e t') : t = t' := by
  have ⟨ho, hh, ⟨c, hc, hg⟩, hv, hp⟩ := h
  have ⟨ho', hh', ⟨c', hc', hg'⟩, hv', hp'⟩ := h'
  have hn : t.node = t'.node := h.node_eq ho'
  have hx : t.h = t'.h := Except.ok.inj (hh.symm.trans (hn ▸ hh'))
  have hc : c = c' := Except.ok.inj (hc.symm.trans (hn ▸ hc'))
  cases t
  cases t'
  simp_all

variable [LE α] [DecidableLE α]

inductive Relaxes (p : Problem α) (i : Nat) (r : Record α) (s : State α) (e : EdgeIndex) :
    State α → Prop
  | foreign : p.graph.opposite? e r.node = .ok none → Relaxes p i r s e s
  | covered {t} : p.Proposes i r e t → s.covers t.node t.rank →
    Relaxes p i r s e (s.examine r.node e t.node p.target)
  | adopted {t} (ht) : p.Proposes i r e t → s.covers t.node t.rank = false →
    Relaxes p i r s e ((s.examine r.node e t.node p.target).adopt t ht)

theorem relax_eq_ok_iff {p : Problem α} {i : Nat} {r : Record α} {s s' : State α} {e : EdgeIndex} :
    p.relax i r s e = .ok s' ↔ p.Relaxes i r s e s' where
  mp h := by
    simp only [relax, Except.bind_eq_ok_iff, State.attempt_eq_ok_iff] at h
    obtain ⟨next?, ho, h⟩ := h
    cases next?
    case none =>
      cases h
      exact .foreign ho
    case some next =>
      simp only [heuristic, cost, Except.bind_eq_ok_iff, State.attempt_eq_ok_iff] at h
      obtain ⟨_, ⟨x, hx, ⟨⟩⟩, _, ⟨c, hc, ⟨⟩⟩, h⟩ := h
      let t : Record α := { node := next, via := asEdge e, parent := some i, g := r.g + c, h := x }
      have ht : p.Proposes i r e t := ⟨ho, hx, ⟨c, hc, rfl⟩, rfl, rfl⟩
      simp only [State.offer] at h
      split at h
      case isTrue hv =>
        cases h
        exact .covered ht hv
      case isFalse hv =>
        simp only [Except.bind_eq_ok_iff, Store.openFrom] at h
        obtain ⟨store, h, ⟨⟩⟩ := h
        split at h
        case isFalse => contradiction
        case isTrue hi =>
          have hp {q : Nat} (hq : t.parent = some q) : q < s.store.arena.size :=
            Option.some.inj hq ▸ hi.right
          cases h
          exact .adopted hp ht (Bool.eq_false_iff.mpr hv)
  mpr h := by
    cases h
    case foreign ho => simp only [relax, ho, State.attempt_ok, Except.ok_bind, pure, Except.pure]
    case covered t hp hv =>
      have ⟨node, via, parent, g, h⟩ := t
      obtain ⟨ho, hh, ⟨c, hc, rfl⟩, -, -⟩ := hp
      simp only [relax, heuristic, cost, ho, hh, hc, State.attempt_ok, Except.ok_bind, pure,
        Except.pure, State.offer]
      rw [if_pos (by exact hv)]
      rfl
    case adopted t ht hp hv =>
      have ⟨node, via, parent, g, h⟩ := t
      obtain ⟨ho, hh, ⟨c, hc, rfl⟩, rfl, rfl⟩ := hp
      have hi : 0 ≤ (i : Int) ∧ (i : Int).toNat < s.store.arena.size := ⟨Int.natCast_nonneg i, ht rfl⟩
      simp only [relax, heuristic, cost, ho, hh, hc, State.attempt_ok, Except.ok_bind, pure,
        Except.pure, State.offer]
      rw [if_neg (by exact Bool.eq_false_iff.mp hv), Store.openFrom, dif_pos (by exact hi)]
      rfl

-- How far a search has come. At first it has to choose the record to expand. When it has chosen one,
-- it goes along the edges that leave its node, one after the other.
inductive Phase (α : Type)
  | choosing (expanded : List (Nat × Record α))
  | relaxing (expanded : List (Nat × Record α)) (i : Nat) (r : Record α) (done rest : List EdgeIndex)

def Phase.expanded : Phase α → List (Nat × Record α)
  | .choosing xs         => xs
  | .relaxing xs i r _ _ => xs ++ [(i, r)]

inductive Visits [Zero α] (p : Problem α) : Phase α → State α → Prop
  | start {s} : p.start = .ok s → Visits p (.choosing []) s
  | close {s xs i r store es} :
    Visits p (.choosing xs) s →
    s.store.best.1 = some (i, r) →
    r.node ≠ p.target →
    s.store.best.2.close i = .ok store →
    p.graph.leavingEdges r.node = .ok es →
    Visits p (.relaxing xs i r [] es)
      { s with store, stats.expansions := s.stats.expansions + 1 }
  | relax {s s' xs i r done e rest} :
    Visits p (.relaxing xs i r done (e :: rest)) s →
    p.Relaxes i r s e s' →
    Visits p (.relaxing xs i r (done ++ [e]) rest) s'
  | finish {s xs i r done} :
    Visits p (.relaxing xs i r done []) s →
    Visits p (.choosing (xs ++ [(i, r)])) s

-- The states at which a turn begins, with the records that were expanded until then.
inductive Reaches [Zero α] (p : Problem α) : List (Nat × Record α) → State α → Prop
  | start {s} : p.start = .ok s → Reaches p [] s
  | turn {s s' xs i r} : Reaches p xs s → s.store.best.1 = some (i, r) → p.turn s = .ok (.next s') →
    Reaches p (xs ++ [(i, r)]) s'

-- The state at which turn `n` begins, counted from zero, with the records that were expanded until then,
-- if the search gets so far.
def head? [Zero α] (p : Problem α) : Nat → Option (List (Nat × Record α) × State α)
  | 0     =>
    match p.start with
    | .ok s    => some ([], s)
    | .error _ => none
  | n + 1 => do
    let (xs, s) ← p.head? n
    let x ← s.store.best.1
    match p.turn s with
    | .ok (.next s') => some (xs ++ [x], s')
    | _              => none

def Ends [Zero α] (p : Problem α) (xs : List (Nat × Record α)) (report : Report α) : Prop :=
  ∃ s, p.Reaches xs s ∧ p.turn s = .ok (.ended report)

-- The search comes to an end with this report, be it after many turns.
def Returns [Zero α] (p : Problem α) (report : Report α) : Prop :=
  ∃ s n, p.start = .ok s ∧ p.run n s = some (.ok report)

def Finds [Zero α] (p : Problem α) (path : Path α) : Prop :=
  ∃ stats asked, p.Returns ⟨.found path, stats, asked⟩

variable {p : Problem α} {s s' : State α} {report : Report α}

theorem turn_eq_next_iff : p.turn s = .ok (.next s') ↔
    ∃ i r, s.store.best.1 = some (i, r) ∧ r.node ≠ p.target ∧
      p.expand { s with store := s.store.best.2 } i r = .ok s' where
  mp h := by
    simp only [turn] at h
    split at h
    case h_1 => cases h
    case h_2 hb =>
      split at h
      case isTrue => cases h
      case isFalse hn =>
        obtain ⟨_, h, ⟨⟩⟩ := Except.map_eq_ok_iff.mp h
        exact ⟨_, _, congrArg Prod.fst hb, hn, by rw [hb]; exact h⟩
  mpr h := by
    have ⟨i, r, hb, hn, h⟩ := h
    have hb : s.store.best = (some (i, r), s.store.best.2) := Prod.ext hb rfl
    rw [turn, hb]
    simp only [if_neg hn, h]
    rfl

theorem turn_eq_found {i : Nat} {r : Record α} (hb : s.store.best.1 = some (i, r))
    (hn : r.node = p.target) :
    p.turn s = .ok (.ended ⟨.found (.ofChain (s.store.arena.chain i) r.g), s.stats, s.asked⟩) := by
  have hb : s.store.best = (some (i, r), s.store.best.2) := Prod.ext hb rfl
  rw [turn, hb]
  exact if_pos hn

theorem turn_eq_exhausted (hb : s.store.best.1 = none) :
    p.turn s = .ok (.ended ⟨.exhausted, s.stats, s.asked⟩) := by
  have hb : s.store.best = (none, s.store.best.2) := Prod.ext hb rfl
  rw [turn, hb]
  rfl

theorem turn_eq_ended (h : p.turn s = .ok (.ended report)) :
    report.stats = s.stats ∧ report.asked = s.asked ∧
      match report.verdict with
      | .found path => ∃ i r, s.store.best.1 = some (i, r) ∧ r.node = p.target ∧
        path = .ofChain (s.store.arena.chain i) r.g
      | .exhausted  => s.store.best.1 = none := by
  simp only [turn] at h
  split at h
  case h_1 hb =>
    cases h
    exact ⟨rfl, rfl, congrArg Prod.fst hb⟩
  case h_2 hb =>
    split at h
    case isTrue hn =>
      cases h
      have ha := congrArg (·.2.arena) hb
      exact ⟨rfl, rfl, _, _, congrArg Prod.fst hb, hn, by rw [← ha]; rfl⟩
    case isFalse =>
      simp only [Except.map_eq_ok_iff] at h
      obtain ⟨_, -, ⟨⟩⟩ := h

section Running

variable [Zero α] {xs : List (Nat × Record α)} {i : Nat} {r : Record α}

theorem start_eq_ok (h : p.start = .ok s) :
    ∃ x hr, p.costs.heuristic p.graph p.source p.target = .ok x ∧
      s = { store := Store.add {} (p.root x) hr, stats := { maxOpen := 1 },
            asked := #[.heuristic p.source p.target] } := by
  simp only [start, heuristic, Except.bind_eq_ok_iff, State.attempt_eq_ok_iff] at h
  obtain ⟨_, ⟨x, hx, ⟨⟩⟩, -, -, -, -, ⟨⟩⟩ := h
  exact ⟨x, by simp [root], hx, rfl⟩

theorem Visits.relax_all {done es : List EdgeIndex} (hv : p.Visits (.relaxing xs i r done es) s)
    (h : es.foldlM (p.relax i r) s = .ok s') : p.Visits (.relaxing xs i r (done ++ es) []) s' := by
  induction es generalizing s done
  case nil =>
    cases h
    simpa using hv
  case cons e es ih =>
    simp only [List.foldlM_cons, Except.bind_eq_ok_iff] at h
    have ⟨s₁, h₁, h⟩ := h
    simpa using ih (hv.relax (relax_eq_ok_iff.mp h₁)) h

theorem Visits.turn (hv : p.Visits (.choosing xs) s) (h : p.turn s = .ok (.next s')) :
    ∃ i r, s.store.best.1 = some (i, r) ∧ p.Visits (.choosing (xs ++ [(i, r)])) s' := by
  have ⟨i, r, hb, hn, h⟩ := turn_eq_next_iff.mp h
  simp only [expand, Except.bind_eq_ok_iff, State.attempt_eq_ok_iff] at h
  have ⟨store, hc, _, _, es, he, h⟩ := h
  exact ⟨i, r, hb, (hv.close hb hn hc he).relax_all h |>.finish⟩

theorem Visits.store_induction {P : Store α → Prop} {ph : Phase α} (h : p.Visits ph s)
    (empty : P {}) (add : ∀ {s r} hr, P s → P (s.add r hr)) (best : ∀ {s}, P s → P s.best.2)
    (close : ∀ {s s' i}, P s → s.close i = .ok s' → P s') : P s.store := by
  induction h
  case start h =>
    obtain ⟨x, hr, -, rfl⟩ := start_eq_ok h
    exact add hr empty
  case close hc _ ih => exact close (best ih) hc
  case relax hr ih =>
    cases hr
    case foreign        => exact ih
    case covered        => exact ih
    case adopted ht _ _ => exact add ht ih
  case finish ih => exact ih

theorem Reaches.visits (h : p.Reaches xs s) : p.Visits (.choosing xs) s := by
  induction h
  case start h => exact .start h
  case turn hb h ih =>
    have ⟨i, r, hb', hv⟩ := ih.turn h
    cases hb.symm.trans hb'
    exact hv

theorem Reaches.head? (h : p.Reaches xs s) : p.head? xs.length = some (xs, s) := by
  induction h
  case start h => simp [Problem.head?, h]
  case turn hb h ih => simp [Problem.head?, ih, hb, h]

theorem Reaches.of_head? {n : Nat} (h : p.head? n = some (xs, s)) : p.Reaches xs s := by
  induction n generalizing xs s
  case zero =>
    simp only [Problem.head?] at h
    split at h
    case h_1 hs =>
      cases h
      exact .start hs
    case h_2 => contradiction
  case succ n ih =>
    simp only [Problem.head?, Option.bind_eq_bind, Option.bind_eq_some_iff] at h
    obtain ⟨⟨ys, s'⟩, hn, x, hb, h⟩ := h
    split at h
    case h_1 ht =>
      cases h
      exact (ih hn).turn hb ht
    case h_2 => contradiction

theorem Reaches.of_run {n : Nat} (hr : p.Reaches xs s) (h : p.run n s = some (.ok report)) :
    ∃ ys s', p.Reaches ys s' ∧ p.turn s' = .ok (.ended report) := by
  induction n generalizing s xs
  case zero => cases h
  case succ n ih =>
    simp only [run] at h
    split at h
    case h_1 => cases h
    case h_2 ht =>
      cases h
      exact ⟨xs, s, hr, ht⟩
    case h_3 ht =>
      have ⟨i, r, hb, _⟩ := turn_eq_next_iff.mp ht
      exact ih (hr.turn hb ht) h

theorem Returns.reaches (h : p.Returns report) :
    ∃ xs s, p.Reaches xs s ∧ p.turn s = .ok (.ended report) :=
  have ⟨_, _, hs, h⟩ := h
  Reaches.of_run (.start hs) h

theorem Returns.of_search (h : p.search = .ok report) : p.Returns report := by
  simp only [search, Except.bind_eq_ok_iff] at h
  have ⟨s, hs, h⟩ := h
  split at h
  case h_1 hr => exact ⟨s, turnLimit, hs, h ▸ hr⟩
  case h_2    => cases h

theorem Returns.of_verdict {verdict : Verdict α} (h : Report.verdict <$> p.search = .ok verdict) :
    ∃ stats asked, p.Returns ⟨verdict, stats, asked⟩ := by
  obtain ⟨⟨_, stats, asked⟩, hr, rfl⟩ := Except.map_eq_ok_iff.mp h
  exact ⟨stats, asked, .of_search hr⟩

theorem Finds.of_search {path : Path α} (h : Report.verdict <$> p.search = .ok (.found path)) :
    p.Finds path :=
  Returns.of_verdict h

theorem Finds.reaches {path : Path α} (h : p.Finds path) :
    ∃ xs s i r, p.Reaches xs s ∧ s.store.best.1 = some (i, r) ∧ r.node = p.target ∧
      path = .ofChain (s.store.arena.chain i) r.g := by
  have ⟨stats, asked, h⟩ := h
  have ⟨xs, s, hs, ht⟩ := h.reaches
  have ⟨_, _, i, r, h⟩ := turn_eq_ended ht
  exact ⟨xs, s, i, r, hs, h⟩

end Running
end Problem
end BestFirst
