import BestFirst.Proofs.Search.Origins

namespace BestFirst

variable {α : Type} [Add α] [LE α]

namespace Store

-- Node `u` is present, open or closed, with a rank of at most `x`.
def Covers (s : Store α) (u : NodeIndex) (x : α) : Prop :=
  ∃ i r, s.IsPresent i r ∧ r.node = u ∧ r.rank ≤ x

variable [DecidableLE α] {s s' : Store α} {i j : Nat} {r t : Record α} {u : NodeIndex} {x : α}

theorem Consistent.isPresent_close (hs : s.Consistent) (h : s.close i = .ok s') :
    s'.IsPresent j t ↔ s.IsPresent j t := by
  have ⟨r, hr, _⟩ := close_eq_ok_iff.mp h
  simp only [IsPresent, isOpen_close h hr, isClosed_close h hr]
  constructor
  case mp =>
    rintro (⟨hj, -⟩ | ⟨rfl, rfl⟩ | ⟨hj, -⟩)
    · exact .inl hj
    · exact .inl hr
    · exact .inr hj
  case mpr =>
    by_cases hn : t.node = r.node
    case neg => exact Or.imp (⟨·, hn⟩) (.inr ⟨·, hn⟩)
    case pos =>
      rintro (hj | hj)
      · cases hj.index_unique hr hn
        exact .inr (.inl ⟨rfl, Option.some.inj (hj.record.symm.trans hr.record)⟩)
      · exact absurd hn (hs.node_ne hr hj)

theorem isPresent_add (hr : ∀ {p : Nat}, r.parent = some p → p < s.arena.size) :
    (s.add r hr).IsPresent j t ↔
      (j = s.arena.size ∧ t = r) ∨ (s.IsPresent j t ∧ t.node ≠ r.node) := by
  simp only [IsPresent, isOpen_add hr, isClosed_add hr, or_and_right, or_assoc]

theorem Consistent.covers_close (hs : s.Consistent) (h : s.close i = .ok s') :
    s'.Covers u x ↔ s.Covers u x := by
  simp only [Covers, hs.isPresent_close h]

@[simp]
theorem best_covers : s.best.2.Covers u x ↔ s.Covers u x := by
  simp only [Covers, IsPresent, best_isOpen, best_isClosed]

theorem Consistent.rank_le_of_covers (hs : s.Consistent) (hr : s.IsOpen i r)
    (h : s.Covers r.node x) : r.rank ≤ x := by
  obtain ⟨j, t, ht | ht, hn, hle⟩ := h
  · cases hr.index_unique ht hn.symm
    exact Option.some.inj (ht.record.symm.trans hr.record) ▸ hle
  · exact absurd hn (hs.node_ne hr ht)

theorem Covers.add [RankOrder α] (h : s.Covers u x)
    (hr : ∀ {p : Nat}, r.parent = some p → p < s.arena.size) (hc : (s.add r hr).Comparable)
    (hn : ¬s.Covers r.node r.rank) :
    (s.add r hr).Covers u x := by
  obtain ⟨j, t, ht, rfl, hx⟩ := h
  by_cases hu : t.node = r.node
  case neg => exact ⟨j, t, (isPresent_add hr).mpr (.inr ⟨ht, hu⟩), rfl, hx⟩
  case pos =>
    refine ⟨_, r, (isPresent_add hr).mpr (.inl ⟨rfl, rfl⟩), hu.symm, RankOrder.trans ?_ hx⟩
    have ⟨hc, hrr⟩ := hc.of_add
    refine (RankOrder.total hrr (hc ht.record)).resolve_right fun hle => hn ?_
    exact ⟨j, t, ht, hu, hle⟩

theorem covers_add_self (hr : ∀ {p : Nat}, r.parent = some p → p < s.arena.size)
    (hc : (s.add r hr).Comparable) : (s.add r hr).Covers r.node r.rank :=
  ⟨_, r, (isPresent_add hr).mpr (.inl ⟨rfl, rfl⟩), rfl, hc.of_add.right⟩

end Store

namespace State

variable [DecidableLE α] {s : State α} {u : NodeIndex} {x : α}

theorem holds_iff {i? : Option Nat} :
    covers.holds s x i? ↔ ∃ i r, i? = some i ∧ s.store.record? i = some r ∧ r.rank ≤ x := by
  simp only [covers.holds, Option.any_eq_true, Option.bind_eq_some_iff, decide_eq_true_eq]
  exact ⟨fun ⟨r, ⟨i, hi, hr⟩, hx⟩ => ⟨i, r, hi, hr, hx⟩,
    fun ⟨i, r, hi, hr, hx⟩ => ⟨r, ⟨i, hi, hr⟩, hx⟩⟩

theorem covers_iff (hs : s.store.Consistent) : s.covers u x ↔ s.store.Covers u x := by
  simp only [covers, Bool.or_eq_true, holds_iff]
  constructor
  case mp =>
    rintro (⟨i, r, hi, hr, hx⟩ | ⟨i, r, hi, hr, hx⟩)
    · obtain ⟨r', hr', rfl⟩ := hs.opened hi
      cases Option.some.inj (hr.symm.trans hr'.record)
      exact ⟨i, r, .inl hr', rfl, hx⟩
    · obtain ⟨r', hr', rfl⟩ := hs.closed hi
      cases Option.some.inj (hr.symm.trans hr'.record)
      exact ⟨i, r, .inr hr', rfl, hx⟩
  case mpr =>
    rintro ⟨i, r, hr | hr, rfl, hx⟩
    · exact .inl ⟨i, r, hr.opened, hr.record, hx⟩
    · exact .inr ⟨i, r, hr.closed, hr.record, hx⟩

end State

namespace Problem

-- Edge `e` does not touch the node of record `i`, which is `r`, or what lies at its other end is
-- present with a rank that is no higher than the one that is proposed along it.
def Tried (p : Problem α) (s : Store α) (i : Nat) (r : Record α) (e : EdgeIndex) : Prop :=
  p.graph.opposite? e r.node = .ok none ∨ ∃ t, p.Proposes i r e t ∧ s.Covers t.node t.rank

def Phase.Pending : Phase α → Nat → EdgeIndex → Prop
  | .choosing _, _, _            => False
  | .relaxing _ j _ _ rest, i, e => i = j ∧ e ∈ rest

structure Relaxed [Zero α] (p : Problem α) (ph : Phase α) (s : Store α) : Prop where
  root          : ∃ x, p.costs.heuristic p.graph p.source p.target = .ok x ∧
    s.Covers p.source (p.root x).rank
  edges {i r}   : s.IsClosed i r → ∃ es, p.graph.leavingEdges r.node = .ok es ∧
    ∀ e ∈ es, ph.Pending i e ∨ p.Tried s i r e
  targets {i r} : s.IsClosed i r → r.node ≠ p.target

variable {p : Problem α}

theorem Tried.mono {s s' : Store α} {i : Nat} {r : Record α} {e : EdgeIndex} (h : p.Tried s i r e)
    (hs : ∀ {u x}, s.Covers u x → s'.Covers u x) : p.Tried s' i r e :=
  h.imp id fun ⟨t, ht, hc⟩ => ⟨t, ht, hs hc⟩

theorem Relaxed.relax [Zero α] {s s' : Store α} {i : Nat} {r : Record α} {e : EdgeIndex}
    {xs : List (Nat × Record α)} {done rest : List EdgeIndex}
    (h : p.Relaxed (.relaxing xs i r done (e :: rest)) s) (hr : s.record? i = some r)
    (hs : ∀ {u x}, s.Covers u x → s'.Covers u x)
    (hcl : ∀ {j t}, s'.IsClosed j t → s.IsClosed j t) (he : p.Tried s' i r e) :
    p.Relaxed (.relaxing xs i r (done ++ [e]) rest) s' where
  root       := h.root.imp fun _ ⟨hx, hc⟩ => ⟨hx, hs hc⟩
  targets ht := h.targets (hcl ht)
  edges {j t} ht := by
    have ⟨es, hl, h⟩ := h.edges (hcl ht)
    refine ⟨es, hl, fun e' he' => ?_⟩
    obtain ⟨rfl, he'⟩ | ht' := h e' he'
    case inr => exact .inr (ht'.mono hs)
    case inl =>
      cases Option.some.inj ((hcl ht).record.symm.trans hr)
      obtain rfl | he' := List.mem_cons.mp he'
      · exact .inr he
      · exact .inl ⟨rfl, he'⟩

variable [DecidableLE α] {ph : Phase α} {s s' : State α} {i : Nat} {r : Record α} {e : EdgeIndex}

theorem Relaxes.comparable (h : p.Relaxes i r s e s') (hc : s'.store.Comparable) :
    s.store.Comparable :=
  fun hr => hc (h.record? hr)

theorem Relaxes.covers [RankOrder α] {u : NodeIndex} {x : α} (h : p.Relaxes i r s e s')
    (hs : s.store.Consistent) (hc : s'.store.Comparable) (hx : s.store.Covers u x) :
    s'.store.Covers u x := by
  cases h
  case foreign            => exact hx
  case covered            => exact hx
  case adopted t ht hp hv => exact hx.add ht hc (by simpa [← State.covers_iff hs] using hv)

theorem Relaxes.tried (h : p.Relaxes i r s e s') (hs : s.store.Consistent)
    (hc : s'.store.Comparable) : p.Tried s'.store i r e := by
  cases h
  case foreign ho         => exact .inl ho
  case covered t ht hv    => exact .inr ⟨t, ht, (State.covers_iff hs).mp hv⟩
  case adopted t hp ht hv => exact .inr ⟨t, ht, Store.covers_add_self hp hc⟩

variable [Zero α]

theorem not_isClosed_of_start (h : p.start = .ok s) : ¬s.store.IsClosed i r := by
  obtain ⟨x, hr, -, rfl⟩ := start_eq_ok h
  exact fun h => Store.not_isClosed_empty ((Store.isClosed_add hr).mp h).left

variable [RankOrder α]

theorem Visits.consistent (h : p.Visits ph s) : s.store.Consistent :=
  h.store_induction Store.consistent_empty (fun hr hs => hs.add hr) .best .close

theorem Visits.tried {xs : List (Nat × Record α)} {done rest : List EdgeIndex}
    (h : p.Visits (.relaxing xs i r done rest) s) (hc : s.store.Comparable) (he : e ∈ done) :
    p.Tried s.store i r e := by
  refine h.done_induction (Q := fun s e => s.store.Comparable → p.Tried s.store i r e) ?new ?old he hc
  case new => exact fun hv hx hc => hx.tried hv.consistent hc
  case old => exact fun hv hx ht hc => (ht (hx.comparable hc)).mono (hx.covers hv.consistent hc)

theorem Relaxes.relaxed {xs : List (Nat × Record α)} {done rest : List EdgeIndex}
    (h : p.Relaxes i r s e s') (hs : s.store.Consistent) (hr : s.store.record? i = some r)
    (hc : s'.store.Comparable) (hx : p.Relaxed (.relaxing xs i r done (e :: rest)) s.store) :
    p.Relaxed (.relaxing xs i r (done ++ [e]) rest) s'.store := by
  refine hx.relax hr (h.covers hs hc) (fun ht => ?closed) (h.tried hs hc)
  cases h
  case foreign        => exact ht
  case covered        => exact ht
  case adopted hp _ _ => exact ((Store.isClosed_add hp).mp ht).left

theorem Visits.relaxed (h : p.Visits ph s) (hc : s.store.Comparable) : p.Relaxed ph s.store := by
  induction h
  case start h =>
    have hn {i r} := not_isClosed_of_start (i := i) (r := r) h
    obtain ⟨x, hr, hx, rfl⟩ := start_eq_ok h
    exact ⟨⟨x, hx, Store.covers_add_self hr hc⟩, fun h => absurd h hn, fun h => absurd h hn⟩
  case close s _ i r _ _ hv hb hn hc' hl ih =>
    have hs := hv.consistent.best
    have hr := Store.isOpen_best hb
    have ih := ih fun h => hc ((Store.close_record? hc' _).trans h)
    have hcov {u x} (h : s.store.Covers u x) := (hs.covers_close hc').mpr (Store.best_covers.mpr h)
    constructor
    case root => exact ih.root.imp fun _ ⟨hx, h⟩ => ⟨hx, hcov h⟩
    case edges =>
      intro j t ht
      obtain ⟨rfl, rfl⟩ | ⟨ht, -⟩ := (Store.isClosed_close hc' hr).mp ht
      · exact ⟨_, hl, fun e he => .inl ⟨rfl, he⟩⟩
      · have ⟨es, hl, h⟩ := ih.edges (Store.best_isClosed.mp ht)
        exact ⟨es, hl, fun e he => .inr (((h e he).resolve_left id).mono hcov)⟩
    case targets =>
      intro j t ht
      obtain ⟨rfl, rfl⟩ | ⟨ht, -⟩ := (Store.isClosed_close hc' hr).mp ht
      · exact hn
      · exact ih.targets (Store.best_isClosed.mp ht)
  case relax hv hr ih => exact hr.relaxed hv.consistent hv.relaxing.left hc (ih (hr.comparable hc))
  case finish hv ih =>
    have ih := ih hc
    refine ⟨ih.root, fun ht => ?_, ih.targets⟩
    have ⟨es, hl, h⟩ := ih.edges ht
    exact ⟨es, hl, fun e he => .inr ((h e he).resolve_left (by simp [Phase.Pending]))⟩

theorem Visits.covers_record (h : p.Visits ph s) (hc : s.store.Comparable)
    (hr : s.store.record? i = some r) : s.store.Covers r.node r.rank := by
  induction h generalizing i r
  case start h =>
    obtain ⟨x, hx, -, rfl⟩ := start_eq_ok h
    rw [Store.record?_add, Store.record?_empty] at hr
    split at hr
    case isTrue  => exact Option.some.inj hr ▸ Store.covers_add_self hx hc
    case isFalse => contradiction
  case close hv _ _ hc' _ ih =>
    rw [Store.close_record? hc'] at hr
    rw [hv.consistent.best.covers_close hc', Store.best_covers]
    exact ih (fun h => hc ((Store.close_record? hc' _).trans h)) hr
  case relax hv hx ih =>
    have hm {u x} (h : Store.Covers _ u x) := hx.covers hv.consistent hc h
    have ih {j t} := ih (i := j) (r := t) (hx.comparable hc)
    cases hx
    case foreign => exact ih hr
    case covered => exact ih hr
    case adopted t ht _ _ =>
      rw [State.adopt, Store.record?_add] at hr
      split at hr
      case isTrue  => exact Option.some.inj hr ▸ Store.covers_add_self ht hc
      case isFalse => exact hm (ih hr)
  case finish ih => exact ih hc hr

theorem Visits.not_rank_le (h : p.Visits ph s) (hc : s.store.Comparable) {t : Record α}
    (ht : s.covers t.node t.rank = false) (hr : s.store.record? i = some r)
    (hn : r.node = t.node) : ¬r.rank ≤ t.rank := by
  intro hle
  have ⟨j, x, hx, hxn, hxr⟩ := h.covers_record hc hr
  have hcov : s.store.Covers t.node t.rank := ⟨j, x, hx, hxn.trans hn, RankOrder.trans hxr hle⟩
  exact Bool.eq_false_iff.mp ht ((State.covers_iff h.consistent).mpr hcov)

end Problem
end BestFirst
