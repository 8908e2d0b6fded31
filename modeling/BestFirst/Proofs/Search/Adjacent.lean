import BestFirst.Proofs.Search.Progress
import BestFirst.Proofs.Search.Soundness

namespace BestFirst.Problem

variable {α : Type}

section Leads

variable [Add α] [LE α] [DecidableLE α]

structure Leads (s : Store α) (i : Nat) (r : Record α) : Prop where
  isOpen : s.IsOpen i r
  least  : ∀ {j t}, s.IsOpen j t → r.rank ≤ t.rank ∧ (t.rank ≤ r.rank → i ≤ j)

variable {p : Problem α} {s s' : State α} {i j : Nat} {r t x : Record α} {e : EdgeIndex}
  {es : List EdgeIndex}

theorem Leads.relax (h : Leads s.store j x) (hr : p.Relaxes i r s e s')
    (hx : ∀ {t}, p.Proposes i r e t → t.node ≠ x.node ∧ x.rank ≤ t.rank) :
    Leads s'.store j x := by
  cases hr
  case foreign => exact h
  case covered => exact h
  case adopted t ht hp _ =>
    have ⟨hn, hle⟩ := hx hp
    refine ⟨(Store.isOpen_add ht).mpr (.inr ⟨h.isOpen, hn.symm⟩), fun hj => ?_⟩
    obtain ⟨rfl, rfl⟩ | ⟨hj, -⟩ := (Store.isOpen_add ht).mp hj
    · exact ⟨hle, fun _ => Nat.le_of_lt (Store.lt_size_of_record? h.isOpen.record)⟩
    · exact h.least hj

theorem Leads.relax_all (h : Leads s.store j x) (hi : s.store.record? i = some r)
    (hx : ∀ e ∈ es, ∃ t, p.Proposes i r e t ∧ t.node ≠ x.node ∧ x.rank ≤ t.rank) :
    ∃ s', es.foldlM (p.relax i r) s = .ok s' ∧ Leads s'.store j x ∧
      s'.store.record? i = some r := by
  induction es generalizing s
  case nil => exact ⟨s, rfl, h, hi⟩
  case cons e es ih =>
    have ⟨t, hp, hn, hle⟩ := hx e (by simp)
    have ⟨s₁, h₁⟩ := exists_relax hp (Store.lt_size_of_record? hi)
    have hr := relax_eq_ok_iff.mp h₁
    have h₂ := h.relax hr fun hp' => hp.unique hp' ▸ ⟨hn, hle⟩
    have ⟨s', h', hl, hi'⟩ := ih h₂ (hr.record? hi) fun e he => hx e (by simp [he])
    refine ⟨s', ?_, hl, hi'⟩
    rw [List.foldlM_cons, h₁]
    exact h'

variable [Zero α] {h : α} {store : Store α}

theorem Leads.root (hs : p.start = .ok s)
    (hh : p.costs.heuristic p.graph p.source p.target = .ok h) (hc : s.store.Comparable) :
    Leads s.store 0 (p.root h) := by
  obtain ⟨x, hr, hx, rfl⟩ := start_eq_ok hs
  cases Except.ok.inj (hh.symm.trans hx)
  refine ⟨(Store.isOpen_add hr).mpr (.inl ⟨rfl, rfl⟩), fun hj => ?_⟩
  obtain ⟨rfl, rfl⟩ | ⟨hj, -⟩ := (Store.isOpen_add hr).mp hj
  · exact ⟨hc hj.record, fun _ => Nat.le_refl _⟩
  · exact absurd hj.record (by simp [Store.record?_empty])

theorem start_close (hs : p.start = .ok s) (hc : s.store.best.2.close 0 = .ok store) :
    store.arena.size = 1 ∧ (∀ {j t}, ¬store.IsOpen j t) ∧
      ∀ {j t}, store.IsClosed j t → t.node = p.source := by
  have hcl {j t} := not_isClosed_of_start (i := j) (r := t) hs
  obtain ⟨x, hr, -, rfl⟩ := start_eq_ok hs
  have h₀ : (Store.add {} (p.root x) hr).best.2.IsOpen 0 (p.root x) :=
    Store.best_isOpen.mpr ((Store.isOpen_add hr).mpr (.inl ⟨rfl, rfl⟩))
  refine ⟨?size, fun hj => ?isOpen, fun hj => ?isClosed⟩
  case size =>
    obtain ⟨_, -, rfl⟩ := Store.close_eq_ok_iff.mp hc
    rfl
  case isOpen =>
    have ⟨hj, hn⟩ := (Store.isOpen_close hc h₀).mp hj
    obtain ⟨-, rfl⟩ | ⟨hj, -⟩ := (Store.isOpen_add hr).mp (Store.best_isOpen.mp hj)
    · exact hn rfl
    · exact absurd hj.record (by simp [Store.record?_empty])
  case isClosed =>
    obtain ⟨-, rfl⟩ | ⟨hj, -⟩ := (Store.isClosed_close hc h₀).mp hj
    · rfl
    · exact absurd (Store.best_isClosed.mp hj) hcl

variable [RankOrder α] {xs : List (Nat × Record α)}

theorem Visits.best_of_leads (hv : p.Visits (.choosing xs) s)
    (hc : s.store.Comparable) (hl : Leads s.store i r) : s.store.best.1 = some (i, r) :=
  hv.consistent.best_eq_some hc hl.isOpen hl.least

end Leads

variable [Zero α] [Add α] [LinearOrder α] {p : Problem α} {s : State α} {h : α} {t : Record α}
  {e : EdgeIndex} {es : List EdgeIndex} {id id' : String}

theorem Visits.relax_first (hv : p.Visits (.relaxing [] 0 (p.root h) [] (e :: es)) s)
    (hsize : s.store.arena.size = 1) (hopen : ∀ {j t}, ¬s.store.IsOpen j t)
    (hclosed : ∀ {j t}, s.store.IsClosed j t → t.node = p.source)
    (hp : p.Proposes 0 (p.root h) e t) (hn : t.node ≠ p.source) :
    ∃ s', p.relax 0 (p.root h) s e = .ok s' ∧ Leads s'.store 1 t := by
  have hcov : s.covers t.node t.rank = false := by
    refine Bool.eq_false_iff.mpr fun hcov => ?_
    obtain ⟨j, u, hu | hu, hun, -⟩ := (State.covers_iff hv.consistent).mp hcov
    · exact hopen hu
    · exact hn (hun.symm.trans (hclosed hu))
  have ht {q : Nat} (hq : t.parent = some q) : q < s.store.arena.size := by
    cases Option.some.inj (hp.parent.symm.trans hq)
    exact hsize ▸ Nat.one_pos
  refine ⟨_, relax_eq_ok_iff.mpr (.adopted ht hp hcov), ?_⟩
  refine ⟨(Store.isOpen_add ht).mpr (.inl ⟨hsize.symm, rfl⟩), fun hj => ?_⟩
  obtain ⟨rfl, rfl⟩ | ⟨hj, -⟩ := (Store.isOpen_add ht).mp hj
  · exact ⟨le_rfl, fun _ => Nat.le_of_eq hsize.symm⟩
  · exact absurd hj hopen

theorem exists_turn_next (hs : p.start = .ok s)
    (hh : p.costs.heuristic p.graph p.source p.target = .ok h)
    (hid : p.graph.nodeId p.source = .ok id) (hl : p.graph.leavingEdges p.source = .ok (e :: es))
    (hn : p.source ≠ p.target) (hp : p.Proposes 0 (p.root h) e t) (ht : t.node = p.target)
    (hx : ∀ e ∈ es, ∃ t', p.Proposes 0 (p.root h) e t' ∧ t'.node ≠ p.target ∧ t.rank ≤ t'.rank) :
    ∃ s', p.turn s = .ok (.next s') ∧ s'.store.record? 0 = some (p.root h) ∧
      s'.store.best.1 = some (1, t) := by
  -- The source is chosen and closed.
  have hv : p.Visits (.choosing []) s := .start hs
  have hb : s.store.best.1 = some (0, p.root h) :=
    hv.best_of_leads s.store.comparable (.root hs hh s.store.comparable)
  obtain ⟨store, hc⟩ : ∃ store, s.store.best.2.close 0 = .ok store :=
    ⟨_, Store.close_eq_ok_iff.mpr ⟨_, Store.isOpen_best hb, rfl⟩⟩
  obtain ⟨hsize, hopen, hclosed⟩ := start_close hs hc
  -- The target is opened by the first edge, and what the others open stays behind it.
  have hv₁ := hv.close hb hn hc hl
  obtain ⟨s₂, h₂, hl₂⟩ := hv₁.relax_first hsize hopen hclosed hp (ht ▸ hn.symm)
  have hr₂ := (relax_eq_ok_iff.mp h₂).record? hv₁.relaxing.left
  obtain ⟨s₃, h₃, hl₃, hr₃⟩ := hl₂.relax_all hr₂ fun e he => ht ▸ hx e he
  have hes := (List.foldlM_cons ..).trans ((congrArg (· >>= _) h₂).trans h₃)
  refine ⟨s₃, turn_eq_next_iff.mpr ⟨0, p.root h, hb, hn, ?_⟩, hr₃, ?_⟩
  · simp only [expand, hc, State.attempt_ok, Except.ok_bind]
    rw [show (p.root h).node = p.source from rfl, hid, hl]
    exact hes
  · exact (hv₁.relax_all hes).finish.best_of_leads s₃.store.comparable hl₃

theorem search_adjacent (he : e ≠ noEdge)
    (hh : p.costs.heuristic p.graph p.source p.target = .ok h)
    (hid : p.graph.nodeId p.source = .ok id) (hid' : p.graph.nodeId p.target = .ok id')
    (hl : p.graph.leavingEdges p.source = .ok (e :: es)) (hn : p.source ≠ p.target)
    (hp : p.Proposes 0 (p.root h) e t) (ht : t.node = p.target)
    (hx : ∀ e ∈ es, ∃ t', p.Proposes 0 (p.root h) e t' ∧ t'.node ≠ p.target ∧ t.rank ≤ t'.rank) :
    Report.verdict <$> p.search = .ok (.found ⟨[p.source, p.target], [e], t.g⟩) := by
  obtain ⟨s, hs⟩ : ∃ s, p.start = .ok s := by
    simp only [start, heuristic, hh, hid, hid', State.attempt_ok, Except.ok_bind, pure, Except.pure]
    exact ⟨_, rfl⟩
  obtain ⟨s', hs', hr, hb⟩ := exists_turn_next hs hh hid hl hn hp ht hx
  have hc : s'.store.arena.chain 1 = [t, p.root h] := by
    rw [Arena.chain_of_parent_eq_some (Store.isOpen_of_best hb).record hp.parent,
      Arena.chain_of_parent_eq_none hr rfl]
  have hpath : Path.ofChain [t, p.root h] t.g = ⟨[p.source, p.target], [e], t.g⟩ := by
    simp [Path.ofChain, root, hp.via, asEdge, he, ht]
  have hrun : p.run turnLimit s =
      some (.ok ⟨.found (.ofChain (s'.store.arena.chain 1) t.g), s'.stats, s'.asked⟩) := by
    rw [show turnLimit = 2147483646 + 1 + 1 from rfl, run, hs']
    simp only [run, turn_eq_found hb ht]
  rw [search, hs, Except.ok_bind, hrun, hc, hpath]
  rfl

end BestFirst.Problem
