import BestFirst.Proofs.Search.Relaxation

namespace BestFirst

variable {α : Type}

namespace Problem

variable [Add α]

-- With `a` spent, one can start from `u` and be at `v` with `b` spent.
inductive Walk (p : Problem α) (u : NodeIndex) (a : α) : NodeIndex → α → Prop
  | refl : Walk p u a u a
  | hop {v e w b c} : Walk p u a v b → p.graph.Hop v e w → p.costs.cost p.graph v e w = .ok c →
    Walk p u a w (b + c)

-- Amounts that satisfy `N` are all that is ever spent, and for them it makes no difference whether
-- they are compared before a cost or an estimate is added or after that.
structure Orderly [Zero α] [LE α] (p : Problem α) (N : α → Prop) : Prop where
  zero   : N 0
  add    {u e v a c} : N a → p.graph.Hop u e v → p.costs.cost p.graph u e v = .ok c → N (a + c)
  mono   {u e v a b c} : N a → N b → p.graph.Hop u e v → p.costs.cost p.graph u e v = .ok c →
    a ≤ b → a + c ≤ b + c
  cancel {u a b h} : N a → N b → p.costs.heuristic p.graph u p.target = .ok h →
    a + h ≤ b + h → a ≤ b

theorem Walk.orderly [Zero α] [LE α] {p : Problem α} {N : α → Prop} {u v : NodeIndex} {a b : α}
    (hw : p.Walk u a v b) (ho : p.Orderly N) (ha : N a) : N b := by
  induction hw
  case refl             => exact ha
  case hop hop hc hb => exact ho.add hb hop hc

variable [Zero α] [LE α] [DecidableLE α] {p : Problem α} {ph : Phase α} {s : State α} {i : Nat}
  {r : Record α} {N : α → Prop} {xs : List (Nat × Record α)} {v : NodeIndex} {c : α}

-- What holds of the record of the source, and of every record that one of which it holds proposes,
-- holds of all records.
theorem Visits.record_induction {P : Nat → Record α → Prop} (h : p.Visits ph s)
    (root : ∀ {i x}, s.store.record? i = some (p.root x) →
      p.costs.heuristic p.graph p.source p.target = .ok x → P i (p.root x))
    (proposed : ∀ {i r e j t}, s.store.record? i = some r → P i r → s.store.record? j = some t →
      p.graph.Hop r.node e t.node → p.Proposes i r e t → P j t)
    (hr : s.store.record? i = some r) : P i r := by
  induction i using Nat.strongRecOn generalizing r
  case ind i ih =>
    cases h.genuine hr
    case root hx => exact root hr hx
    case proposed j t es e ht hl he hp =>
      have hlt : j < i := s.store.arena.parent_lt hr hp.parent
      exact proposed ht (ih j hlt ht) hr ⟨⟨es, hl, he⟩, hp.opposite⟩ hp

theorem Visits.walk (h : p.Visits ph s) (hr : s.store.record? i = some r) :
    p.Walk p.source 0 r.node r.g := by
  refine h.record_induction (P := fun _ r => p.Walk p.source 0 r.node r.g) (fun _ _ => .refl) ?_ hr
  intro i r e j t _ hw _ hop hp
  have ⟨c, hc, hg⟩ := hp.cost
  exact hg ▸ hw.hop hop hc

theorem Finds.walk {path : Path α} (h : p.Finds path) :
    p.Walk p.source 0 p.target path.cost := by
  obtain ⟨xs, s, i, r, hs, hb, hn, rfl⟩ := h.reaches
  exact hn ▸ hs.visits.walk (Store.isOpen_of_best hb).record

theorem Visits.covers_cost (h : p.Visits ph s) (ho : p.Orderly N) {x y : α} (hy : N y)
    (hx : p.costs.heuristic p.graph v p.target = .ok x) (hc : s.store.Covers v (y + x)) :
    ∃ i r, s.store.IsPresent i r ∧ r.node = v ∧ r.g ≤ y := by
  obtain ⟨i, r, hr, rfl, hle⟩ := hc
  cases Except.ok.inj ((h.genuine hr.record).heuristic.symm.trans hx)
  exact ⟨i, r, hr, rfl, ho.cancel ((h.walk hr.record).orderly ho ho.zero) hy hx hle⟩

theorem Visits.frontier [RankOrder α] (h : p.Visits (.choosing xs) s) (ho : p.Orderly N)
    (hs : s.store.Comparable) (hw : p.Walk p.source 0 v c) :
    (∃ i r, s.store.IsClosed i r ∧ r.node = v ∧ r.g ≤ c) ∨
      ∃ i r b, s.store.IsOpen i r ∧ r.g ≤ b ∧ N b ∧ p.Walk r.node b v c := by
  have hx := h.relaxed hs
  induction hw
  case refl =>
    have ⟨x, hx, hc⟩ := hx.root
    obtain ⟨i, r, hr | hr, hn, hg⟩ := h.covers_cost ho ho.zero hx hc
    · exact .inr ⟨i, r, 0, hr, hg, ho.zero, hn ▸ .refl⟩
    · exact .inl ⟨i, r, hr, hn, hg⟩
  case hop v e w b c hw hop hc ih =>
    obtain ⟨i, r, hr, rfl, hg⟩ | ⟨i, r, a, hr, hg, ha, hw'⟩ := ih
    case inr => exact .inr ⟨i, r, a, hr, hg, ha, hw'.hop hop hc⟩
    case inl =>
      have hb : N b := hw.orderly ho ho.zero
      have ⟨es, hl, he⟩ := hop.leaves
      have ⟨es', hl', ht⟩ := hx.edges hr
      cases Except.ok.inj (hl.symm.trans hl')
      obtain hn | ⟨t, ht, hc'⟩ := (ht e he).resolve_left id
      case inl => exact absurd (hop.opposite.symm.trans hn) (by simp)
      case inr =>
        cases Option.some.inj (Except.ok.inj (hop.opposite.symm.trans ht.opposite))
        have ⟨c', hc'', hg'⟩ := ht.cost
        cases Except.ok.inj (hc.symm.trans hc'')
        have hrN : N r.g := (h.walk hr.record).orderly ho ho.zero
        have ⟨j, t', ht', hn, hle⟩ :=
          h.covers_cost ho (hg' ▸ ho.add hrN hop hc) ht.heuristic hc'
        have hle := RankOrder.trans (hg' ▸ hle) (ho.mono hrN hb hop hc hg)
        obtain ht' | ht' := ht'
        · exact .inr ⟨j, t', b + c, ht', hle, ho.add hb hop hc, hn ▸ .refl⟩
        · exact .inl ⟨j, t', ht', hn, hle⟩

-- The target is not closed, so that an open record is on every walk to it. The one that is chosen is
-- of no higher rank.
theorem Visits.open_on_walk [RankOrder α] (h : p.Visits (.choosing xs) s) (ho : p.Orderly N)
    (hs : s.store.Comparable) (hb : s.store.best.1 = some (i, r))
    (hw : p.Walk p.source 0 p.target c) :
    ∃ j t b, s.store.IsOpen j t ∧ r.rank ≤ t.rank ∧ t.g ≤ b ∧ N b ∧ p.Walk t.node b p.target c := by
  obtain ⟨j, t, ht, hn, -⟩ | ⟨j, t, b, ht, hg, hN, hw⟩ := h.frontier ho hs hw
  case inl => exact absurd hn ((h.relaxed hs).targets ht)
  case inr => exact ⟨j, t, b, ht, (h.consistent.best_least hs hb ht).left, hg, hN, hw⟩

end Problem
end BestFirst
