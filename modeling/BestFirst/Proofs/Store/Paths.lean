import BestFirst.Path
import BestFirst.Proofs.Store.Chains
import BestFirst.Proofs.Store.Chronicle

namespace BestFirst

variable {α : Type}

theorem Store.path?_of_lineage {s : Store α} {i : Nat} {r : Record α} {rs : List (Record α)}
    (hl : s.arena.Lineage i rs) (hr : s.record? i = some r) :
    s.path? i = some ⟨rs.map (·.node), rs.filterMap (·.via), r.g⟩ := by
  simp [path?, hr, Path.ofChain, hl.chain_eq]

variable [Zero α]

namespace Chronicle

variable {c : Chronicle α} {r : Record α} {x : Store.Step α} {xs : List (Store.Step α)}

theorem mem_made_enter (h : r ∈ (c.enter x).made) : r ∈ c.made ∨ x.made? = some r := by
  cases x
  case clear    => contradiction
  case openRoot => simpa [enter, Store.Step.made?, eq_comm] using h
  case openFrom => simpa [enter, Store.Step.made?, eq_comm] using h
  all_goals exact .inl h

theorem exists_made? (h : r ∈ (ofSteps xs).made) : ∃ x ∈ xs, x.made? = some r := by
  induction xs using List.reverseRecOn
  case nil => contradiction
  case append_singleton xs x ih =>
    have hm : r ∈ (ofSteps xs).made ∨ x.made? = some r := by
      rw [ofSteps_append, List.foldl_cons, List.foldl_nil, apply] at h
      split at h
      case isTrue  => exact .inl h
      case isFalse => exact mem_made_enter h
    cases hm
    case inr hx => exact ⟨x, by simp, hx⟩
    case inl hr =>
      obtain ⟨y, hy, hyr⟩ := ih hr
      exact ⟨y, List.mem_append_left _ hy, hyr⟩

end Chronicle

namespace Store

variable [Add α] [LE α] [DecidableLE α] {s : Store α} {i : Nat} {r : Record α}
  {rs : List (Record α)} {xs ys : List (Step α)} {x : Step α}

theorem record?_after (hs : .clear ∉ ys) (hr : (after {} xs).record? i = some r) :
    ((after {} xs).after ys).record? i = some r := by
  rw [← after_append, (tells_after _).record?, Chronicle.ofSteps_append]
  rw [(tells_after _).record?] at hr
  have ⟨_, hm⟩ := Chronicle.made_foldl (c := Chronicle.ofSteps xs) hs
  rw [← hm, List.getElem?_append_left (List.getElem?_eq_some_iff.mp hr).choose, hr]

-- If every call that names a parent names an edge, there is one edge less than there are nodes.
theorem length_edges (hx : ∀ parent node g h, .openFrom parent node none g h ∉ xs)
    (hl : (after {} xs).arena.Lineage i rs) : (rs.filterMap (·.via)).length + 1 = rs.length := by
  have hstep {j t} (ht : (after {} xs).record? j = some t) : t.parent = none ↔ t.via = none := by
    rw [(tells_after _).record?] at ht
    have ⟨x, hm, hxt⟩ := Chronicle.exists_made? (List.mem_of_getElem? ht)
    cases x <;> cases hxt
    case openRoot => simp
    case openFrom parent node via g h =>
      have hv : via ≠ none := fun hv => hx parent node g h (hv ▸ hm)
      simpa using hv
  induction hl
  case root hr hp     => simp [(hstep hr).mp hp]
  case child r _ _ hr hp ih =>
    have ⟨e, he⟩ : ∃ e, r.via = some e :=
      Option.ne_none_iff_exists'.mp fun hv => by simp [(hstep hr).mpr hv] at hp
    rw [List.filterMap_append, List.length_append, List.length_append, ← ih]
    simp [he]

theorem rebuilds_path (xs : List (Step α)) (hr : (after {} xs).record? i = some r) :
    let s := after {} xs
    ∃ rs path, s.arena.Lineage i rs ∧ s.path? i = some path ∧ rs.length ≤ i + 1 ∧
      (∃ t, rs.head? = some t ∧ t.parent = none) ∧ rs.getLast? = some r ∧
      path.nodes = rs.map (·.node) ∧ path.edges = rs.filterMap (·.via) ∧ path.cost = r.g ∧
      ((∀ parent node g h, .openFrom parent node none g h ∉ xs) →
        path.edges.length + 1 = path.nodes.length) ∧
      ∀ ys, .clear ∉ ys → (s.after ys).path? i = some path := by
  intro s
  have ⟨rs, hl⟩ := Arena.exists_lineage hr
  refine ⟨rs, ⟨rs.map (·.node), rs.filterMap (·.via), r.g⟩, hl, path?_of_lineage hl hr, hl.length_le,
    hl.head?, hl.getLast?.trans hr, rfl, rfl, rfl, ?edges, ?later⟩
  case edges =>
    intro hx
    rw [List.length_map]
    exact length_edges hx hl
  case later =>
    intro ys hy
    exact path?_of_lineage (hl.mono (record?_after hy)) (record?_after hy hr)

-- Node 2 is reached by way of the first record of node 1, which is closed by then and is superseded later.
def relay : List (Step Int) := [
  .openRoot 0 9, .openFrom 0 1 (some 4) 5 1, .close 1, .openFrom 1 2 (some 7) 6 0, .openFrom 0 1 (some 3) 2 1
]

theorem relay_path :
    (after {} relay).record? 2 = some ⟨2, some 7, some 1, 6, 0⟩ ∧
    (∀ parent node g h, .openFrom parent node none g h ∉ relay) ∧
    ([4, 7] : List EdgeIndex).length + 1 = ([0, 1, 2] : List NodeIndex).length ∧
    ∀ ys, .clear ∉ ys → ((after {} relay).after ys).path? 2 = some ⟨[0, 1, 2], [4, 7], 6⟩ := by
  have hr : (after {} relay).record? 2 = some ⟨2, some 7, some 1, 6, 0⟩ := by cbv
  have hx (parent node g h) : .openFrom parent node none g h ∉ relay := by simp [relay]
  have hpath : (after {} relay).path? 2 = some ⟨[0, 1, 2], [4, 7], 6⟩ := by cbv
  obtain ⟨_, path, _, hp, _, _, _, _, _, _, hedges, hlater⟩ := rebuilds_path relay hr
  cases Option.some.inj (hp.symm.trans hpath)
  exact ⟨hr, hx, hedges hx, hlater⟩

end Store
end BestFirst
