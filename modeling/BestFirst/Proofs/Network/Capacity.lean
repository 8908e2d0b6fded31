import BestFirst.Proofs.Network.Adjacency
import Mathlib

namespace BestFirst

namespace Rows

variable {n r v : Nat} {es done : List Entry} {e : Entry} {f : Filling}

-- The numbers that are written down while the entries are counted, when the counts are summed up, and
-- while the entries are placed. Both passes over the entries are looked at after every entry.
inductive Writes (n : Nat) (es : List Entry) : Nat → Prop
  | count {done : List Entry} {v : Nat} : done <+: es → v ∈ sizes n done → Writes n es v
  | start {v : Nat} : v ∈ starts n es → Writes n es v
  | next {done : List Entry} {v : Nat} : done <+: es →
    v ∈ (done.foldl Filling.place (.empty n es)).next → Writes n es v

theorem offset_cons : offset (e :: es) r = offset es r + if e.row < r then 1 else 0 := by
  induction r
  case zero => simp [offset]
  case succ r ih =>
    rw [offset_succ, offset_succ, ih]
    by_cases h : e.row = r
    case pos =>
      subst h
      simp [inRow_cons_self]
      omega
    case neg =>
      rw [inRow_cons_ne h]
      split <;> split <;> omega

theorem offset_le_length : offset es r ≤ es.length := by
  induction es
  case nil => simp [offset, inRow]
  case cons e es ih =>
    rw [offset_cons, List.length_cons]
    split <;> omega

-- All entries are in the first `n` rows, so the next row would start behind all of them.
theorem offset_eq_length (he : ∀ e ∈ es, e.row < n) : offset es n = es.length := by
  induction es
  case nil => simp [offset, inRow]
  case cons e es ih =>
    have hrow : e.row < n := he e List.mem_cons_self
    rw [offset_cons, if_pos hrow, ih fun e h => he e (List.mem_cons_of_mem _ h), List.length_cons]

theorem length_inRow_mono (h : done <+: es) : (inRow done r).length ≤ (inRow es r).length := by
  have ⟨_, h⟩ := h
  exact length_inRow_le h.symm

theorem next_foldl_place : (done.foldl Filling.place f).next = done.foldl count f.next := by
  induction done generalizing f
  case nil          => rfl
  case cons e _ ih => exact ih

theorem getElem?_next : (done.foldl Filling.place (.empty n es)).next[r]? =
    (starts n es)[r]?.map (· + (inRow done r).length) := by
  rw [next_foldl_place, getElem?_foldl_count, Filling.empty]

theorem eq_offset_of_starts (h : (starts n es)[r]? = some v) : v = offset es r := by
  rw [← Array.getElem?_toList, starts_toList, List.getElem?_map, Option.map_eq_some_iff] at h
  have ⟨_, hr, hv⟩ := h
  have ⟨_, hr⟩ := List.getElem?_eq_some_iff.mp hr
  rw [← hv, ← hr, List.getElem_range]

theorem Writes.le_length (h : Writes n es v) : v ≤ es.length := by
  cases h
  case count done hd hv =>
    rw [← Array.mem_toList_iff, sizes_toList] at hv
    obtain ⟨r, -, hr⟩ := List.mem_map.mp hv
    calc v
      _ = (inRow done r).length := hr.symm
      _ ≤ (inRow es r).length   := length_inRow_mono hd
      _ ≤ es.length             := by simpa [inRow] using List.length_filter_le ..
  case start hv =>
    obtain ⟨r, hr⟩ := Array.mem_iff_getElem?.mp hv
    exact eq_offset_of_starts hr ▸ offset_le_length
  case next done hd hv =>
    obtain ⟨r, hr⟩ := Array.mem_iff_getElem?.mp hv
    rw [getElem?_next, Option.map_eq_some_iff] at hr
    obtain ⟨m, hm, hr⟩ := hr
    calc v
      _ = m + (inRow done r).length           := hr.symm
      _ = offset es r + (inRow done r).length := by rw [eq_offset_of_starts hm]
      _ ≤ offset es r + (inRow es r).length   := Nat.add_le_add_left (length_inRow_mono hd) _
      _ = offset es (r + 1)                   := offset_succ.symm
      _ ≤ es.length                           := offset_le_length

theorem starts_last (he : ∀ e ∈ es, e.row < n) : (starts n es)[n]? = some es.length := by
  rw [getElem?_starts (Nat.le_refl n), offset_eq_length he]

theorem writes_length (he : ∀ e ∈ es, e.row < n) : Writes n es es.length :=
  .start (Array.mem_of_getElem? (starts_last he))

end Rows

namespace Draft

variable {α : Type} {d : Draft α} {edge : Edge α} {m : Nat}

def twofold (d : Draft α) : Nat :=
  d.edges.toList.countP fun edge => !edge.directed && edge.target != edge.source

theorem length_leaves : edge.leaves.length =
    1 + if !edge.directed && edge.target != edge.source then 1 else 0 := by
  grind [Edge.leaves]

theorem length_entries : d.entries.length = d.edges.size + d.twofold := by
  have hlen (xs : List (Edge α)) (k : Nat) :
      ((xs.zipIdx k).flatMap fun x => x.1.leaves.map (Rows.Entry.mk · x.2)).length =
        xs.length + xs.countP fun edge => !edge.directed && edge.target != edge.source := by
    induction xs generalizing k
    case nil => rfl
    case cons edge xs ih =>
      rw [List.zipIdx_cons, List.flatMap_cons, List.length_append, ih, List.length_map, length_leaves,
        List.length_cons, List.countP_cons]
      dsimp only
      omega
  exact hlen d.edges.toList 0

theorem twofold_le : d.twofold ≤ d.edges.size :=
  List.countP_le_length

end Draft

namespace Network

variable {α : Type} [Scalar α] {g : Network α} {steps : List (Draft.Step α)}

-- Where the entries can be counted in 31 bits, all numbers fit, and nowhere else. Fewer than half as many
-- edges as 31 bits can number are never too many.
theorem offsets_fit (h : ofSteps steps = .ok g) :
    g.rows = .ofEntries g.nodes.size g.entries ∧
    ((∀ v, Rows.Writes g.nodes.size g.entries v → v < 2 ^ 31) ↔ g.edges.size + g.twofold < 2 ^ 31) ∧
    (g.edges.size < 2 ^ 30 → ∀ v, Rows.Writes g.nodes.size g.entries v → v < 2 ^ 31) := by
  obtain ⟨d, hd, rfl⟩ := valid_of_ofSteps h
  have hle {v : Nat} (hv : Rows.Writes d.nodes.size d.entries v) : v ≤ d.edges.size + d.twofold :=
    Draft.length_entries ▸ hv.le_length
  refine ⟨rfl, ⟨fun hall => ?fits, fun hfit v hv => ?bound⟩, fun hfew v hv => ?few⟩
  case fits =>
    have hw := Rows.writes_length fun _ => hd.row_lt
    exact Draft.length_entries ▸ hall _ hw
  case bound => exact Nat.lt_of_le_of_lt (hle hv) hfit
  case few =>
    have htwo : d.twofold ≤ d.edges.size := Draft.twofold_le
    have hfew : d.edges.size < 2 ^ 30 := hfew
    have hle := hle hv
    omega

theorem bundle_fits :
    ofSteps bundleSteps = .ok bundle ∧ bundle.edges.size + bundle.twofold = 9 ∧
    ∀ v, Rows.Writes 3 bundle.entries v → v < 2 ^ 31 := by
  have ⟨_, hfits, _⟩ := offsets_fit ofSteps_bundle
  exact ⟨ofSteps_bundle, rfl, hfits.mpr (by decide)⟩

open Draft.Step in
def cableSteps (m : Nat) : List (Draft.Step Float) :=
  [addNode "a", addNode "b"] ++ (List.range m).map fun k => addEdge k.repr "a" "b" false

structure Cable (m : Nat) (d : Draft Float) : Prop where
  nodes : d.nodes.size = 2
  edges : d.edges.size = m
  first : d.nodeIndex["a"]? = some 0
  last  : d.nodeIndex["b"]? = some 1
  ends {edge : Edge Float} : edge ∈ d.edges →
    edge.source = 0 ∧ edge.target = 1 ∧ edge.directed = false
  fresh {k : Nat} : m ≤ k → k.repr ∉ d.edgeIndex

theorem Cable.addEdge {m : Nat} {d : Draft Float} (h : Cable m d) :
    ∃ d', d.addEdge m.repr "a" "b" false = .ok (m, d') ∧ Cable (m + 1) d' := by
  have hfresh : m.repr ∉ d.edgeIndex := h.fresh (Nat.le_refl m)
  simp only [Draft.addEdge, if_neg hfresh, Draft.knownNode, h.first, h.last, Except.ok_bind, h.edges]
  refine ⟨_, rfl, h.nodes, ?edges, h.first, h.last, fun he => ?ends, fun hk => ?fresh⟩
  case edges => rw [Array.size_push, h.edges]
  case ends =>
    cases Array.mem_push.mp he
    case inl he => exact h.ends he
    case inr he => exact he ▸ ⟨rfl, rfl, rfl⟩
  case fresh =>
    rw [Std.HashMap.mem_insert, not_or, beq_iff_eq, Nat.repr_inj]
    exact ⟨Nat.ne_of_lt hk, h.fresh (Nat.le_of_succ_le hk)⟩

theorem cableSteps_succ {m : Nat} :
    cableSteps (m + 1) = cableSteps m ++ [.addEdge m.repr "a" "b" false] := by
  simp [cableSteps, List.range_succ]

-- No two numbers are written alike, so no edge is turned down.
theorem exists_cable (m : Nat) : ∃ d, Cable m d ∧
    (cableSteps m).foldlM (fun b step => (·.2) <$> Builder.apply b step) Builder.new =
      .ok (.collecting d) := by
  induction m
  case zero =>
    refine ⟨{
      nodes     := #[{ id := "a" }, { id := "b" }]
      nodeIndex := (∅ : Std.HashMap String Nat).insert "a" 0 |>.insert "b" 1 }, ?cable, ?steps⟩
    case cable => constructor <;> simp [Std.HashMap.getElem_insert]
    case steps => simp [cableSteps, Builder.new, Builder.apply, Draft.apply, Draft.addNode]
  case succ m ih =>
    obtain ⟨d, hd, hsteps⟩ := ih
    obtain ⟨d', hadd, hd'⟩ := hd.addEdge
    refine ⟨d', hd', ?_⟩
    rw [cableSteps_succ, List.foldlM_append, hsteps, Except.ok_bind]
    simp [Builder.apply, Draft.apply, hadd]

theorem Cable.twofold_eq {m : Nat} {d : Draft Float} (h : Cable m d) : d.twofold = m := by
  rw [Draft.twofold, List.countP_eq_length.mpr, Array.length_toList, h.edges]
  intro edge he
  have ⟨hs, ht, hd⟩ := h.ends (Array.mem_toList_iff.mp he)
  simp [hs, ht, hd]

theorem cable_overflows : ∃ g, ofSteps (cableSteps (2 ^ 30)) = .ok g ∧
    g.nodes.size = 2 ∧ g.edges.size = 2 ^ 30 ∧ g.rows.offsets[2]? = some (2 ^ 31) ∧
    Rows.Writes g.nodes.size g.entries (2 ^ 31) := by
  have ⟨d, hd, hsteps⟩ := exists_cable (2 ^ 30)
  have h : ofSteps (cableSteps (2 ^ 30)) = .ok (.ofDraft d) := by
    rw [ofSteps, hsteps]
    rfl
  obtain ⟨d', hvalid, hd'⟩ := valid_of_ofSteps h
  obtain rfl : d = d' := congrArg toDraft hd'
  have hrow (e : Rows.Entry) (he : e ∈ d.entries) : e.row < d.nodes.size := hvalid.row_lt he
  have hlen : d.entries.length = 2 ^ 31 := by
    rw [Draft.length_entries, hd.edges, hd.twofold_eq, ← Nat.two_mul, ← Nat.pow_succ']
  refine ⟨.ofDraft d, h, hd.nodes, hd.edges, ?last, hlen ▸ Rows.writes_length hrow⟩
  case last =>
    calc (Rows.starts d.nodes.size d.entries)[2]?
      _ = (Rows.starts d.nodes.size d.entries)[d.nodes.size]? := by rw [hd.nodes]
      _ = some (2 ^ 31)                                       := hlen ▸ Rows.starts_last hrow

end Network
end BestFirst
