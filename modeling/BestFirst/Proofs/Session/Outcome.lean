import BestFirst.Proofs.Hops
import BestFirst.Session
import Mathlib

namespace BestFirst

variable {α γ κ : Type}

namespace Session

def Step.Computes : Step γ κ → Prop
  | .compute           => True
  | .computeBetween .. => True
  | _                  => False

section Showing

structure Coherent (s : Session γ κ α) : Prop where
  stage     : s.stage ≠ .running
  found     : s.path?.isSome ↔ s.stage = .found
  exhausted : s.noPathFound ↔ s.stage = .exhausted
  idle      : s.stage = .idle → s.stats = {}

structure Shows (s : Session γ κ α) (report? : Option (Report α)) : Prop where
  stage : s.stage = report?.elim .idle (·.stage)
  path  : s.path? = report?.bind (·.path?)
  stats : s.stats = report?.elim {} (·.stats)

variable {s : Session γ κ α} {report : Report α} {report? : Option (Report α)}

theorem shows_new : ({} : Session γ κ α).Shows none :=
  ⟨rfl, rfl, rfl⟩

theorem shows_clear : s.clear.Shows none :=
  ⟨rfl, rfl, rfl⟩

theorem shows_adopt : (s.adopt report).Shows (some report) :=
  ⟨rfl, rfl, rfl⟩

theorem Shows.of_costs (h : s.Shows report?) {k? : Option κ} :
    { s with costs := k? }.Shows report? :=
  ⟨h.stage, h.path, h.stats⟩

theorem Shows.eq_idle_iff (h : s.Shows report?) : s.stage = .idle ↔ report? = none := by
  rw [h.stage]
  cases report?
  case none => exact ⟨fun _ => rfl, fun _ => rfl⟩
  case some report =>
    obtain ⟨verdict, _, _⟩ := report
    cases verdict
    all_goals exact ⟨nofun, nofun⟩

theorem Shows.coherent (h : s.Shows report?) : s.Coherent := by
  obtain ⟨hs, hp, ht⟩ := h
  cases report?
  case none =>
    constructor
    all_goals simp_all [noPathFound]
  case some report =>
    obtain ⟨verdict, _, _⟩ := report
    cases verdict
    all_goals
      constructor
      all_goals simp_all [noPathFound, Report.stage, Report.path?]

end Showing

variable [Zero α] [One α]

-- The same graph is to be searched between the same ends, which are both set, and under the same costs.
structure SameTask (c : Catalogue γ κ α) (s t : Session γ κ α) : Prop where
  graph  : s.graph.map c.graph = t.graph.map c.graph
  source : ∃ a, s.source = some a ∧ t.source = some a
  target : ∃ b, s.target = some b ∧ t.target = some b
  costs  : s.costsIn c = t.costsIn c

variable [Add α] [LE α] [DecidableLE α]

def after (c : Catalogue γ κ α) (xs : List (Step γ κ)) : Session γ κ α :=
  xs.foldl (fun s x => (s.apply c x).2) {}

theorem after_concat {c : Catalogue γ κ α} {xs : List (Step γ κ)} {x : Step γ κ} :
    after c (xs ++ [x]) = ((after c xs).apply c x).2 :=
  List.foldl_append

def Reports (c : Catalogue γ κ α) (s : Session γ κ α) (costs : Costs α) (report : Report α) : Prop :=
  ∃ g source target u v, s.graph = some g ∧ s.source = some source ∧ s.target = some target ∧
    (c.graph g).resolve .source source = .ok u ∧ (c.graph g).resolve .target target = .ok v ∧
    Problem.search ⟨c.graph g, costs, u, v⟩ = .ok report

variable {c : Catalogue γ κ α} {s t : Session γ κ α} {x y : Step γ κ} {xs : List (Step γ κ)}
  {source target : String} {report : Report α}

-- Only the graph and the costs have a part in an answer, not the handles that they are known by, nor
-- what was answered before.
theorem answer_congr (hg : s.graph.map c.graph = t.graph.map c.graph)
    (hc : s.costsIn c = t.costsIn c) : s.answer c source target = t.answer c source target := by
  simp only [answer, hc]
  cases hs : s.graph <;> cases ht : t.graph <;> simp_all

theorem reports_of_answer (hs : s.source = some source) (ht : s.target = some target)
    (h : s.answer c source target = .ok report) : s.Reports c (s.costsIn c) report := by
  cases hg : s.graph
  case none =>
    simp only [answer, hg] at h
    contradiction
  case some g =>
    simp only [answer, hg, Except.bind_eq_ok_iff, Except.mapError_eq_ok_iff] at h
    have ⟨u, hu, v, hv, h⟩ := h
    exact ⟨g, source, target, u, v, hg, hs, ht, hu, hv, h⟩

theorem compute_eq (hs : s.source = some source) (ht : s.target = some target) :
    s.compute c = ((fun _ => ()) <$> s.answer c source target,
      (s.answer c source target).toOption.elim s.clear s.clear.adopt) := by
  have ha : s.clear.answer c source target = s.answer c source target := answer_congr rfl rfl
  simp only [compute, hs, ht, ha]
  cases s.answer c source target <;> rfl

theorem compute_of_missing (h : s.source = none ∨ s.target = none) : s.compute c = (.ok (), s) := by
  simp only [compute]
  split
  case h_1 hs ht => simp [hs, ht] at h
  case h_2       => rfl

theorem compute_shows : (s.source = none ∨ s.target = none) ∨ (s.compute c).2.Shows none ∨
    ∃ report, (s.compute c).2.Shows (some report) ∧
      (s.compute c).2.Reports c (s.costsIn c) report := by
  cases hs : s.source
  case none => exact .inl (.inl rfl)
  case some source =>
    cases ht : s.target
    case none => exact .inl (.inr rfl)
    case some target =>
      rw [compute_eq hs ht]
      cases ha : s.answer c source target
      case error     => exact .inr (.inl shows_clear)
      case ok report => exact .inr (.inr ⟨report, shows_adopt, reports_of_answer hs ht ha⟩)

theorem exists_compute_eq : ∃ stage path? stats, (s.compute c).2 = { s with stage, path?, stats } := by
  simp only [compute]
  split
  case h_1 => split <;> exact ⟨_, _, _, rfl⟩
  case h_2 => exact ⟨s.stage, s.path?, s.stats, rfl⟩

theorem apply_of_computes (hx : x.Computes) : ∃ s' : Session γ κ α, s.apply c x = s'.compute c ∧
    s'.graph = s.graph ∧ s'.costs = s.costs ∧ (s'.Shows none ∨ s' = s) := by
  cases x
  case compute => exact ⟨s, rfl, rfl, rfl, .inr rfl⟩
  case computeBetween source target =>
    exact ⟨(s.setSource source).setTarget target, rfl, rfl, rfl, .inl ⟨rfl, rfl, rfl⟩⟩
  all_goals exact absurd hx id

theorem apply_of_not_computes (hx : ¬x.Computes) :
    (s.apply c x).2.Shows none ∨ ∃ k?, (s.apply c x).2 = { s with costs := k? } := by
  cases x
  case setCosts k? =>
    cases k?
    case none   => exact .inr ⟨s.costs, rfl⟩
    case some k => exact .inr ⟨some k, rfl⟩
  case compute        => exact absurd trivial hx
  case computeBetween => exact absurd trivial hx
  all_goals exact .inl ⟨rfl, rfl, rfl⟩

theorem costs_apply {k : κ} (h : (s.apply c x).2.costs = some k) :
    s.costs = some k ∨ x = .setCosts (some k) := by
  by_cases hx : x.Computes
  case pos =>
    have ⟨s', hs', _, hk, _⟩ := apply_of_computes (c := c) (s := s) hx
    have ⟨_, _, _, hl⟩ := exists_compute_eq (c := c) (s := s')
    rw [hs', hl] at h
    exact .inl (hk ▸ h)
  case neg =>
    cases x
    case setCosts k? =>
      cases k?
      case none   => exact .inl h
      case some k => exact .inr (congrArg _ h)
    case bind           => exact .inl h
    case setSource      => exact .inl h
    case setTarget      => exact .inl h
    case compute        => exact absurd trivial hx
    case computeBetween => exact absurd trivial hx
    all_goals contradiction

theorem costsIn_after : (after c xs).costsIn c = .standard ∨
    ∃ k, .setCosts (some k) ∈ xs ∧ (after c xs).costsIn c = c.costs k := by
  have hset {k : κ} (h : (after c xs).costs = some k) : .setCosts (some k) ∈ xs := by
    induction xs using List.reverseRecOn
    case nil => contradiction
    case append_singleton xs x ih =>
      rw [after_concat] at h
      obtain h | rfl := costs_apply h
      · exact List.mem_append_left _ (ih h)
      · simp
  cases h : (after c xs).costs
  case none   => exact .inl (by simp [costsIn, h])
  case some k => exact .inr ⟨k, hset h, by simp [costsIn, h]⟩

-- The last search that was asked for after these calls came to this end, and the ends, the graph and the
-- costs that it was made with are the present ones.
def LastReports (c : Catalogue γ κ α) (xs : List (Step γ κ)) (report : Report α) : Prop :=
  ∃ earlier x later, xs = earlier ++ x :: later ∧ x.Computes ∧ (∀ y ∈ later, ¬y.Computes) ∧
    (after c xs).Reports c ((after c earlier).costsIn c) report

theorem LastReports.concat {k? : Option κ} (h : LastReports c xs report) (hx : ¬x.Computes)
    (hk : ((after c xs).apply c x).2 = { after c xs with costs := k? }) :
    LastReports c (xs ++ [x]) report := by
  obtain ⟨earlier, y, later, hxs, hy, hlater, hr⟩ := h
  refine ⟨earlier, y, later ++ [x], by simp [hxs], hy, ?_, ?_⟩
  case refine_1 => simpa [or_imp, forall_and, hx] using hlater
  case refine_2 => rwa [after_concat, hk]

theorem LastReports.not_missing (h : LastReports c xs report) :
    ¬((after c xs).source = none ∨ (after c xs).target = none) := by
  obtain ⟨_, _, _, _, _, _, _, _, _, _, _, _, hs, ht, _⟩ := h
  simp [hs, ht]

-- What is shown after a call is what was shown before, or the end of the search that was asked for.
theorem shows_after (xs : List (Step γ κ)) : (after c xs).Shows none ∨
    ∃ report, (after c xs).Shows (some report) ∧ LastReports c xs report := by
  induction xs using List.reverseRecOn
  case nil => exact .inl shows_new
  case append_singleton xs x ih =>
    have ha : after c (xs ++ [x]) = ((after c xs).apply c x).2 := after_concat
    by_cases hx : x.Computes
    case neg =>
      obtain hn | ⟨k?, hk⟩ := apply_of_not_computes (c := c) (s := after c xs) hx
      case inl => exact .inl (ha ▸ hn)
      case inr =>
        rw [hk] at ha
        obtain hs | ⟨report, hs, hr⟩ := ih
        case inl => exact .inl (ha ▸ hs.of_costs)
        case inr => exact .inr ⟨report, ha ▸ hs.of_costs, hr.concat hx hk⟩
    case pos =>
      obtain ⟨s', hs', _, hk, hold⟩ := apply_of_computes (c := c) (s := after c xs) hx
      rw [hs'] at ha
      have hc : s'.costsIn c = (after c xs).costsIn c := by simp only [costsIn, hk]
      obtain hm | hn | ⟨report, hs, hr⟩ := compute_shows (c := c) (s := s')
      case inr.inl => exact .inl (ha ▸ hn)
      case inr.inr => exact .inr ⟨report, ha ▸ hs, xs, x, [], rfl, hx, nofun, ha ▸ hc ▸ hr⟩
      case inl =>
        -- Without both ends there was no outcome before, so that there is none to be kept.
        rw [compute_of_missing hm] at ha
        obtain hn | rfl := hold
        case inl => exact .inl (ha ▸ hn)
        case inr =>
          obtain hn | ⟨_, _, hr⟩ := ih
          case inl => exact .inl (ha ▸ hn)
          case inr => exact absurd hm hr.not_missing

theorem apply_eq_of_sameTask (hx : x.Computes) (hy : y.Computes)
    (h : SameTask c (s.apply c x).2 (t.apply c y).2) :
    (s.apply c x).1 = (t.apply c y).1 ∧ (s.apply c x).2.stage = (t.apply c y).2.stage ∧
      (s.apply c x).2.path? = (t.apply c y).2.path? ∧ (s.apply c x).2.stats = (t.apply c y).2.stats := by
  have ⟨s', hs', _⟩ := apply_of_computes (c := c) (s := s) hx
  have ⟨t', ht', _⟩ := apply_of_computes (c := c) (s := t) hy
  have ⟨_, _, _, hsl⟩ := exists_compute_eq (c := c) (s := s')
  have ⟨_, _, _, htl⟩ := exists_compute_eq (c := c) (s := t')
  rw [hs', ht', hsl, htl] at h
  have h : SameTask c s' t' := ⟨h.graph, h.source, h.target, h.costs⟩
  have ⟨a, hsa, hta⟩ := h.source
  have ⟨b, hsb, htb⟩ := h.target
  rw [hs', ht', compute_eq hsa hsb, compute_eq hta htb, answer_congr h.graph h.costs]
  cases t'.answer c a b
  all_goals exact ⟨rfl, rfl, rfl, rfl⟩

theorem after_faithful (xs : List (Step γ κ)) :
    (after c xs).Coherent ∧
    ((after c xs).costsIn c = .standard ∨
      ∃ k, .setCosts (some k) ∈ xs ∧ (after c xs).costsIn c = c.costs k) ∧
    ((after c xs).stage ≠ .idle → ∃ report,
      (∃ earlier x later, xs = earlier ++ x :: later ∧ x.Computes ∧ (∀ y ∈ later, ¬y.Computes) ∧
        (after c xs).Reports c ((after c earlier).costsIn c) report) ∧
      (after c xs).stage = report.stage ∧ (after c xs).path? = report.path? ∧
        (after c xs).stats = report.stats) ∧
    ∀ ys x y, x.Computes → y.Computes → SameTask c (after c (xs ++ [x])) (after c (ys ++ [y])) →
      ((after c xs).apply c x).1 = ((after c ys).apply c y).1 ∧
        (after c (xs ++ [x])).stage = (after c (ys ++ [y])).stage ∧
        (after c (xs ++ [x])).path? = (after c (ys ++ [y])).path? ∧
        (after c (xs ++ [x])).stats = (after c (ys ++ [y])).stats := by
  refine ⟨?coherent, costsIn_after, fun hs => ?reports, fun ys x y hx hy h => ?same⟩
  case coherent =>
    obtain h | ⟨_, h, _⟩ := shows_after (c := c) xs
    all_goals exact h.coherent
  case reports =>
    obtain h | ⟨report, h, hr⟩ := shows_after (c := c) xs
    case inl => exact absurd (h.eq_idle_iff.mpr rfl) hs
    case inr => exact ⟨report, hr, h.stage, h.path, h.stats⟩
  case same =>
    rw [after_concat, after_concat] at h ⊢
    exact apply_eq_of_sameTask hx hy h

def tolled : Catalogue Unit Unit Int where
  graph _ := Network.toGraph <| .ofDraft {
    nodes := #[{ id := "A" }, { id := "B" }, { id := "C" }, { id := "D" }]
    edges := #[
      { id := "AB", source := 0, target := 1, directed := false,
        numbers := {("weight", 2), ("toll", 1)} },
      { id := "BD", source := 1, target := 3, directed := false,
        numbers := {("weight", 2), ("toll", 1)} },
      { id := "AC", source := 0, target := 2, directed := false,
        numbers := {("weight", 1), ("toll", 5)} },
      { id := "CD", source := 2, target := 3, directed := false,
        numbers := {("weight", 1), ("toll", 5)} }]
    nodeIndex := {("A", 0), ("B", 1), ("C", 2), ("D", 3)}
    edgeIndex := {("AB", 0), ("BD", 1), ("AC", 2), ("CD", 3)} }
  costs _ := .weighted "toll" 1

def tollSteps : List (Step Unit Unit) :=
  [.onGraph (), .computeBetween "A" "D", .setCosts (some ())]

-- The way by weight is shown until the next search, which makes no difference between this session and
-- one that was asked to go by toll from the first.
theorem tolled_faithful :
    (after tolled tollSteps).path? = some ⟨[0, 2, 3], [2, 3], 2⟩ ∧
    (∃ report, (after tolled tollSteps).Reports tolled .standard report ∧
      report.path? = some ⟨[0, 2, 3], [2, 3], 2⟩) ∧
    (after tolled (tollSteps ++ [.compute])).path? = some ⟨[0, 1, 3], [0, 1], 2⟩ ∧
    (after tolled (tollSteps ++ [.compute])).stats =
      (after tolled [.onGraph (), .setCosts (some ()), .computeBetween "A" "D"]).stats := by
  have hp : (after tolled tollSteps).path? = some ⟨[0, 2, 3], [2, 3], 2⟩ := by cbv
  have hs : (after tolled tollSteps).stage = .found := by cbv
  obtain ⟨_, _, hreport, htask⟩ := after_faithful (c := tolled) tollSteps
  refine ⟨hp, ?report, by cbv, ?stats⟩
  case report =>
    obtain ⟨report, ⟨earlier, x, later, hxs, hx, _, hr⟩, _, hpath, _⟩ := hreport (by rw [hs]; decide)
    -- Of the three calls only the second one asks for a search.
    have hearlier : earlier = [.onGraph ()] := by
      obtain _ | ⟨y, _ | ⟨z, _ | ⟨w, rest⟩⟩⟩ := earlier
      all_goals simp [tollSteps] at hxs
      case nil              => exact absurd hx (hxs.left ▸ id)
      case cons.nil         => rw [← hxs.left]
      case cons.cons.nil    => exact absurd hx (hxs.right.right.left ▸ id)
    rw [hearlier] at hr
    exact ⟨report, hr, hpath.symm.trans hp⟩
  case stats =>
    have h : SameTask tolled (after tolled (tollSteps ++ [.compute]))
        (after tolled ([.onGraph (), .setCosts (some ())] ++ [.computeBetween "A" "D"])) :=
      ⟨by cbv, ⟨"A", by cbv, by cbv⟩, ⟨"D", by cbv, by cbv⟩, by cbv⟩
    exact (htask _ .compute (.computeBetween "A" "D") trivial trivial h).right.right.right

end Session
end BestFirst
