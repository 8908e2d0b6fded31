import BestFirst.Proofs.Session.Outcome

namespace BestFirst.Session

variable {α γ κ : Type}

inductive Asks (s : Session γ κ α) : Step γ κ → String → String → Prop
  | compute {a b}        : s.source = some a → s.target = some b → Asks s .compute a b
  | computeBetween {a b} : Asks s (.computeBetween a b) a b

structure Cleared (s t : Session γ κ α) (a b : String) : Prop where
  stage       : t.stage = .idle
  path        : t.path? = none
  noPathFound : t.noPathFound = false
  stats       : t.stats = {}
  graph       : t.graph = s.graph
  costs       : t.costs = s.costs
  source      : t.source = some a
  target      : t.target = some b

section Refusing

variable [Zero α] [One α] [Add α] [LE α] [DecidableLE α]

-- What stands in the way of a search between two ends, if everything before it is in order.
inductive Thwarts (c : Catalogue γ κ α) (s : Session γ κ α) (a b : String) : Failure → Prop
  | graph        : s.graph = none → Thwarts c s a b .noGraph
  | source {g}   : s.graph = some g → (c.graph g).findNode? a = none →
    Thwarts c s a b (.endpointNotFound .source a)
  | target {g u} : s.graph = some g → (c.graph g).findNode? a = some u →
    (c.graph g).findNode? b = none → Thwarts c s a b (.endpointNotFound .target b)
  | search {g u v fault} : s.graph = some g → (c.graph g).findNode? a = some u →
    (c.graph g).findNode? b = some v →
    Problem.search ⟨c.graph g, s.costsIn c, u, v⟩ = .error fault → Thwarts c s a b fault.failure

inductive Objects (c : Catalogue γ κ α) (s : Session γ κ α) : Step γ κ → Failure → Prop
  | costs                : Objects c s (.setCosts none) .noCosts
  | search {x a b cause} : s.Asks x a b → s.Thwarts c a b cause → Objects c s x cause

end Refusing

theorem resolve_eq_ok_iff {g : Graph α} {role : Role} {id : String} {u : NodeIndex} :
    g.resolve role id = .ok u ↔ g.findNode? id = some u := by
  rw [Graph.resolve]
  cases g.findNode? id <;> simp

theorem resolve_eq_error_iff {g : Graph α} {role : Role} {id : String} {cause : Failure} :
    g.resolve role id = .error cause ↔ g.findNode? id = none ∧ cause = .endpointNotFound role id := by
  rw [Graph.resolve]
  cases g.findNode? id <;> simp [eq_comm]

variable [Zero α] [One α] [Add α] [LE α] [DecidableLE α] {c : Catalogue γ κ α} {s : Session γ κ α}
  {x : Step γ κ} {a b : String} {cause : Failure}

theorem answer_eq_error_of_graph {g : γ} (hg : s.graph = some g) :
    s.answer c a b = .error cause ↔
      (c.graph g).findNode? a = none ∧ cause = .endpointNotFound .source a ∨
      ∃ u, (c.graph g).findNode? a = some u ∧
        ((c.graph g).findNode? b = none ∧ cause = .endpointNotFound .target b ∨
        ∃ v, (c.graph g).findNode? b = some v ∧
          ∃ fault, Problem.search ⟨c.graph g, s.costsIn c, u, v⟩ = .error fault ∧
            fault.failure = cause) := by
  simp only [answer, hg, Except.bind_eq_error_iff, Except.mapError_eq_error_iff, resolve_eq_ok_iff,
    resolve_eq_error_iff]

theorem answer_eq_error_iff : s.answer c a b = .error cause ↔ s.Thwarts c a b cause where
  mp h := by
    cases hg : s.graph
    case none =>
      simp only [answer, hg] at h
      exact Except.error.inj h ▸ .graph hg
    case some g =>
      obtain ⟨ha, rfl⟩ | ⟨u, ha, ⟨hb, rfl⟩ | ⟨v, hb, fault, hf, rfl⟩⟩ :=
        (answer_eq_error_of_graph hg).mp h
      · exact .source hg ha
      · exact .target hg ha hb
      · exact .search hg ha hb hf
  mpr h := by
    cases h
    case graph hg          => simp only [answer, hg]; rfl
    case source hg ha      => exact (answer_eq_error_of_graph hg).mpr (.inl ⟨ha, rfl⟩)
    case target hg ha hb   => exact (answer_eq_error_of_graph hg).mpr (.inr ⟨_, ha, .inl ⟨hb, rfl⟩⟩)
    case search hg ha hb h =>
      exact (answer_eq_error_of_graph hg).mpr (.inr ⟨_, ha, .inr ⟨_, hb, _, h, rfl⟩⟩)

theorem Asks.apply_eq (h : s.Asks x a b) :
    s.apply c x = ((fun _ => ()) <$> s.answer c a b,
      (s.answer c a b).toOption.elim ((s.setSource a).setTarget b)
        ((s.setSource a).setTarget b).adopt) := by
  cases h
  case compute ha hb =>
    have hs : s.clear = (s.setSource a).setTarget b := by simp [setSource, setTarget, clear, ha, hb]
    exact hs ▸ compute_eq ha hb
  case computeBetween =>
    have ha : ((s.setSource a).setTarget b).answer c a b = s.answer c a b := answer_congr rfl rfl
    exact ha ▸ compute_eq (s := (s.setSource a).setTarget b) rfl rfl

theorem Asks.apply_eq_error_iff (h : s.Asks x a b) :
    (s.apply c x).1 = .error cause ↔ s.Thwarts c a b cause := by
  rw [h.apply_eq, Except.map_eq_error_iff, answer_eq_error_iff]

theorem asks_or_apply_eq_ok (hx : x ≠ .setCosts none) :
    (∃ a b, s.Asks x a b) ∨ (s.apply c x).1 = .ok () := by
  cases x
  case computeBetween a b => exact .inl ⟨a, b, .computeBetween⟩
  case compute =>
    cases hs : s.source
    case none   => exact .inr (congrArg Prod.fst (compute_of_missing (.inl hs)))
    case some a =>
      cases ht : s.target
      case none   => exact .inr (congrArg Prod.fst (compute_of_missing (.inr ht)))
      case some b => exact .inl ⟨a, b, .compute hs ht⟩
  case setCosts k? =>
    cases k?
    case none   => contradiction
    case some k => exact .inr rfl
  all_goals exact .inr rfl

theorem apply_eq_error_iff : (s.apply c x).1 = .error cause ↔ s.Objects c x cause where
  mp h := by
    by_cases hx : x = .setCosts none
    case pos =>
      subst hx
      exact Except.error.inj h ▸ .costs
    case neg =>
      cases asks_or_apply_eq_ok (c := c) (s := s) hx
      case inl hask =>
        have ⟨a, b, hask⟩ := hask
        exact .search hask (hask.apply_eq_error_iff.mp h)
      case inr hok => exact absurd (hok.symm.trans h) nofun
  mpr h := by
    cases h
    case costs         => rfl
    case search hask h => exact hask.apply_eq_error_iff.mpr h

theorem Asks.cleared (h : s.Asks x a b) (hx : (s.apply c x).1 = .error cause) :
    s.Cleared (s.apply c x).2 a b := by
  have ha := answer_eq_error_iff.mpr (h.apply_eq_error_iff.mp hx)
  simp only [h.apply_eq, ha]
  constructor
  all_goals rfl

-- What becomes of a call that fails, and when it does. Nothing is assumed of what was called before.
theorem failures_clean (xs : List (Step γ κ)) (x : Step γ κ) :
    let s := after c xs
    (s.source = none ∨ s.target = none → s.apply c .compute = (.ok (), s)) ∧
    (∀ cause, (s.apply c x).1 = .error cause ↔ s.Objects c x cause) ∧
    (∀ cause, (s.apply c x).1 = .error cause →
      x = .setCosts none ∧ (s.apply c x).2 = s ∨
      ∃ a b, s.Asks x a b ∧ s.Cleared (s.apply c x).2 a b) ∧
    Failure.noGraph.kind = .unboundGraph ∧
    ∀ role id, (Failure.endpointNotFound role id).kind = .nodeNotFound := by
  intro s
  refine ⟨compute_of_missing, fun _ => apply_eq_error_iff, fun cause h => ?_, rfl, fun _ _ => rfl⟩
  cases apply_eq_error_iff.mp h
  case costs           => exact .inl ⟨rfl, rfl⟩
  case search hask _   => exact .inr ⟨_, _, hask, hask.cleared h⟩

def barred : Catalogue Unit Unit Int :=
  { tolled with costs _ := { Costs.standard with
      cost _ _ _ v := if v = 3 then .error (.noPosition "D") else .ok 1 } }

-- The path from "A" to "D" is still shown when the costs have been changed. The search that starts from
-- "B" after that fails when it has made some way.
theorem barred_failures :
    let s := after barred [.onGraph (), .computeBetween "A" "D", .setCosts (some ())]
    s.path? = some ⟨[0, 2, 3], [2, 3], 2⟩ ∧
    (s.apply barred (.computeBetween "B" "D")).1 = .error (.noPosition "D") ∧
    s.Objects barred (.computeBetween "B" "D") (.noPosition "D") ∧
    s.Cleared (s.apply barred (.computeBetween "B" "D")).2 "B" "D" := by
  intro s
  have hp : s.path? = some ⟨[0, 2, 3], [2, 3], 2⟩ := by cbv
  have h : (s.apply barred (.computeBetween "B" "D")).1 = .error (.noPosition "D") := by cbv
  obtain ⟨_, hreason, hafter, _⟩ := failures_clean (c := barred)
    [.onGraph (), .computeBetween "A" "D", .setCosts (some ())] (.computeBetween "B" "D")
  refine ⟨hp, h, (hreason _).mp h, ?_⟩
  obtain ⟨hx, _⟩ | ⟨a, b, hask, hcleared⟩ := hafter _ h
  · contradiction
  · cases hask
    exact hcleared

end BestFirst.Session
