import Mathlib.Logic.Basic

/-!
Deterministic labelled machines and the runs they allow. A run may be
restricted by a condition `ok` on the state before each step and on the label
of that step; the unrestricted runs are those with the trivial condition.
Every safety result of this development is an instance of
`ReachableUnder.invariant`, and every concrete run is an instance of
`reachableUnder_of_exec`.
-/

namespace MosSmp.Lib

structure Machine (σ : Type) (ℓ : Type) where
  init : σ → Prop
  step : σ → ℓ → Option σ

namespace Machine

variable {σ ℓ : Type} {M : Machine σ ℓ} {ok : σ → ℓ → Prop}

/-- States reached from an initial state by steps that all meet `ok` in the
state they start from. -/
inductive ReachableUnder (M : Machine σ ℓ) (ok : σ → ℓ → Prop) : σ → Prop
  | init {s : σ} : M.init s → ReachableUnder M ok s
  | step {s s' : σ} (l : ℓ) : ReachableUnder M ok s → ok s l →
      M.step s l = some s' → ReachableUnder M ok s'

/-- All reachable states, with no condition on the steps. -/
def Reachable (M : Machine σ ℓ) : σ → Prop :=
  M.ReachableUnder (fun _ _ => True)

/-- Execute a list of labels, stopping when a step is disabled or when it
does not meet the condition. -/
def exec (M : Machine σ ℓ) (ok : σ → ℓ → Prop) [∀ s l, Decidable (ok s l)] :
    σ → List ℓ → Option σ
  | s, [] => some s
  | s, l :: rest =>
    if ok s l then
      match M.step s l with
      | some s' => exec M ok s' rest
      | none => none
    else none

/-- The rule for invariants. A step may use invariants proved before, through
the reachability of its first state. -/
theorem ReachableUnder.invariant {Inv : σ → Prop} (hinit : ∀ s, M.init s → Inv s)
    (hstep : ∀ s l s', M.ReachableUnder ok s → Inv s → ok s l → M.step s l = some s' → Inv s')
    {s : σ} (hreach : M.ReachableUnder ok s) : Inv s := by
  induction hreach with
  | init h => exact hinit _ h
  | step l hprev hok hs ih => exact hstep _ l _ hprev ih hok hs

theorem ReachableUnder.mono {ok' : σ → ℓ → Prop} (himp : ∀ s l, ok s l → ok' s l) {s : σ}
    (hreach : M.ReachableUnder ok s) : M.ReachableUnder ok' s := by
  induction hreach with
  | init h => exact .init h
  | step l _ hok hs ih => exact .step l ih (himp _ l hok) hs

theorem reachableUnder_of_exec [∀ s l, Decidable (ok s l)] {s s' : σ}
    (labels : List ℓ) (hs : M.ReachableUnder ok s)
    (hrun : M.exec ok s labels = some s') : M.ReachableUnder ok s' := by
  induction labels generalizing s with
  | nil =>
    simp only [exec, Option.some.injEq] at hrun
    exact hrun ▸ hs
  | cons l rest ih =>
    simp only [exec] at hrun
    split at hrun
    · next hok =>
      split at hrun
      · next t ht => exact ih (.step l hs hok ht) hrun
      · cases hrun
    · cases hrun

/-- A concrete run that ends in a state with property `P`. -/
theorem exists_reachableUnder_of_exec [∀ s l, Decidable (ok s l)] {P : σ → Prop}
    [DecidablePred P] {s : σ} (labels : List ℓ) (hs : M.ReachableUnder ok s)
    (hrun : (M.exec ok s labels).any (fun t => decide (P t)) = true) :
    ∃ t, M.ReachableUnder ok t ∧ P t := by
  obtain ⟨t, ht, hP⟩ := (Option.any_eq_true ..).mp hrun
  exact ⟨t, reachableUnder_of_exec labels hs ht, of_decide_eq_true hP⟩

section Record

variable {η : Type} {start : η} {note : σ → ℓ → η → η}

/-- The machine with a record of its runs beside the state. The record is
updated from the state before each step and has no influence on the steps. -/
def record (M : Machine σ ℓ) (start : η) (note : σ → ℓ → η → η) : Machine (σ × η) ℓ where
  init p := M.init p.1 ∧ p.2 = start
  step p l := (M.step p.1 l).map (fun s' => (s', note p.1 l p.2))

theorem record_step {p p' : σ × η} {l : ℓ} (h : (M.record start note).step p l = some p') :
    M.step p.1 l = some p'.1 ∧ p'.2 = note p.1 l p.2 := by
  obtain ⟨_, hs', rfl⟩ := Option.map_eq_some_iff.mp h
  exact ⟨hs', rfl⟩

/-- A run of the recorded machine is a run of the machine. -/
theorem ReachableUnder.of_record (ok : σ → ℓ → Prop) {p : σ × η}
    (hreach : (M.record start note).ReachableUnder (fun q l => ok q.1 l) p) :
    M.ReachableUnder ok p.1 := by
  induction hreach with
  | init h => exact .init h.1
  | step l _ hok hs ih => exact .step l ih hok (record_step hs).1

end Record

/-- A run from one state to another by steps that all meet `ok`. -/
inductive Leads (M : Machine σ ℓ) (ok : σ → ℓ → Prop) : σ → σ → Prop
  | refl (s : σ) : Leads M ok s s
  | step {s s' t : σ} (l : ℓ) : ok s l → M.step s l = some s' → Leads M ok s' t → Leads M ok s t

theorem Leads.trans {s t u : σ} (hst : M.Leads ok s t) (htu : M.Leads ok t u) : M.Leads ok s u := by
  induction hst with
  | refl => exact htu
  | step l hok hs _ ih => exact .step l hok hs (ih htu)

theorem Leads.mono {ok' : σ → ℓ → Prop} (himp : ∀ s l, ok s l → ok' s l) {s t : σ}
    (hrun : M.Leads ok s t) : M.Leads ok' s t := by
  induction hrun with
  | refl => exact .refl _
  | step l hok hs _ ih => exact .step l (himp _ l hok) hs ih

/-- A relation that every step keeps holds between the ends of a run. -/
theorem Leads.relation {R : σ → σ → Prop} (hrefl : ∀ s, R s s)
    (htrans : ∀ s t u, R s t → R t u → R s u)
    (hstep : ∀ s l s', M.step s l = some s' → R s s') {s t : σ} (hrun : M.Leads ok s t) :
    R s t := by
  induction hrun with
  | refl => exact hrefl _
  | step l _ hs _ ih => exact htrans _ _ _ (hstep _ l _ hs) ih

/-- The rule for progress: where a measure can be made smaller as long as the
goal is not reached, the goal can be reached. -/
theorem exists_leads_of_measure {Inv Goal : σ → Prop} (size : σ → Nat)
    (hless : ∀ s, Inv s → ¬ Goal s → ∃ t, M.Leads ok s t ∧ Inv t ∧ size t < size s) (s : σ)
    (hs : Inv s) : ∃ t, M.Leads ok s t ∧ Inv t ∧ Goal t := by
  induction hn : size s using Nat.strongRecOn generalizing s with
  | ind n ih =>
    by_cases hgoal : Goal s
    · exact ⟨s, .refl s, hs, hgoal⟩
    · obtain ⟨t, hst, ht, hlt⟩ := hless s hs hgoal
      obtain ⟨u, htu, hu, hg⟩ := ih (size t) (hn ▸ hlt) t ht rfl
      exact ⟨u, hst.trans htu, hu, hg⟩

end Machine

end MosSmp.Lib
