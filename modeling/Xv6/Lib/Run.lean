import Mathlib.Data.List.Induction
import Mathlib.Tactic

/-!
# Runs of a Fallible Transition Function

A system that takes one step for each action, where a step may stop the system with an error.
Runs are over lists of actions, read from left to right.  `run_induction` is the invariant rule:
what holds initially and is kept by every step that succeeds holds after every run that succeeds.
The invariant may speak of the whole list of actions performed so far.
-/

namespace Xv6.Lib

/-- A computation that succeeds in two parts. -/
theorem bind_ok {α β ε : Type} {x : Except ε α} {f : α → Except ε β} {b : β}
    (h : (x >>= f) = .ok b) : ∃ a, x = .ok a ∧ f a = .ok b := by
  cases x with
  | error e => cases h
  | ok a => exact ⟨a, rfl, h⟩

/-- The computation succeeds, with a value that has the property. -/
def yields {α ε : Type*} (x : Except ε α) (P : α → Prop) [DecidablePred P] : Bool :=
  match x with
  | .ok a => decide (P a)
  | .error _ => false

/-- An evaluated computation gives its value and the property. -/
theorem exists_of_yields {α ε : Type*} {x : Except ε α} {P : α → Prop} [DecidablePred P]
    (h : yields x P = true) : ∃ a, x = .ok a ∧ P a := by
  cases x with
  | error e => cases h
  | ok a => exact ⟨a, rfl, of_decide_eq_true h⟩

/-- The computation stops with the error. -/
def stops {α ε : Type*} [DecidableEq ε] (x : Except ε α) (e : ε) : Bool :=
  match x with
  | .ok _ => false
  | .error stop => decide (stop = e)

theorem eq_error_of_stops {α ε : Type*} [DecidableEq ε] {x : Except ε α} {e : ε}
    (h : stops x e = true) : x = .error e := by
  cases x with
  | error stop => exact congrArg _ (of_decide_eq_true h)
  | ok a => cases h

/-- A computation in two parts that does not stop in one way. -/
theorem bind_ne_error {α β ε : Type} {x : Except ε α} {f : α → Except ε β} {e : ε}
    (hx : x ≠ .error e) (hf : ∀ a, x = .ok a → f a ≠ .error e) : (x >>= f) ≠ .error e := by
  cases x with
  | error e' => exact fun h ↦ hx (congrArg _ (Except.error.inj h))
  | ok a => exact hf a rfl

variable {State Action Stop : Type*} (step : State → Action → Except Stop State)

/-- Perform a list of actions. -/
def run (s : State) : List Action → Except Stop State
  | [] => .ok s
  | action :: actions =>
    match step s action with
    | .ok s' => run s' actions
    | .error stop => .error stop

@[simp]
theorem run_nil (s : State) : run step s [] = .ok s := rfl

theorem run_cons_ok {s s'' : State} {action : Action} {actions : List Action} :
    run step s (action :: actions) = .ok s'' ↔
      ∃ s', step s action = .ok s' ∧ run step s' actions = .ok s'' := by
  rw [run]
  cases step s action <;> simp

theorem run_append_ok {s s'' : State} {first second : List Action} :
    run step s (first ++ second) = .ok s'' ↔
      ∃ s', run step s first = .ok s' ∧ run step s' second = .ok s'' := by
  induction first generalizing s with
  | nil => simp
  | cons action first ih =>
    rw [List.cons_append, run_cons_ok]
    simp only [ih, run_cons_ok]
    constructor
    · rintro ⟨s₁, hstep, s₂, hfirst, hsecond⟩
      exact ⟨s₂, ⟨s₁, hstep, hfirst⟩, hsecond⟩
    · rintro ⟨s₂, ⟨s₁, hstep, hfirst⟩, hsecond⟩
      exact ⟨s₁, hstep, s₂, hfirst, hsecond⟩

theorem run_snoc_ok {s s'' : State} {actions : List Action} {action : Action} :
    run step s (actions ++ [action]) = .ok s'' ↔
      ∃ s', run step s actions = .ok s' ∧ step s' action = .ok s'' := by
  rw [run_append_ok]
  simp [run_cons_ok]

/-- A run stops with an error exactly when one of its steps does, after steps that succeed. -/
theorem run_error {s : State} {actions : List Action} {stop : Stop} :
    run step s actions = .error stop ↔
      ∃ before action after s', actions = before ++ action :: after ∧
        run step s before = .ok s' ∧ step s' action = .error stop := by
  induction actions generalizing s with
  | nil => simp
  | cons action actions ih =>
    rw [run]
    cases hstep : step s action with
    | error other =>
      constructor
      · rintro ⟨⟩
        exact ⟨[], action, actions, s, rfl, rfl, hstep⟩
      · rintro ⟨before, action', after, s', heq, hbefore, herror⟩
        cases before with
        | nil =>
          obtain ⟨rfl, rfl⟩ := List.cons.inj heq
          cases hbefore
          rw [hstep] at herror
          exact herror
        | cons head before =>
          obtain ⟨rfl, -⟩ := List.cons.inj heq
          obtain ⟨s₁, hhead, -⟩ := (run_cons_ok step).mp hbefore
          rw [hstep] at hhead
          cases hhead
    | ok s₁ =>
      simp only [ih]
      constructor
      · rintro ⟨before, action', after, s', rfl, hbefore, herror⟩
        exact ⟨action :: before, action', after, s', rfl,
          (run_cons_ok step).mpr ⟨s₁, hstep, hbefore⟩, herror⟩
      · rintro ⟨before, action', after, s', heq, hbefore, herror⟩
        cases before with
        | nil =>
          obtain ⟨rfl, rfl⟩ := List.cons.inj heq
          cases hbefore
          rw [hstep] at herror
          cases herror
        | cons head before =>
          obtain ⟨rfl, rfl⟩ := List.cons.inj heq
          obtain ⟨s₂, hhead, hrest⟩ := (run_cons_ok step).mp hbefore
          rw [hstep] at hhead
          obtain rfl := Except.ok.inj hhead
          exact ⟨before, action', after, s', rfl, hrest, herror⟩

/-- The invariant rule for runs. -/
theorem run_induction {init : State} {P : List Action → State → Prop} (hinit : P [] init)
    (hstep : ∀ actions action s s', run step init actions = .ok s → P actions s →
      step s action = .ok s' → P (actions ++ [action]) s')
    {actions : List Action} {s : State} (hrun : run step init actions = .ok s) : P actions s := by
  induction actions using List.reverseRecOn generalizing s with
  | nil =>
    obtain rfl := Except.ok.inj hrun
    exact hinit
  | append_singleton actions action ih =>
    obtain ⟨s', hactions, hlast⟩ := (run_snoc_ok step).mp hrun
    exact hstep actions action s' s hactions (ih hactions) hlast

/-- A condition holds in every state of a run. -/
def Along (init : State) (C : State → Prop) (actions : List Action) : Prop :=
  ∀ before s, before <+: actions → run step init before = .ok s → C s

/-- Whether a condition that can be decided holds in every state of a run. -/
def along (C : State → Prop) [DecidablePred C] (s : State) : List Action → Bool
  | [] => decide (C s)
  | action :: actions => decide (C s) &&
      match step s action with
      | .ok s' => along C s' actions
      | .error _ => true

theorem along_iff {C : State → Prop} [DecidablePred C] {init : State} {actions : List Action} :
    along step C init actions = true ↔ Along step init C actions := by
  induction actions generalizing init with
  | nil =>
    rw [along, decide_eq_true_iff]
    constructor
    · intro hinit before s hbefore hrun
      rw [List.prefix_nil] at hbefore
      rw [hbefore] at hrun
      exact Except.ok.inj hrun ▸ hinit
    · exact fun h ↦ h [] init (List.prefix_refl _) rfl
  | cons action actions ih =>
    rw [along, Bool.and_eq_true, decide_eq_true_iff]
    constructor
    · rintro ⟨hinit, hrest⟩ before s hbefore hrun
      cases before with
      | nil => exact Except.ok.inj hrun ▸ hinit
      | cons head before =>
        obtain ⟨rfl, htail⟩ := List.cons_prefix_cons.mp hbefore
        obtain ⟨s', hstep, hrun⟩ := (run_cons_ok step).mp hrun
        rw [hstep] at hrest
        exact ih.mp hrest before s htail hrun
    · intro h
      refine ⟨h [] init (List.nil_prefix) rfl, ?_⟩
      cases hstep : step init action with
      | error stop => rfl
      | ok s' =>
        refine ih.mpr fun before s hbefore hrun ↦ ?_
        exact h (action :: before) s (List.cons_prefix_cons.mpr ⟨rfl, hbefore⟩)
          ((run_cons_ok step).mpr ⟨s', hstep, hrun⟩)

/-- The invariant rule for runs along which a condition holds. -/
theorem run_induction_along {init : State} {P C : State → Prop} (hinit : P init)
    (hstep : ∀ s action s', C s → P s → step s action = .ok s' → P s')
    {actions : List Action} {s : State} (hcond : Along step init C actions)
    (hrun : run step init actions = .ok s) : P s := by
  refine run_induction step (P := fun actions s ↦ Along step init C actions → P s) (fun _ ↦ hinit)
    ?_ hrun hcond
  intro actions action s s' hrun ih hnext hcond
  have hbefore : actions <+: actions ++ [action] := List.prefix_append _ _
  exact hstep s action s' (hcond actions s hbefore hrun)
    (ih fun before t hle ↦ hcond before t (hle.trans hbefore)) hnext

end Xv6.Lib
