import Mathlib.Tactic

/-!
# Weakest Preconditions for Stateful Code that may Stop

Code that reads and changes a state and may stop with an error.  `wp x Q E s` says that `x`, started
in `s`, returns a value and a state that satisfy `Q`, or stops with an error that satisfies `E`.
Every computation here terminates, so this is total correctness up to the errors that `E` allows.
-/

namespace Xv6.Lib

variable {σ ε α β : Type}

/-- Started in `s`, the code returns in `Q` or stops in `E`. -/
def wp (x : StateT σ (Except ε) α) (Q : α → σ → Prop) (E : ε → Prop) (s : σ) : Prop :=
  match x s with
  | .ok (a, s') => Q a s'
  | .error e => E e

variable {x : StateT σ (Except ε) α} {f : α → StateT σ (Except ε) β} {Q Q' : α → σ → Prop}
  {R : β → σ → Prop} {E E' : ε → Prop} {s s' : σ}

@[simp]
theorem wp_pure (a : α) : wp (pure a : StateT σ (Except ε) α) Q E s ↔ Q a s := Iff.rfl

@[simp]
theorem wp_bind : wp (x >>= f) R E s ↔ wp x (fun a s' ↦ wp (f a) R E s') E s := by
  simp only [wp, bind, StateT.bind, Except.bind]
  cases x s <;> rfl

@[simp]
theorem wp_get {T : σ → σ → Prop} : wp (get : StateT σ (Except ε) σ) T E s ↔ T s s := Iff.rfl

@[simp]
theorem wp_set {T : PUnit → σ → Prop} :
    wp (set s' : StateT σ (Except ε) PUnit) T E s ↔ T ⟨⟩ s' := Iff.rfl

@[simp]
theorem wp_modify {T : PUnit → σ → Prop} (g : σ → σ) :
    wp (modify g : StateT σ (Except ε) PUnit) T E s ↔ T ⟨⟩ (g s) := Iff.rfl

@[simp]
theorem wp_throw (e : ε) : wp (throw e : StateT σ (Except ε) α) Q E s ↔ E e := Iff.rfl

/-- The rule of consequence. -/
theorem wp_mono (h : wp x Q E s) (hQ : ∀ a s', Q a s' → Q' a s') (hE : ∀ e, E e → E' e) :
    wp x Q' E' s := by
  unfold wp at *
  cases hx : x s with
  | ok result => rw [hx] at h; exact hQ _ _ h
  | error e => rw [hx] at h; exact hE _ h

/-- The rule of consequence for the returned value and state. -/
theorem wp_post (h : wp x Q E s) (hQ : ∀ a s', Q a s' → Q' a s') : wp x Q' E s :=
  wp_mono h hQ fun _ he ↦ he

/-- Two facts about one run of the code. -/
theorem wp_and (h : wp x Q E s) (h' : wp x Q' E' s) :
    wp x (fun a s' ↦ Q a s' ∧ Q' a s') E s := by
  unfold wp at *
  cases hx : x s with
  | ok result =>
    rw [hx] at h h'
    exact ⟨h, h'⟩
  | error e =>
    rw [hx] at h
    exact h

theorem wp_of_ok {a : α} (h : wp x Q E s) (hx : x s = .ok (a, s')) : Q a s' := by
  rw [wp, hx] at h
  exact h

theorem wp_of_run {a : α} (hx : x s = .ok (a, s')) (hQ : Q a s') : wp x Q E s := by
  rw [wp, hx]
  exact hQ

theorem wp_of_error {e : ε} (h : wp x Q E s) (hx : x s = .error e) : E e := by
  rw [wp, hx] at h
  exact h

/-- Code that may not stop returns. -/
theorem ok_of_wp (h : wp x Q (fun _ ↦ False) s) : ∃ a s', x s = .ok (a, s') ∧ Q a s' := by
  cases hx : x s with
  | ok result => exact ⟨result.1, result.2, rfl, wp_of_ok h hx⟩
  | error e => exact (wp_of_error h hx).elim

/-- Nothing is asked of the code. -/
theorem wp_trivial (hQ : ∀ a s', Q a s') (hE : ∀ e, E e) : wp x Q E s := by
  rw [wp]
  split
  · exact hQ _ _
  · exact hE _

/-- Loops over a list: an invariant of the elements already visited. -/
theorem wp_forM {l : List α} {body : α → StateT σ (Except ε) PUnit} (I : List α → σ → Prop)
    (hinit : I [] s)
    (hstep : ∀ done a rest s, l = done ++ a :: rest → I done s →
      wp (body a) (fun _ s' ↦ I (done ++ [a]) s') E s) :
    wp (l.forM body) (fun _ s' ↦ I l s') E s := by
  suffices h : ∀ rest done s, l = done ++ rest → I done s →
      wp (rest.forM body) (fun _ s' ↦ I l s') E s from h l [] s rfl hinit
  intro rest
  induction rest with
  | nil =>
    intro done s hl hI
    rw [List.append_nil] at hl
    subst hl
    exact hI
  | cons a rest ih =>
    intro done s hl hI
    change wp (body a >>= fun _ ↦ rest.forM body) _ E s
    rw [wp_bind]
    refine wp_post (hstep done a rest s hl hI) fun _ s' hI' ↦ ?_
    exact ih (done ++ [a]) s' (by simpa using hl) hI'

end Xv6.Lib
