import Xv6.Lib.Wp

/-!
# Code that Keeps a Part of the State

`Preserves view E x` says that `x` keeps what `view` shows of the state, from every state, and stops
only with errors in `E`.
-/

namespace Xv6.Lib

variable {σ ε α β ρ τ : Type} {view : σ → ρ} {E : ε → Prop}

/-- What `view` shows is the same after the code has run. -/
def Preserves (view : σ → ρ) (E : ε → Prop) (x : StateT σ (Except ε) α) : Prop :=
  ∀ s, wp x (fun _ s' ↦ view s' = view s) E s

namespace Preserves

variable {x : StateT σ (Except ε) α} {f : α → StateT σ (Except ε) β}

theorem pure (a : α) : Preserves view E (Pure.pure a : StateT σ (Except ε) α) := fun _ ↦ rfl

theorem throw {e : ε} (he : E e) :
    Preserves view E (MonadExcept.throw e : StateT σ (Except ε) α) := fun _ ↦ he

theorem bind (hx : Preserves view E x) (hf : ∀ a, Preserves view E (f a)) :
    Preserves view E (x >>= f) := by
  intro s
  rw [wp_bind]
  exact wp_post (hx s) fun a s₁ h₁ ↦ wp_post (hf a s₁) fun _ s₂ h₂ ↦ h₂.trans h₁

theorem get_bind {g : σ → StateT σ (Except ε) β} (hg : ∀ s, Preserves view E (g s)) :
    Preserves view E (get >>= g) := fun s ↦ hg s s

theorem modify {g : σ → σ} (hg : ∀ s, view (g s) = view s) :
    Preserves view E (modify g : StateT σ (Except ε) PUnit) := fun s ↦ hg s

theorem ite {c : Prop} [Decidable c] {y : StateT σ (Except ε) α} (hx : c → Preserves view E x)
    (hy : ¬ c → Preserves view E y) : Preserves view E (if c then x else y) := by
  split
  · rename_i hc
    exact hx hc
  · rename_i hc
    exact hy hc

theorem forM {l : List α} {body : α → StateT σ (Except ε) PUnit}
    (h : ∀ a, Preserves view E (body a)) : Preserves view E (l.forM body) := by
  induction l with
  | nil => exact .pure _
  | cons a l ih => exact .bind (h a) fun _ ↦ ih

/-- What is computed from the view is kept too. -/
theorem map (h : Preserves view E x) (g : ρ → τ) : Preserves (fun s ↦ g (view s)) E x :=
  fun s ↦ wp_post (h s) fun _ _ heq ↦ congrArg g heq

/-- More errors may be allowed. -/
theorem weaken {E' : ε → Prop} (h : Preserves view E x) (hE : ∀ e, E e → E' e) :
    Preserves view E' x :=
  fun s ↦ wp_mono (h s) (fun _ _ heq ↦ heq) hE

end Preserves

end Xv6.Lib
