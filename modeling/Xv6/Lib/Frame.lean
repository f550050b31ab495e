import Xv6.Lib.Wp

/-!
# Code that Leaves a Part of the State Alone

`Frames put x` says that `x` neither reads nor changes the part of the state that `put` replaces:
it runs in the same way whatever that part is.
-/

namespace Xv6.Lib

variable {σ ε α β ρ : Type} {put : ρ → σ → σ}

/-- The code does not depend on the part of the state that `put` replaces, and keeps it. -/
def Frames (put : ρ → σ → σ) (x : StateT σ (Except ε) α) : Prop :=
  ∀ r s, x (put r s) = (x s).map fun result ↦ (result.1, put r result.2)

namespace Frames

variable {x : StateT σ (Except ε) α} {f : α → StateT σ (Except ε) β}

theorem pure (a : α) : Frames put (Pure.pure a : StateT σ (Except ε) α) := fun _ _ ↦ rfl

theorem throw (e : ε) : Frames put (MonadExcept.throw e : StateT σ (Except ε) α) := fun _ _ ↦ rfl

theorem bind (hx : Frames put x) (hf : ∀ a, Frames put (f a)) : Frames put (x >>= f) := by
  intro r s
  change (x (put r s)).bind (fun result ↦ f result.1 result.2) =
    ((x s).bind fun result ↦ f result.1 result.2).map _
  rw [hx r s]
  cases x s with
  | error e => rfl
  | ok result => exact hf result.1 r result.2

/-- Reading the rest of the state. -/
theorem get_bind {g : σ → StateT σ (Except ε) β} (heq : ∀ r s, g (put r s) = g s)
    (hg : ∀ s, Frames put (g s)) : Frames put (get >>= g) := by
  intro r s
  change g (put r s) (put r s) = (g s s).map _
  rw [heq]
  exact hg s r s

theorem ite {c : Prop} [Decidable c] {y : StateT σ (Except ε) α} (hx : Frames put x)
    (hy : Frames put y) : Frames put (if c then x else y) := by
  split
  · exact hx
  · exact hy

theorem forM {l : List α} {body : α → StateT σ (Except ε) PUnit} (h : ∀ a, Frames put (body a)) :
    Frames put (l.forM body) := by
  induction l with
  | nil => exact .pure _
  | cons a l ih => exact .bind (h a) fun _ ↦ ih

/-- The code can be run with another value of that part. -/
theorem wp (h : Frames put x) (get : σ → ρ) (hput : ∀ s, put (get s) s = s)
    (hget : ∀ r s, get (put r s) = r) {Q : α → σ → Prop} {E : ε → Prop} {r : ρ} {s : σ}
    (hwp : Lib.wp x Q E (put r s)) :
    Lib.wp x (fun a s' ↦ Q a (put r s') ∧ get s' = get s) E s := by
  have hself := h (get s) s
  rw [hput] at hself
  unfold Lib.wp at hwp ⊢
  rw [h r s] at hwp
  cases hx : x s with
  | error e =>
    rw [hx] at hwp
    exact hwp
  | ok result =>
    rw [hx] at hwp hself
    refine ⟨hwp, ?_⟩
    have heq : result.2 = put (get s) result.2 := congrArg Prod.snd (Except.ok.inj hself)
    change get result.2 = get s
    rw [heq, hget]

end Frames

end Xv6.Lib
