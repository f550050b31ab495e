import Xv6.Fs.Inode

/-!
# Code that Logs what it Stores

A block that is changed in its buffer and not passed to `log_write` is on the disk as it was, and is
read again as it was once the buffer is used for another block.  The block allocator, `bmap` and
`iupdate` log every block that they change.
-/

namespace Xv6.Fs

open Lib

variable {α β : Type}

/-- A block that has not been logged has not changed. -/
structure Unlogged (s s' : FsState) : Prop where
  logged : s.logged ⊆ s'.logged
  disk : ∀ b, b ∉ s'.logged → s'.disk b = s.disk b

namespace Unlogged

variable {s s' s'' : FsState}

theorem refl (s : FsState) : Unlogged s s := ⟨List.Subset.refl _, fun _ _ ↦ rfl⟩

theorem trans (h : Unlogged s s') (h' : Unlogged s' s'') : Unlogged s s'' where
  logged := List.Subset.trans h.logged h'.logged
  disk b hb := by rw [h'.disk b hb, h.disk b fun hmem ↦ hb (h'.logged hmem)]

end Unlogged

/-- The code logs every block that it changes. -/
def Logs (x : FsM α) : Prop := ∀ s, wp x (fun _ s' ↦ Unlogged s s') (fun _ ↦ True) s

namespace Logs

variable {x : FsM α} {f : α → FsM β}

theorem pure (a : α) : Logs (Pure.pure a : FsM α) := fun s ↦ .refl s

theorem panic (p : Panic) : Logs (panic p : FsM α) := fun _ ↦ trivial

theorem bind (hx : Logs x) (hf : ∀ a, Logs (f a)) : Logs (x >>= f) := by
  intro s
  rw [wp_bind]
  exact wp_post (hx s) fun a s₁ h₁ ↦ wp_post (hf a s₁) fun _ _ h₂ ↦ h₁.trans h₂

theorem get_bind {g : FsState → FsM β} (hg : ∀ s, Logs (g s)) : Logs (get >>= g) := fun s ↦ hg s s

theorem ite {c : Prop} [Decidable c] {y : FsM α} (hx : Logs x) (hy : Logs y) :
    Logs (if c then x else y) := by
  split
  · exact hx
  · exact hy

theorem inode (ip : Fin NINODE) : Logs (inode ip) := fun s ↦ .refl s

theorem modifyCopy (ip : Fin NINODE) (g : Dinode → Dinode) : Logs (modifyCopy ip g) :=
  fun _ ↦ ⟨List.Subset.refl _, fun _ _ ↦ rfl⟩

theorem bload (b : ℕ) : Logs (bload b) := fun s ↦ .refl s

theorem bread (b : ℕ) : Logs (bread b) := by
  intro s
  rw [Fs.bread, wp_bind, wp_get]
  split
  · exact trivial
  · exact ⟨List.Subset.refl _, fun _ _ ↦ rfl⟩

theorem brelse (b : ℕ) : Logs (brelse b) := by
  intro s
  rw [Fs.brelse, wp_bind, wp_get]
  split
  · exact ⟨List.Subset.refl _, fun _ _ ↦ rfl⟩
  · exact trivial

/-- A block is changed and then logged. -/
theorem store (b : ℕ) (data : Block) (hx : Logs x) :
    Logs (bstore b data >>= fun _ ↦ logWrite b >>= fun _ ↦ x) := by
  intro s
  rw [wp_bind, wp_bstore, wp_bind, logWrite, wp_bind, wp_get]
  split
  · exact trivial
  · rw [wp_set]
    refine wp_post (hx _) fun _ s' h ↦ Unlogged.trans ⟨?_, fun c hc ↦ ?_⟩ h
    · dsimp only
      split
      · exact List.Subset.refl _
      · exact List.subset_append_left _ _
    · refine Function.update_of_ne ?_ _ _
      rintro rfl
      refine hc ?_
      dsimp only
      split
      · assumption
      · exact List.mem_append_right _ (List.mem_singleton_self _)

theorem bzero (bno : ℕ) : Logs (bzero bno) := (bread bno).bind fun _ ↦ .store _ _ (brelse bno)

theorem balloc : Logs balloc := by
  refine get_bind fun s ↦ ?_
  split
  · exact (bread _).bind fun _ ↦ .store _ _ ((brelse _).bind fun _ ↦ (bzero _).bind fun _ ↦ .pure _)
  · exact .panic _

theorem iupdate (ip : Fin NINODE) : Logs (iupdate ip) :=
  (inode ip).bind fun _ ↦ get_bind fun _ ↦ (bread _).bind fun _ ↦ .store _ _ (brelse _)

theorem bmap (ip : Fin NINODE) (bn : ℕ) : Logs (bmap ip bn) := by
  have hentry : ∀ addr, Logs (do
      let a ← Fs.bread addr
      if a.word (bn - NDIRECT) = 0 then
        let new ← Fs.balloc
        let a ← Fs.bload addr
        bstore addr (a.setWord (bn - NDIRECT) new)
        logWrite addr
        Fs.brelse addr
        return new
      else
        Fs.brelse addr
        return a.word (bn - NDIRECT)) := fun addr ↦
    (bread addr).bind fun _ ↦ .ite
      (balloc.bind fun _ ↦ (bload addr).bind fun _ ↦ .store _ _
        ((brelse addr).bind fun _ ↦ .pure _))
      ((brelse addr).bind fun _ ↦ .pure _)
  refine (inode ip).bind fun i ↦ ?_
  split
  · exact .ite (balloc.bind fun _ ↦ (modifyCopy ip _).bind fun _ ↦ .pure _) (.pure _)
  · refine .ite ?_ (.panic _)
    split
    · exact balloc.bind fun _ ↦ (modifyCopy ip _).bind fun _ ↦ hentry _
    · exact hentry _

end Logs

end Xv6.Fs
