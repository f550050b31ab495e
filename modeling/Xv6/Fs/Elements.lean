import Mathlib.Data.List.TakeWhile
import Xv6.Fs.Dirent

/-!
# The Elements of a Path

The elements of a path are its longest runs of characters other than `'/'`.  `skipelem` takes the
first of them off the path and stores it in a buffer of `DIRSIZ` bytes that is not cleared before:
an element that does not fill the buffer is followed by a NUL, and whatever was behind it stays.
-/

namespace Xv6.Fs

/-- The elements of a path. -/
def elements (path : List UInt8) : List (List UInt8) := (path.splitOn slash).filter (· ≠ [])

/-- The names that `skipelem` makes of the elements. -/
def names (path : List UInt8) : List (List UInt8) := (elements path).map fun e ↦ e.take DIRSIZ

@[simp]
theorem elements_nil : elements [] = [] := by decide

@[simp]
theorem elements_slash (path : List UInt8) : elements (slash :: path) = elements path := by
  rw [elements, List.splitOn, List.splitOnP_cons_eq_if_modifyHead, if_pos (beq_self_eq_true slash),
    List.filter_cons_of_neg (by simp)]
  rfl

theorem elements_dropWhile (path : List UInt8) :
    elements (path.dropWhile (· = slash)) = elements path := by
  induction path with
  | nil => rfl
  | cons c path ih =>
    by_cases hc : c = slash
    · rw [List.dropWhile_cons_of_pos (by simpa using hc), ih, hc, elements_slash]
    · rw [List.dropWhile_cons_of_neg (by simpa using hc)]

/-- A path that starts with an element. -/
theorem elements_run {path : List UInt8} (hrun : path.takeWhile (· ≠ slash) ≠ []) :
    elements path = path.takeWhile (· ≠ slash) :: elements (path.dropWhile (· ≠ slash)) := by
  have hplain : ∀ c ∈ path.takeWhile (· ≠ slash), (c == slash) = false := by
    intro c hc
    simpa using List.mem_takeWhile_imp hc
  conv_lhs => rw [← List.takeWhile_append_dropWhile (p := (· ≠ slash)) (l := path)]
  cases hrest : path.dropWhile (· ≠ slash) with
  | nil =>
    rw [List.append_nil, elements, List.splitOn, List.splitOnP_eq_singleton hplain,
      List.filter_cons_of_pos (by simpa using hrun)]
    rfl
  | cons c rest =>
    have hc : c = slash := by
      have hhead := List.head_dropWhile_not (fun c ↦ decide (c ≠ slash))
        (l := path) (by rw [hrest]; exact List.cons_ne_nil _ _)
      simp only [hrest, List.head_cons] at hhead
      simpa using hhead
    rw [hc, elements_slash, elements, List.splitOn,
      List.splitOnP_append_cons_of_forall_mem hplain slash (by simp), List.filter_cons_of_pos (by simpa using hrun)]
    rfl

/-- The head of a path without leading slashes starts an element. -/
theorem takeWhile_ne_nil {path : List UInt8} (h : path.dropWhile (· = slash) ≠ []) :
    (path.dropWhile (· = slash)).takeWhile (· ≠ slash) ≠ [] := by
  obtain ⟨c, rest, hpath⟩ := List.exists_cons_of_ne_nil h
  have hc : c ≠ slash := by
    have hhead := List.head_dropWhile_not (fun c ↦ decide (c = slash)) h
    simpa [hpath] using hhead
  rw [hpath, List.takeWhile_cons_of_pos (by simpa using hc)]
  exact List.cons_ne_nil _ _

/-- `skipelem` fails if the path has no element. -/
theorem skipelem_none {path : List UInt8} (h : skipelem path = none) : elements path = [] := by
  unfold skipelem at h
  dsimp only at h
  split at h
  · rename_i hnil
    rw [← elements_dropWhile, hnil, elements_nil]
  · cases h

/-- What `skipelem` takes off a path: the first element `e`. -/
structure Skips (path rest e : List UInt8) : Prop where
  first : elements path = e :: elements rest
  last : elements rest = [] → rest = []
  element_subset : e ⊆ path
  rest_subset : rest ⊆ path

/-- `skipelem` returns the first element. -/
theorem skipelem_some {path rest name : List UInt8} (h : skipelem path = some (rest, name)) :
    ∃ e, name = e.take DIRSIZ ∧ Skips path rest e := by
  unfold skipelem at h
  dsimp only at h
  split at h
  · cases h
  · rename_i hne
    obtain ⟨rfl, rfl⟩ := Prod.mk.inj (Option.some.inj h)
    have hsub : path.dropWhile (· = slash) ⊆ path := (List.dropWhile_suffix _).subset
    refine ⟨_, rfl, ?_, fun hnone ↦ ?_, ?_, ?_⟩
    · rw [elements_dropWhile, ← elements_dropWhile path, elements_run (takeWhile_ne_nil hne)]
    · by_contra hrest
      rw [elements_run (takeWhile_ne_nil hrest)] at hnone
      cases hnone
    · exact List.Subset.trans (List.takeWhile_prefix _).subset hsub
    · exact List.Subset.trans (List.dropWhile_suffix _).subset
        (List.Subset.trans (List.dropWhile_suffix _).subset hsub)

/-! ## The name buffer -/

/-- `skipelem` with the bytes of the buffer `name`. -/
def skipelemInto (path name : List UInt8) : Option (List UInt8 × List UInt8) :=
  let s := path.dropWhile (· = slash)
  if s = [] then none
  else
    let path := s.dropWhile (· ≠ slash)
    let len := s.length - path.length
    let name :=
      if DIRSIZ ≤ len then s.take DIRSIZ ++ name.drop DIRSIZ
      else (s.take len ++ name.drop len).set len 0
    some (path.dropWhile (· = slash), name)

/-- The buffer holds the first `DIRSIZ` bytes of the element `e`, terminated if it is shorter. -/
structure HoldsName (buffer e : List UInt8) : Prop where
  length : buffer.length = DIRSIZ
  long : DIRSIZ ≤ e.length → buffer = e.take DIRSIZ
  short : e.length < DIRSIZ → ∃ rest, buffer = e ++ 0 :: rest

/-- What `namecmp` sees of the buffer. -/
theorem HoldsName.cstr {buffer e : List UInt8} (h : HoldsName buffer e) (hnul : 0 ∉ e) :
    cstr DIRSIZ buffer = e.take DIRSIZ := by
  have hplain : ∀ c ∈ e.take DIRSIZ, decide (c ≠ 0) = true := by
    intro c hc
    have hne : c ≠ 0 := fun hzero ↦ hnul (hzero ▸ List.mem_of_mem_take hc)
    simpa using hne
  rw [Fs.cstr, List.take_of_length_le h.length.le]
  rcases Nat.lt_or_ge e.length DIRSIZ with hlt | hge
  · obtain ⟨rest, hbuffer⟩ := h.short hlt
    rw [List.take_of_length_le hlt.le] at hplain ⊢
    rw [hbuffer, List.takeWhile_append_of_pos hplain, List.takeWhile_cons_of_neg (by simp),
      List.append_nil]
  · rw [h.long hge]
    exact List.takeWhile_eq_self_iff.mpr hplain

/-- The buffer after the stores of `skipelem`. -/
theorem holdsName_store {name e rest : List UInt8} (hname : name.length = DIRSIZ) :
    HoldsName (if DIRSIZ ≤ e.length then (e ++ rest).take DIRSIZ ++ name.drop DIRSIZ
      else ((e ++ rest).take e.length ++ name.drop e.length).set e.length 0) e := by
  split
  · rename_i hle
    have hbuffer : (e ++ rest).take DIRSIZ ++ name.drop DIRSIZ = e.take DIRSIZ := by
      rw [List.take_append_of_le_length hle, List.drop_of_length_le hname.le, List.append_nil]
    rw [hbuffer]
    refine ⟨List.length_take_of_le hle, fun _ ↦ rfl, fun hlt ↦ ?_⟩
    omega
  · rename_i hlt
    rw [Nat.not_le] at hlt
    obtain ⟨c, tail, hdrop⟩ : ∃ c tail, name.drop e.length = c :: tail :=
      List.exists_cons_of_length_pos (by rw [List.length_drop]; omega)
    have hlength : tail.length + 1 = DIRSIZ - e.length := by
      rw [← List.length_cons, ← hdrop, List.length_drop, hname]
    have hbuffer : ((e ++ rest).take e.length ++ name.drop e.length).set e.length 0 =
        e ++ 0 :: tail := by
      rw [List.take_left, hdrop, List.set_append_right _ _ le_rfl, Nat.sub_self, List.set_cons_zero]
    rw [hbuffer]
    refine ⟨?_, fun hle ↦ ?_, fun _ ↦ ⟨tail, rfl⟩⟩
    · rw [List.length_append, List.length_cons]
      omega
    · omega

/-- The buffer does not change which path is left, and it then holds the element. -/
theorem skipelemInto_eq (path : List UInt8) {name : List UInt8} (hname : name.length = DIRSIZ) :
    match skipelemInto path name with
    | none => skipelem path = none
    | some (rest, buffer) => ∃ e, skipelem path = some (rest, e.take DIRSIZ) ∧
        Skips path rest e ∧ HoldsName buffer e := by
  unfold skipelemInto
  dsimp only
  by_cases hnil : path.dropWhile (· = slash) = []
  · rw [if_pos hnil]
    unfold skipelem
    dsimp only
    rw [if_pos hnil]
  · rw [if_neg hnil]
    have hskip : skipelem path = some (((path.dropWhile (· = slash)).dropWhile
        (· ≠ slash)).dropWhile (· = slash),
        ((path.dropWhile (· = slash)).takeWhile (· ≠ slash)).take DIRSIZ) := by
      unfold skipelem
      dsimp only
      rw [if_neg hnil]
    obtain ⟨e, he, hskips⟩ := skipelem_some hskip
    have helement : e = (path.dropWhile (· = slash)).takeWhile (· ≠ slash) := by
      have hfirst := hskips.first
      rw [← elements_dropWhile, elements_run (takeWhile_ne_nil hnil)] at hfirst
      exact (List.cons.inj hfirst).1.symm
    refine ⟨e, by rw [hskip, he], hskips, ?_⟩
    generalize path.dropWhile (· = slash) = s at helement
    have hsplit : s = e ++ s.dropWhile (· ≠ slash) := by
      rw [helement, List.takeWhile_append_dropWhile]
    have hlen : s.length - (s.dropWhile (· ≠ slash)).length = e.length := by
      have hlength := congrArg List.length hsplit
      rw [List.length_append] at hlength
      omega
    rw [hlen]
    generalize s.dropWhile (· ≠ slash) = rest at hsplit
    rw [hsplit]
    exact holdsName_store hname

/-- Call `skipelem` until it returns 0, with one buffer: what the buffer holds after each call. -/
def skipelems : ℕ → List UInt8 → List UInt8 → Option (List (List UInt8))
  | 0, _, _ => none
  | fuel + 1, path, name =>
    match skipelemInto path name with
    | none => some []
    | some (rest, buffer) => (skipelems fuel rest buffer).map (buffer :: ·)

/-- Each element takes at least one byte. -/
theorem length_skipelem {path rest name : List UInt8} (h : skipelem path = some (rest, name)) :
    rest.length < path.length := by
  unfold skipelem at h
  dsimp only at h
  split at h
  · cases h
  · rename_i hne
    obtain ⟨rfl, -⟩ := Prod.mk.inj (Option.some.inj h)
    have hrun := List.length_pos_iff.mpr (takeWhile_ne_nil hne)
    have hsplit := congrArg List.length (List.takeWhile_append_dropWhile
      (p := (· ≠ slash)) (l := path.dropWhile (· = slash)))
    rw [List.length_append] at hsplit
    calc (((path.dropWhile _).dropWhile _).dropWhile _).length
        ≤ ((path.dropWhile (· = slash)).dropWhile (· ≠ slash)).length :=
          (List.dropWhile_suffix _).length_le
      _ < (path.dropWhile (· = slash)).length := by omega
      _ ≤ path.length := (List.dropWhile_suffix _).length_le

/-- The calls of `skipelem` yield the elements of the path. -/
theorem skipelems_elements {fuel : ℕ} {path name : List UInt8} (hfuel : path.length < fuel)
    (hname : name.length = DIRSIZ) :
    ∃ buffers, skipelems fuel path name = some buffers ∧
      List.Forall₂ HoldsName buffers (elements path) := by
  induction fuel generalizing path name with
  | zero => omega
  | succ fuel ih =>
    have hspec := skipelemInto_eq path hname
    rw [skipelems]
    cases hinto : skipelemInto path name with
    | none =>
      rw [hinto] at hspec
      refine ⟨[], rfl, ?_⟩
      rw [skipelem_none hspec]
      exact .nil
    | some result =>
      obtain ⟨rest, buffer⟩ := result
      rw [hinto] at hspec
      obtain ⟨e, hskip, hskips, hholds⟩ := hspec
      have hshorter : rest.length < fuel := by
        have := length_skipelem hskip
        omega
      obtain ⟨buffers, hrest, hall⟩ := ih hshorter hholds.length
      refine ⟨buffer :: buffers, ?_, ?_⟩
      · dsimp only
        rw [hrest, Option.map_some]
      · rw [hskips.first]
        exact .cons hholds hall

end Xv6.Fs
