import Xv6.Vm.Image

/-!
# The Stack of a Program

`exec` makes a stack of one page above the program, with a page below it that the program cannot
use, and puts the arguments on the stack: first the strings, from the end of the page down, and then
the array of pointers to them.
-/

namespace Xv6.Vm

open Lib

variable {kernel : ℕ → Option (ℕ × ℕ)} {pool : Pool} {s s' : Phys} {pt vpn n : ℕ}
  {E : Stop → Prop}

/-! ## The guard page -/

/-- The bits that `uvmclear` keeps. -/
abbrev CLEAR : ℕ := 2 ^ 64 - 1 - PTE_U

theorem shiftRight_clear {entry : ℕ} (hentry : entry < 2 ^ 64) :
    (entry &&& CLEAR) >>> 10 = entry >>> 10 := by
  apply Nat.eq_of_testBit_eq
  intro i
  rw [Nat.testBit_shiftRight, Nat.testBit_shiftRight, Nat.testBit_and,
    show CLEAR = 2 ^ 64 - (2 ^ 4 + 1) from rfl, Nat.testBit_two_pow_sub_succ (by decide),
    Nat.testBit_two_pow]
  by_cases hi : 10 + i < 64
  · have hne : ¬ 4 = 10 + i := by omega
    simp [hi, hne]
  · rw [Nat.testBit_lt_two_pow (hentry.trans_le (Nat.pow_le_pow_right (by decide)
      (Nat.not_lt.mp hi))), Bool.false_and]

/-- Without the flag for the user. -/
theorem binding_clear {entry frame flags : ℕ} (hentry : entry < 2 ^ 64)
    (h : binding entry = some (frame, flags)) :
    binding (entry &&& CLEAR) = some (frame, flags &&& (0x3FF - PTE_U)) := by
  have hV : (entry &&& CLEAR) &&& PTE_V = entry &&& PTE_V := by
    rw [Nat.and_assoc]
    rfl
  have hpa : pte2pa (entry &&& CLEAR) = pte2pa entry := by
    rw [pte2pa, shiftRight_clear hentry, pte2pa]
  have hflags : pteFlags (entry &&& CLEAR) = pteFlags entry &&& (0x3FF - PTE_U) := by
    rw [pteFlags, pteFlags, Nat.and_assoc, Nat.and_assoc]
    rfl
  rw [binding, Option.map_eq_some_iff] at h ⊢
  obtain ⟨m, hm, heq⟩ := h
  obtain ⟨rfl, rfl⟩ := Prod.mk.inj heq
  refine ⟨m, ?_, by rw [hflags]⟩
  rw [child, hV, hpa]
  exact hm

/-- The flags of a page of user memory change. -/
theorem Space.setFlags {frame flags flags' : ℕ} (h : Space kernel pool s pt n []) (hvpn : vpn < n)
    (hlookup : lookup s.page pt vpn = some (frame, flags)) (hleaf : flags' ≠ PTE_V)
    (hwf : WellFormed s' pt) (hgrown : Extends pt s s')
    (hset : ∀ vpn' < 2 ^ 27, lookup s'.page pt vpn' =
      if vpn' = vpn then some (frame, flags') else lookup s.page pt vpn') :
    Space kernel pool s' pt n [] := by
  have hsmall : n < 2 ^ 27 := h.size_le.trans_lt (by decide)
  refine h.grow hwf hgrown ?_ (fun vpn' hvpn' ↦ ?_) fun vpn' hvpn' hn ↦ ?_
  · refine congrArg (· ++ []) (List.filterMap_congr fun vpn' hvpn' ↦ ?_)
    rw [List.mem_range'_1] at hvpn'
    rw [hset vpn' (by omega)]
    split
    · rename_i heq
      rw [heq, hlookup]
      rfl
    · rfl
  · rw [hset vpn' (by omega)]
    split
    · exact ⟨frame, flags', rfl, hleaf⟩
    · exact h.mapped vpn' hvpn'
  · rw [hset vpn' hvpn', if_neg (by omega)]
    exact h.rest vpn' hvpn' hn

/-- `uvmclear` of a page of user memory. -/
theorem Space.uvmclear_spec {frame flags : ℕ} (h : Space kernel pool s pt n []) (hvpn : vpn < n)
    (hlookup : lookup s.page pt vpn = some (frame, flags))
    (hleaf : flags &&& (0x3FF - PTE_U) ≠ PTE_V) :
    wp (uvmclear pt (vpn * PGSIZE)) (fun _ s' ↦ Space kernel pool s' pt n [] ∧
      (∀ vpn' < 2 ^ 27, lookup s'.page pt vpn' =
        if vpn' = vpn then some (frame, flags &&& (0x3FF - PTE_U)) else lookup s.page pt vpn') ∧
      ∀ m ∈ frames s.page pt 0 n, s'.page m = s.page m) E s := by
  have hsize := h.size_le
  have hva : vpn * PGSIZE < MAXVA := by
    simp only [PHYSTOP, KERNBASE, PGSIZE, MAXVA] at hsize ⊢
    omega
  have hdiv : vpn * PGSIZE / PGSIZE = vpn := Nat.mul_div_cancel vpn (by decide)
  obtain ⟨m, hm⟩ : ∃ m, follow s.page pt (path vpn) = some m := by
    rw [← Option.ne_none_iff_exists']
    intro hnone
    rw [lookup_of_follow_none hnone] at hlookup
    cases hlookup
  have hbinding := hlookup
  rw [lookup_of_follow hm] at hbinding
  have hclear := binding_clear (Buffer.getLE_lt _ 8 _) hbinding
  rw [uvmclear, wp_bind]
  refine wp_post (walk_find h.wf.tree.aligned hva) ?_
  rintro _ s ⟨rfl, rfl⟩
  have hi : vpn % 512 < 512 := Nat.mod_lt _ (by decide)
  rw [hdiv, hm, Option.map_some]
  dsimp only
  rw [wp_bind, wp_load_entry hi, wp_store_entry hi]
  have hentry : table s.page m (vpn % 512) &&& CLEAR < 2 ^ 64 :=
    Nat.and_lt_two_pow _ (by decide)
  obtain ⟨hwf, hgrown, hset⟩ := h.wf.setEntry hm hentry
  have hset' (vpn' : ℕ) (hvpn' : vpn' < 2 ^ 27) :=
    (hset vpn' (hvpn.trans_le (hsize.trans (by decide))) hvpn').trans
      (congrArg (fun b ↦ if vpn' = vpn then b else lookup s.page pt vpn') hclear)
  refine ⟨h.setFlags hvpn hlookup hleaf hwf hgrown hset', hset', fun k hk ↦ ?_⟩
  exact h.page_of_grown hgrown (by simp [hk])

/-- A program of `n` pages with its guard page and its stack. -/
structure Guarded (kernel : ℕ → Option (ℕ × ℕ)) (pool : Pool) (s : Phys) (pt n : ℕ)
    (image : ℕ → UInt8) : Prop where
  space : Space kernel pool s pt (n + 2) []
  byte : ∀ va < n * PGSIZE, userByte s.page pt va = some (image va)
  guard : userFrame s.page pt n = none
  stack : ∃ frame, userFrame s.page pt (n + 1) = some frame

variable {image : ℕ → UInt8} {sz : ℕ}

theorem Image.round (h : Image kernel pool s pt sz image) :
    Image kernel pool s pt (pgroundup sz) image := by
  have hcount : pageCount (pgroundup sz) = pageCount sz := by
    rw [pgroundup_eq h.space.fits, pageCount_mul]
  refine ⟨?_, ?_, ?_, ?_⟩
  · rw [hcount]
    exact h.space
  · rw [hcount]
    exact h.user
  · rw [hcount]
    exact h.byte
  · rw [hcount]
    exact h.zero

/-- The page below the stack is taken from the user. -/
theorem Image.uvmclear_guard (h : Image kernel pool s pt ((n + 2) * PGSIZE) image) :
    wp (uvmclear pt (n * PGSIZE)) (fun _ s' ↦ Guarded kernel pool s' pt n image) E s := by
  obtain ⟨hspace, huser, hbyte, -⟩ := h
  rw [pageCount_mul] at hspace huser hbyte
  have hsize := hspace.size_le
  have hmax : n + 1 < MAXVA / PGSIZE := by
    simp only [PHYSTOP, KERNBASE, PGSIZE, MAXVA] at hsize ⊢
    omega
  have hmax' : MAXVA / PGSIZE < 2 ^ 27 := by decide
  obtain ⟨frame, hframe⟩ := huser n (by omega)
  obtain ⟨frame', hframe'⟩ := huser (n + 1) (by omega)
  refine wp_post (hspace.uvmclear_spec (by omega) hframe (by decide)) fun _ s' hclear ↦ ?_
  obtain ⟨hspace', hlookup, hpage⟩ := hclear
  have hview : SameView s s' pt n := by
    refine sameView_of_le (Nat.le_add_right n 2) (fun vpn hvpn ↦ ?_) hpage
    rw [hlookup vpn (by omega), if_neg hvpn.ne]
  refine ⟨hspace', fun va hva ↦ ?_, ?_, frame', ?_⟩
  · rw [hview.userByte (div_lt_of_lt_mul hva)]
    exact hbyte va (hva.trans_le (Nat.mul_le_mul_right _ (Nat.le_add_right n 2)))
  · rw [userFrame, if_pos (by omega), hlookup n (by omega), if_pos rfl, Option.bind_some]
    exact if_pos (by decide : PTE_USER &&& (0x3FF - PTE_U) &&& PTE_U = 0)
  · rw [userFrame, if_pos hmax, hlookup (n + 1) (by omega), if_neg (by omega), hframe',
      Option.bind_some]
    exact if_neg (by decide : ¬ PTE_USER &&& PTE_U = 0)

/-! ## The arguments -/

/-- The next multiple of 16. -/
def roundUp16 (n : ℕ) : ℕ := (n + 15) / 16 * 16

/-- What the strings of the arguments take from the stack. -/
def argRoom (argv : List (List UInt8)) : ℕ := (argv.map fun arg ↦ roundUp16 (arg.length + 1)).sum

/-- What the arguments take from the stack. -/
def stackRoom (argv : List (List UInt8)) : ℕ := argRoom argv + roundUp16 ((argv.length + 1) * 8)

/-- The strings of the arguments below `sp`, each below the one before, at the addresses `ustack`;
the last one is at `last`. -/
def Pushed (mem : Pages) (pt : ℕ) : ℕ → List (List UInt8) → List ℕ → ℕ → Prop
  | sp, [], ustack, last => ustack = [] ∧ last = sp
  | sp, arg :: argv, ustack, last => ∃ u us, ustack = u :: us ∧ u + arg.length + 1 ≤ sp ∧
      Read mem pt u (arg ++ [0]) ∧ Pushed mem pt u argv us last

/-- The arguments on the stack page from `base` on: at `sp` the pointers `ustack` to the strings and a
null pointer, and above them the strings. -/
structure ArgStack (mem : Pages) (pt base sp : ℕ) (argv : List (List UInt8)) (ustack : List ℕ) :
    Prop where
  aligned : sp % 16 = 0
  low : base ≤ sp
  length : ustack.length = argv.length
  pointer : ∀ i u : ℕ, ustack[i]? = some u → Read mem pt (sp + 8 * i) (leBytes 8 u)
  null : Read mem pt (sp + 8 * argv.length) (leBytes 8 0)
  string : ∀ (i u : ℕ) (arg : List UInt8), ustack[i]? = some u → argv[i]? = some arg →
    Read mem pt u (arg ++ [0])
  above : ∀ i u : ℕ, ustack[i]? = some u → sp + 8 * (argv.length + 1) ≤ u
  high : ∀ (i u : ℕ) (arg : List UInt8), ustack[i]? = some u → argv[i]? = some arg →
    u + arg.length + 1 ≤ base + PGSIZE
  apart : ∀ (i j u v : ℕ) (arg : List UInt8), i < j → ustack[i]? = some u → ustack[j]? = some v →
    argv[j]? = some arg → v + arg.length + 1 ≤ u

namespace Pushed

variable {mem mem' : Pages} {argv : List (List UInt8)} {ustack : List ℕ} {sp last : ℕ}

theorem length (h : Pushed mem pt sp argv ustack last) : ustack.length = argv.length := by
  induction argv generalizing sp ustack with
  | nil => exact congrArg List.length h.1
  | cons arg argv ih =>
    obtain ⟨u, us, rfl, -, -, hrest⟩ := h
    rw [List.length_cons, ih hrest, List.length_cons]

theorem last_le (h : Pushed mem pt sp argv ustack last) : last ≤ sp := by
  induction argv generalizing sp ustack with
  | nil => exact h.2.le
  | cons arg argv ih =>
    obtain ⟨u, us, -, hle, -, hrest⟩ := h
    have := ih hrest
    omega

/-- Memory below the strings changes. -/
theorem changed {low high : ℕ} (h : Pushed mem pt sp argv ustack last)
    (hchanged : Changed mem pt low high mem') (htable : UserTable mem pt) (hhigh : high ≤ last) :
    Pushed mem' pt sp argv ustack last := by
  induction argv generalizing sp ustack with
  | nil => exact h
  | cons arg argv ih =>
    obtain ⟨u, us, rfl, hle, hread, hrest⟩ := h
    have hu := hrest.last_le
    exact ⟨u, us, rfl, hle, hchanged.read htable hread (.inr (hhigh.trans hu)), ih hrest⟩

theorem get (h : Pushed mem pt sp argv ustack last) {i u : ℕ} {arg : List UInt8}
    (hu : ustack[i]? = some u) (harg : argv[i]? = some arg) :
    Read mem pt u (arg ++ [0]) ∧ last ≤ u ∧ u + arg.length + 1 ≤ sp := by
  induction argv generalizing sp ustack i with
  | nil => cases harg
  | cons arg' argv ih =>
    obtain ⟨u', us, rfl, hle, hread, hrest⟩ := h
    cases i with
    | zero =>
      obtain rfl : u' = u := Option.some.inj hu
      obtain rfl : arg' = arg := Option.some.inj harg
      exact ⟨hread, hrest.last_le, hle⟩
    | succ i =>
      obtain ⟨hread', hlast, hle'⟩ := ih hrest hu harg
      exact ⟨hread', hlast, by omega⟩

theorem apart (h : Pushed mem pt sp argv ustack last) {i j u v : ℕ} {arg : List UInt8} (hij : i < j)
    (hu : ustack[i]? = some u) (hv : ustack[j]? = some v) (harg : argv[j]? = some arg) :
    v + arg.length + 1 ≤ u := by
  induction argv generalizing sp ustack i j with
  | nil => cases harg
  | cons arg' argv ih =>
    obtain ⟨u', us, rfl, -, -, hrest⟩ := h
    obtain ⟨j, rfl⟩ := Nat.exists_eq_succ_of_ne_zero (Nat.ne_zero_of_lt hij)
    cases i with
    | zero =>
      obtain rfl : u' = u := Option.some.inj hu
      exact (hrest.get hv harg).2.2
    | succ i => exact ih hrest (Nat.lt_of_succ_lt_succ hij) hu hv harg

end Pushed

theorem length_ustackBytes (ustack : List ℕ) : (ustackBytes ustack).length = 8 * ustack.length := by
  induction ustack with
  | nil => rfl
  | cons u ustack ih =>
    rw [ustackBytes, List.flatMap_cons, List.length_append, length_leBytes, ← ustackBytes, ih,
      List.length_cons]
    omega

/-- One pointer of the array. -/
theorem Read.pointer {mem : Pages} {sp i u : ℕ} {ustack : List ℕ}
    (h : Read mem pt sp (ustackBytes ustack)) (hu : ustack[i]? = some u) :
    Read mem pt (sp + 8 * i) (leBytes 8 u) := by
  induction ustack generalizing sp i with
  | nil => cases hu
  | cons u' ustack ih =>
    rw [ustackBytes, List.flatMap_cons] at h
    obtain ⟨hhead, htail⟩ := h.of_append
    cases i with
    | zero =>
      obtain rfl : u' = u := Option.some.inj hu
      exact hhead
    | succ i =>
      rw [length_leBytes] at htail
      have hread := ih htail hu
      rw [Nat.add_assoc, Nat.add_comm 8] at hread
      exact hread

theorem Pushed.argStack {mem : Pages} {base sp last : ℕ} {argv : List (List UInt8)} {ustack : List ℕ}
    (h : Pushed mem pt (base + PGSIZE) argv ustack last) (haligned : sp % 16 = 0) (hlow : base ≤ sp)
    (hlast : sp + 8 * (argv.length + 1) ≤ last) (hread : Read mem pt sp (ustackBytes (ustack ++ [0]))) :
    ArgStack mem pt base sp argv ustack := by
  have hlength := h.length
  refine ⟨haligned, hlow, hlength, fun i u hu ↦ hread.pointer ?_, hread.pointer ?_,
    fun i u arg hu harg ↦ (h.get hu harg).1, fun i u hu ↦ ?_,
    fun i u arg hu harg ↦ (h.get hu harg).2.2, fun i j u v arg hij hu hv harg ↦ h.apart hij hu hv harg⟩
  · rw [List.getElem?_append_left (List.getElem?_eq_some_iff.mp hu).1]
    exact hu
  · rw [List.getElem?_append_right hlength.le, hlength, Nat.sub_self]
    rfl
  · have hi : i < argv.length := hlength ▸ (List.getElem?_eq_some_iff.mp hu).1
    exact hlast.trans (h.get hu (List.getElem?_eq_getElem hi)).2.1

theorem roundUp16_mod (n : ℕ) : roundUp16 n % 16 = 0 := Nat.mul_mod_left _ _

theorem argRoom_mod (argv : List (List UInt8)) : argRoom argv % 16 = 0 := by
  induction argv with
  | nil => rfl
  | cons arg argv ih =>
    rw [argRoom, List.map_cons, List.sum_cons, ← argRoom, Nat.add_mod, ih, roundUp16_mod]

theorem push_eq {sp k : ℕ} (hsp : sp % 16 = 0) (hlt : sp < 2 ^ 64) (hk : k ≤ sp) :
    push sp k + roundUp16 k = sp := by
  have hsub : uint64Sub sp k = sp - k := by
    rw [uint64Sub]
    omega
  rw [push, hsub, roundUp16]
  omega

theorem le_roundUp16 (n : ℕ) : n ≤ roundUp16 n := by
  rw [roundUp16]
  omega

/-- A copy to the stack page. -/
theorem copyout_page {base va : ℕ} {src : List UInt8} {Q : Bool → Phys → Prop}
    (htable : UserTable s.page pt) (hbase : base % PGSIZE = 0)
    (hmapped : userFrame s.page pt (base / PGSIZE) ≠ none) (hlow : base ≤ va)
    (hhigh : va + src.length ≤ base + PGSIZE)
    (hQ : ∀ s', s' = { s with page := s'.page } → Stored s.page pt va src s'.page → Q true s') :
    wp (copyout pt va src) Q E s := by
  refine wp_post (copyout_spec htable va src) ?_
  rintro r s' ⟨hs', k, hreach, hstored⟩
  obtain rfl : r = true := hreach.ok_iff.mpr fun i hi ↦ by
    have hpage : (va + i) / PGSIZE = base / PGSIZE := by
      simp only [PGSIZE] at hbase hhigh ⊢
      omega
    rw [hpage]
    exact hmapped
  obtain rfl : k = src.length := hreach.stop
  rw [List.take_length] at hstored
  exact hQ s' hs' hstored

section Push

variable {base : ℕ} (hbase : base % PGSIZE = 0) (hpos : PGSIZE ≤ base) (hmax : base < MAXVA)

include hbase hpos hmax

theorem pushArgs_spec {argv : List (List UInt8)} {argc sp : ℕ} (htable : UserTable s.page pt)
    (hmapped : userFrame s.page pt (base / PGSIZE) ≠ none) (hsp : sp % 16 = 0) (hlow : base ≤ sp)
    (hhigh : sp ≤ base + PGSIZE) (hargs : ∀ arg ∈ argv, arg.length < PGSIZE)
    (hcount : argc + argv.length ≤ MAXARG) :
    wp (pushArgs pt base argv argc sp) (fun r s' ↦ s' = { s with page := s'.page } ∧
      Changed s.page pt base sp s'.page ∧
      (r = none → sp < base + argRoom argv) ∧
      ∀ last ustack, r = some (last, ustack) → last + argRoom argv = sp ∧ base ≤ last ∧
        Pushed s'.page pt sp argv ustack last) E s := by
  induction argv generalizing argc sp s with
  | nil =>
    refine (wp_pure _).mpr ⟨rfl, .refl _ _ _ _, nofun, ?_⟩
    rintro last ustack ⟨⟩
    exact ⟨rfl, hlow, rfl, rfl⟩
  | cons arg argv ih =>
    have hlength := hargs arg List.mem_cons_self
    have hargs' (arg' : List UInt8) (harg' : arg' ∈ argv) : arg'.length < PGSIZE :=
      hargs arg' (List.mem_cons_of_mem _ harg')
    have hroom : argRoom (arg :: argv) = roundUp16 (arg.length + 1) + argRoom argv := rfl
    have hcount' : argc + 1 + argv.length ≤ MAXARG := by
      rw [List.length_cons] at hcount
      omega
    have hpush : push sp (arg.length + 1) + roundUp16 (arg.length + 1) = sp := by
      refine push_eq hsp ?_ (by omega)
      simp only [MAXVA, PGSIZE] at hmax hhigh
      omega
    have hround := le_roundUp16 (arg.length + 1)
    have hmod := roundUp16_mod (arg.length + 1)
    rw [pushArgs, if_neg (by omega)]
    generalize push sp (arg.length + 1) = u at hpush ⊢
    dsimp only
    split
    · exact (wp_pure _).mpr ⟨rfl, .refl _ _ _ _, fun _ ↦ by omega, nofun⟩
    · rename_i hfits
      have hstring : (arg ++ [0]).length = arg.length + 1 := by
        rw [List.length_append, List.length_singleton]
      rw [wp_bind]
      refine copyout_page htable hbase hmapped (Nat.not_lt.mp hfits) (by omega)
        fun s₁ hs₁ hstored ↦ ?_
      have hchanged : Changed s.page pt base sp s₁.page :=
        .of_stored hstored (Nat.not_lt.mp hfits) (by omega)
      have htable₁ := htable.congr hstored.tables
      have hmapped₁ : userFrame s₁.page pt (base / PGSIZE) ≠ none := by
        rw [userFrame_congr hstored.tables]
        exact hmapped
      rw [if_pos rfl, wp_bind]
      refine wp_post (ih htable₁ hmapped₁ (by omega) (Nat.not_lt.mp hfits) (by omega) hargs' hcount')
        fun r s₂ hr ↦ ?_
      obtain ⟨hs₂, hchanged₂, hnone, hsome⟩ := hr
      have hs : s₂ = { s with page := s₂.page } := by rw [hs₂, hs₁]
      have hchanged' := hchanged.trans (hchanged₂.mono le_rfl (by omega))
      cases r with
      | none =>
        have hnone := hnone rfl
        exact (wp_pure _).mpr ⟨hs, hchanged', fun _ ↦ by omega, nofun⟩
      | some r =>
        obtain ⟨last, ustack⟩ := r
        obtain ⟨hlast, hbase', hpushed⟩ := hsome last ustack rfl
        refine (wp_pure _).mpr ⟨hs, hchanged', nofun, ?_⟩
        rintro _ _ ⟨⟩
        -- The other strings are below this one.
        have hread := hchanged₂.read htable₁ hstored.read (.inr le_rfl)
        exact ⟨by omega, hbase', u, ustack, rfl, by omega, hread, hpushed⟩

/-- The stack of one page from `base` on is filled, unless the arguments do not fit in it. -/
theorem pushStack_spec {argv : List (List UInt8)} (htable : UserTable s.page pt)
    (hmapped : userFrame s.page pt (base / PGSIZE) ≠ none)
    (hargs : ∀ arg ∈ argv, arg.length < PGSIZE) (hcount : argv.length < MAXARG) :
    wp (pushStack pt (base + PGSIZE) argv) (fun r s' ↦ s' = { s with page := s'.page } ∧
      Changed s.page pt base (base + PGSIZE) s'.page ∧
      (r = none → PGSIZE < stackRoom argv) ∧
      ∀ sp, r = some sp → stackRoom argv ≤ PGSIZE ∧
        ∃ ustack, ArgStack s'.page pt base sp argv ustack) E s := by
  have hend : base + PGSIZE < 2 ^ 64 := by
    simp only [MAXVA, PGSIZE] at hmax ⊢
    omega
  have hsub : uint64Sub (base + PGSIZE) PGSIZE = base := by
    rw [uint64Sub]
    omega
  have hbase16 : base % 16 = 0 := by
    simp only [PGSIZE] at hbase
    omega
  have hroom : stackRoom argv = argRoom argv + roundUp16 ((argv.length + 1) * 8) := rfl
  rw [pushStack, hsub, wp_bind]
  refine wp_post (pushArgs_spec hbase hpos hmax htable hmapped (by simp only [PGSIZE]; omega)
    (Nat.le_add_right _ _) le_rfl hargs (by omega)) fun r s₁ hr ↦ ?_
  obtain ⟨hs₁, hchanged, hnone, hsome⟩ := hr
  cases r with
  | none =>
    have hnone := hnone rfl
    exact (wp_pure _).mpr ⟨hs₁, hchanged, fun _ ↦ by omega, nofun⟩
  | some r =>
    obtain ⟨last, ustack⟩ := r
    obtain ⟨hlast, hlow, hpushed⟩ := hsome last ustack rfl
    have hlength := hpushed.length
    have hround := le_roundUp16 ((argv.length + 1) * 8)
    have hmod := roundUp16_mod ((argv.length + 1) * 8)
    have hlast16 : last % 16 = 0 := by
      have := argRoom_mod argv
      simp only [PGSIZE] at hlast
      omega
    have hpush : push last ((argv.length + 1) * 8) + roundUp16 ((argv.length + 1) * 8) = last := by
      refine push_eq hlast16 (by omega) ?_
      simp only [PGSIZE, MAXARG] at hpos hcount
      omega
    have hbytes : (ustackBytes (ustack ++ [0])).length = 8 * (argv.length + 1) := by
      rw [length_ustackBytes, List.length_append, List.length_singleton, hlength]
    dsimp only
    generalize push last ((argv.length + 1) * 8) = sp at hpush ⊢
    split
    · exact (wp_pure _).mpr ⟨hs₁, hchanged, fun _ ↦ by omega, nofun⟩
    · rename_i hfits
      have htable₁ := htable.congr hchanged.tables
      have hmapped₁ : userFrame s₁.page pt (base / PGSIZE) ≠ none := by
        rw [userFrame_congr hchanged.tables]
        exact hmapped
      rw [wp_bind]
      refine copyout_page htable₁ hbase hmapped₁ (Nat.not_lt.mp hfits) (by omega)
        fun s₂ hs₂ hstored ↦ ?_
      have hs : s₂ = { s with page := s₂.page } := by rw [hs₂, hs₁]
      have hchanged₂ : Changed s₁.page pt sp last s₂.page :=
        .of_stored hstored le_rfl (by omega)
      have hchanged' := hchanged.trans (hchanged₂.mono (Nat.not_lt.mp hfits) (by omega))
      rw [if_pos rfl]
      refine (wp_pure _).mpr ⟨hs, hchanged', nofun, ?_⟩
      rintro _ ⟨⟩
      refine ⟨by omega, ustack, ?_⟩
      exact (hpushed.changed hchanged₂ htable₁ le_rfl).argStack (by omega) (Nat.not_lt.mp hfits)
        (by omega) hstored.read

end Push

end Xv6.Vm
