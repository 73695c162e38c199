import Laboratorio.ExecStage

/-! The stack that `exec` builds. `copyout` stores only to pages that the user may use, so what does not fit in the page
above the guard page is refused; what fits is in that page, each string below the one before it and the array below
them. -/

namespace Laboratorio.Vm

open Function

variable {R K : Type} [DecidableEq R]

/-! ### Bytes of the user -/

def userByte (m : Memory) (pgdir va : Nat) : UInt8 :=
  Bytes.byte (pageBytes (m.word (pteAddr (pteOf m.word pgdir (entry va))))) (va % PGSIZE)

def userWord (m : Memory) (pgdir va : Nat) : Nat :=
  (userByte m pgdir va).toNat + 256 * (userByte m pgdir (va + 1)).toNat + 256 ^ 2 * (userByte m pgdir (va + 2)).toNat +
    256 ^ 3 * (userByte m pgdir (va + 3)).toNat

def StandsAt (m : Memory) (pgdir va : Nat) (src : List UInt8) : Prop :=
  ∀ i b, src[i]? = some b → userByte m pgdir (va + i) = b

theorem pageBytes_pageWords (b : Bytes PGSIZE) : pageBytes (pageWords b) = b := by
  funext i
  have hlt := i.isLt
  have hword : pageWords b (Index.ofNat (i.val / 4)) = Bytes.getLE b (4 * (i.val / 4)) 4 := by
    unfold pageWords
    rw [Fin.val_ofNat, Nat.mod_eq_of_lt (by simp only [PGSIZE, NPDENTRIES] at hlt ⊢; omega)]
  unfold pageBytes
  rw [hword, Bytes.ofNat_getLE b (Nat.mod_lt i.val (by decide)), Nat.div_add_mod]
  exact dif_pos hlt

theorem Memory.pageBytes_copy (m : Memory) (pg o : Nat) (src : List UInt8) :
    pageBytes ((m.copy pg o src).word pg) = Bytes.patch (pageBytes (m.word pg)) o src.length fun k => src.getD k 0 := by
  have hself : (m.copy pg o src).word pg = _ := update_self _ _ _
  rw [hself, pageBytes_pageWords]

/-! ### Pages -/

theorem entry_PGROUNDDOWN (va : Nat) : entry (PGROUNDDOWN va) = entry va := by
  have hdir : PGROUNDDOWN va / 2 ^ 22 = va / 2 ^ 22 := by
    simp only [PGROUNDDOWN, PGSIZE]
    omega
  have htab : PGROUNDDOWN va / 2 ^ 12 = va / 2 ^ 12 := by
    simp only [PGROUNDDOWN, PGSIZE]
    omega
  rw [entry, PDX, PTX, hdir, htab]
  rfl

theorem PGROUNDDOWN_eq {base x : Nat} (hbase : base % PGSIZE = 0) (hle : base ≤ x) (hlt : x < base + PGSIZE) :
    PGROUNDDOWN x = base := by
  simp only [PGROUNDDOWN, PGSIZE] at hbase hlt ⊢
  omega

theorem entry_eq {base x : Nat} (hbase : base % PGSIZE = 0) (hle : base ≤ x) (hlt : x < base + PGSIZE) :
    entry x = entry base := by
  rw [← entry_PGROUNDDOWN x, PGROUNDDOWN_eq hbase hle hlt]

theorem PGROUNDDOWN_idem (va : Nat) : PGROUNDDOWN (PGROUNDDOWN va) = PGROUNDDOWN va := by
  simp only [PGROUNDDOWN, PGSIZE]
  omega

variable {va sp i : Nat} {argv : List (List UInt8)} {p : List UInt8}

section Stack

variable {L : Layout} {G : Set (Index × Index)} {s : Space R K} {r : R} {o : K} {d lo hi sz top : Nat} {m : Memory}

theorem Built.uva2ka (h : Built s r d lo hi m) (va : Nat) :
    (Vm.uva2ka m d va = .error .uva2kaNull ∧ pteOf m.word d (entry va) = 0) ∨
    Vm.uva2ka m d va = .ok (if present (pteOf m.word d (entry va)) ∧ forUser (pteOf m.word d (entry va)) then
      some (pteAddr (pteOf m.word d (entry va))) else none) := by
  unfold Vm.uva2ka
  rcases h.walkpgdir va with ⟨hnone, htable⟩ | ⟨hsome, htable⟩
  · refine Or.inl ⟨?_, pteOf_none htable⟩
    rw [hnone]
  have hentry : pteOf m.word d (entry va) = m.word (tableOf m.word d (PDX va)) (PTX va) := pteOf_eq htable
  refine Or.inr ?_
  rw [hsome]
  dsimp only
  rw [← hentry]
  by_cases hpresent : present (pteOf m.word d (entry va))
  · rw [if_neg (not_not.mpr hpresent)]
    by_cases huser : forUser (pteOf m.word d (entry va))
    · rw [if_neg (by unfold forUser at huser; omega), if_pos ⟨hpresent, huser⟩]
    · rw [if_pos (by unfold forUser at huser; omega), if_neg fun hboth => huser hboth.2]
  · rw [if_pos hpresent, if_neg fun hboth => hpresent hboth.1]

theorem Staged.open_iff (h : Staged L G s r d lo hi sz m) (hsz : sz ≤ KERNBASE) (hva : va < 2 ^ 32) :
    (present (pteOf m.word d (entry va)) ∧ forUser (pteOf m.word d (entry va))) ↔
    PGROUNDDOWN va < sz ∧ entry va ∉ G := by
  have hpage := vaOf_entry hva
  rw [← Space.pte_holding s r d m]
  by_cases huser : IsUser (entry va).1
  · have hmapped := h.mapped (entry va) huser
    rw [lt_PGROUNDUP_iff, hpage] at hmapped
    constructor
    · rintro ⟨hpresent, hfor⟩
      exact ⟨hmapped.mp hpresent, (h.laid.user _ huser hpresent).mp hfor⟩
    · rintro ⟨hlt, hguard⟩
      have hpresent := hmapped.mpr hlt
      exact ⟨hpresent, (h.laid.user _ huser hpresent).mpr hguard⟩
  · refine iff_of_false (fun hboth => ?_) fun hboth => ?_
    · rw [h.laid.kernel _ huser] at hboth
      exact kernelPte_not_forUser L _ hboth.2
    · refine huser ((isUser_iff _).mpr ?_)
      rw [hpage]
      exact hboth.1.trans_le hsz

/-- `uva2ka` does not load through a null pointer below the size, nor at the end of the address space. -/
theorem Staged.pte_ne_zero (h : Staged L G s r d lo hi sz m) (hsz : sz ≤ KERNBASE) (hva : va < 2 ^ 32)
    (hin : va < sz ∨ DEVSPACE ≤ va) : pteOf m.word d (entry va) ≠ 0 := by
  intro hzero
  rw [← Space.pte_holding s r d m] at hzero
  rcases hin with hlow | hhigh
  · have hpresent := (h.present_entry hlow hsz).2
    rw [hzero] at hpresent
    exact not_present_zero hpresent
  have hpage : DEVSPACE ≤ vaOf (entry va) := by
    rw [vaOf_entry hva]
    simp only [PGROUNDDOWN, DEVSPACE, PGSIZE] at hhigh ⊢
    omega
  have hkernel : ¬IsUser (entry va).1 := by
    rw [isUser_iff]
    simp only [DEVSPACE, KERNBASE] at hpage ⊢
    omega
  have hpresent := kernelPte_devspace L hpage
  rw [← h.laid.kernel _ hkernel, hzero] at hpresent
  exact not_present_zero hpresent

/-! ### `copyout` -/

section

variable (h : Staged L G s r d lo hi sz m) (hsz : sz ≤ KERNBASE)

include h hsz

/-- `copyout` succeeds only where every page that it stores to may be used by the user; it does not load through a null
pointer if it starts at the end of the address space, or ends below the size. -/
theorem Staged.copyoutLoop {fuel : Nat} {buf : List UInt8} (hva : va < 2 ^ 32) (hfuel : buf.length ≤ fuel) :
    Ends (fun _ => buf ≠ [] ∧ ¬(va + buf.length ≤ sz ∨ DEVSPACE ≤ va)) (copyoutLoop d fuel m va buf) fun res =>
      Staged L G s r d lo hi sz res.2 ∧ pteOf res.2.word d = pteOf m.word d ∧
        (¬res.1 < 0 → ∀ x, va ≤ x → x < va + buf.length → PGROUNDDOWN x < sz ∧ entry x ∉ G) := by
  induction fuel generalizing m va buf with
  | zero =>
    have hnil : buf = [] := List.eq_nil_of_length_eq_zero (Nat.le_zero.mp hfuel)
    rw [Vm.copyoutLoop, if_pos hnil]
    refine .ok ⟨h, rfl, fun _ x hle hlt => ?_⟩
    omega
  | succ fuel ih =>
    rw [Vm.copyoutLoop]
    split
    case isTrue hnil =>
      refine .ok ⟨h, rfl, fun _ x hle hlt => ?_⟩
      rw [hnil, List.length_nil] at hlt
      omega
    case isFalse hne =>
      have hlen := List.length_pos_iff.mpr hne
      have hdown : PGROUNDDOWN va ≤ va ∧ va < PGROUNDDOWN va + PGSIZE := by
        simp only [PGROUNDDOWN, PGSIZE]
        omega
      have hdown32 : PGROUNDDOWN va < 2 ^ 32 := hdown.1.trans_lt hva
      dsimp only
      rcases h.uva2ka (PGROUNDDOWN va) with ⟨hnull, hzero⟩ | hfound
      · rw [hnull]
        refine .stop ⟨hne, fun hin => h.pte_ne_zero hsz hdown32 (hin.imp (fun hend => ?_) fun hdev => ?_) hzero⟩
        · omega
        · simp only [PGROUNDDOWN, DEVSPACE, PGSIZE] at hdev ⊢
          omega
      · rw [hfound, ok_bind]
        split
        case _ hnone => exact .ok ⟨h, rfl, fun hok => absurd (show (-1 : Int) < 0 by decide) hok⟩
        case _ pg hsome =>
          obtain ⟨hopen, heq⟩ := Option.ite_none_right_eq_some.mp hsome
          obtain rfl := Option.some.inj heq
          obtain ⟨hin, hguard⟩ := (h.open_iff hsz hdown32).mp hopen
          rw [PGROUNDDOWN_idem] at hin
          have huser : IsUser (entry (PGROUNDDOWN va)).1 := PDX_isUser (hin.trans_le hsz)
          have hnext : (PGROUNDDOWN va + PGSIZE) % 2 ^ 32 = PGROUNDDOWN va + PGSIZE := by
            apply Nat.mod_eq_of_lt
            simp only [KERNBASE, PGSIZE] at hsz ⊢
            omega
          have hcount : (min (PGSIZE - (va - PGROUNDDOWN va)) buf.length = buf.length ∧
            va + buf.length ≤ PGROUNDDOWN va + PGSIZE) ∨
              (min (PGSIZE - (va - PGROUNDDOWN va)) buf.length < buf.length ∧
                va + min (PGSIZE - (va - PGROUNDDOWN va)) buf.length = PGROUNDDOWN va + PGSIZE) := by omega
          rw [hnext]
          generalize min (PGSIZE - (va - PGROUNDDOWN va)) buf.length = n at hcount
          obtain ⟨hput, hpte, -⟩ := h.put huser hopen.1
            (pageWords (Bytes.patch (pageBytes (m.word (pteAddr (pteOf m.word d (entry (PGROUNDDOWN va))))))
              (va - PGROUNDDOWN va) (buf.take n).length fun k => (buf.take n).getD k 0))
          refine ((ih hput ?_ ?_).mono_stop fun err herr => ?_).mono fun res hres =>
            ⟨hres.1, hres.2.1.trans hpte, fun hok x hle hlt => ?_⟩
          · simp only [KERNBASE, PGSIZE] at hsz ⊢
            omega
          · rw [List.length_drop]
            omega
          · -- What is left begins at the next page.
            obtain ⟨hsome, hnot⟩ := herr
            have hleft := List.length_pos_iff.mpr hsome
            rw [List.length_drop] at hleft hnot
            refine ⟨hne, fun hin' => hnot (Or.inl ?_)⟩
            omega
          · by_cases hfirst : x < PGROUNDDOWN va + PGSIZE
            · have haligned : PGROUNDDOWN va % PGSIZE = 0 := Nat.mul_mod_left _ _
              rw [PGROUNDDOWN_eq haligned (hdown.1.trans hle) hfirst, entry_eq haligned (hdown.1.trans hle) hfirst]
              rw [entry_PGROUNDDOWN] at hguard ⊢
              exact ⟨hin, hguard⟩
            · refine hres.2.2 hok x (not_lt.mp hfirst) ?_
              rw [List.length_drop]
              omega

theorem Staged.copyout (hva : va < 2 ^ 32) (p : List UInt8) :
    Ends (fun _ => ¬(va + p.length ≤ sz ∨ DEVSPACE ≤ va)) (copyout m d va p) fun res =>
      Staged L G s r d lo hi sz res.2 ∧ pteOf res.2.word d = pteOf m.word d ∧
        (¬res.1 < 0 → ∀ x, va ≤ x → x < va + p.length → PGROUNDDOWN x < sz ∧ entry x ∉ G) :=
  (h.copyoutLoop hsz hva (le_refl _)).mono_stop fun _ herr => herr.2

theorem Staged.copyout_page {base : Nat} (hbase : base % PGSIZE = 0)
    (hin : base < sz) (hguard : entry base ∉ G) (hp : p ≠ []) (hle : base ≤ va) (hend : va + p.length ≤ base + PGSIZE) :
    Vm.copyout m d va p = .ok (0, m.copy (pteAddr (pteOf m.word d (entry base))) (va - base) p) := by
  have hlen := List.length_pos_iff.mpr hp
  have hlt : va < base + PGSIZE := by omega
  have hdown := PGROUNDDOWN_eq hbase hle hlt
  have hbase32 : base < 2 ^ 32 := lt_of_kernbase (hin.trans_le hsz)
  have hopen := (h.open_iff hsz hbase32).mpr ⟨by rwa [PGROUNDDOWN_eq hbase (le_refl _) (by simp only [PGSIZE]; omega)],
    hguard⟩
  have hall : min (PGSIZE - (va - base)) p.length = p.length := by
    apply Nat.min_eq_right
    omega
  have hfound := h.uva2ka base
  rw [if_pos hopen] at hfound
  replace hfound := hfound.resolve_left fun hnull => not_present_zero (by rw [← hnull.2]; exact hopen.1)
  obtain ⟨fuel, hfuel⟩ : ∃ fuel, p.length = fuel + 1 := ⟨p.length - 1, by omega⟩
  rw [Vm.copyout, hfuel, Vm.copyoutLoop, if_neg hp, hdown]
  dsimp only
  rw [hfound, ok_bind]
  rw [hall, List.take_length, List.drop_length]
  cases fuel with
  | zero => rfl
  | succ fuel => rfl

end

/-! ### The stack page -/

/-- The image when its two last pages are there: the guard page, and the page of the stack. -/
structure Stack (L : Layout) (s : Space R K) (r : R) (d lo hi top : Nat) (m : Memory) : Prop
    extends Staged L {entry (top - 2 * PGSIZE)} s r d lo hi top m where
  aligned : top % PGSIZE = 0
  two : 2 * PGSIZE ≤ top
  below : top < KERNBASE

section

variable (h : Stack L s r d lo hi top m)

include h

theorem Stack.base_aligned : (top - PGSIZE) % PGSIZE = 0 := by
  have haligned := h.aligned
  have htwo := h.two
  simp only [PGSIZE] at haligned htwo ⊢
  omega

theorem Stack.base_not_guard : entry (top - PGSIZE) ∉ ({entry (top - 2 * PGSIZE)} : Set (Index × Index)) := by
  have hbelow := h.below
  have htwo := h.two
  have haligned := h.aligned
  intro hmem
  have hva := congrArg vaOf (Set.mem_singleton_iff.mp hmem)
  simp only [PGSIZE, KERNBASE] at hbelow htwo haligned hva
  rw [vaOf_entry (by omega), vaOf_entry (by omega)] at hva
  simp only [PGROUNDDOWN, PGSIZE] at hva
  omega

theorem Stack.copyout_in (va : Nat) (hp : p ≠ []) (hle : top - PGSIZE ≤ va) (hend : va + p.length ≤ top) :
    ∃ m', Vm.copyout m d va p = .ok (0, m') ∧ Stack L s r d lo hi top m' ∧ StandsAt m' d va p ∧
      ∀ x, top - PGSIZE ≤ x → x < top → x < va ∨ va + p.length ≤ x → userByte m' d x = userByte m d x := by
  have hbase := h.base_aligned
  have htwo := h.two
  have hin : top - PGSIZE < top := by
    simp only [PGSIZE] at htwo ⊢
    omega
  have hlast : top - PGSIZE + PGSIZE = top := by omega
  have hrun := h.copyout_page h.below.le hbase hin h.base_not_guard hp hle (by omega)
  obtain ⟨huser, hpresent⟩ := h.present_entry hin h.below.le
  rw [Space.pte_holding] at hpresent
  obtain ⟨hput, hpte, -⟩ := h.put huser hpresent
    (pageWords (Bytes.patch (pageBytes (m.word (pteAddr (pteOf m.word d (entry (top - PGSIZE)))))) (va - (top - PGSIZE))
      p.length fun k => p.getD k 0))
  -- An address of the page reads its byte, before and after.
  have hread : ∀ x, top - PGSIZE ≤ x → x < top →
      userByte (m.copy (pteAddr (pteOf m.word d (entry (top - PGSIZE)))) (va - (top - PGSIZE)) p) d x =
        if va ≤ x ∧ x < va + p.length then p.getD (x - va) 0 else userByte m d x := by
    intro x hx hxt
    have hoff : x % PGSIZE = x - (top - PGSIZE) := by
      simp only [PGSIZE] at hbase hx hlast ⊢
      omega
    have hxoff : x - (top - PGSIZE) < PGSIZE := by omega
    unfold userByte
    rw [show pteOf (m.copy (pteAddr (pteOf m.word d (entry (top - PGSIZE)))) (va - (top - PGSIZE)) p).word d =
      pteOf m.word d from hpte, entry_eq hbase hx (by omega), Memory.pageBytes_copy, hoff, Bytes.byte_patch _ _ hxoff]
    by_cases hspan : va ≤ x ∧ x < va + p.length
    · rw [if_pos (by omega), if_pos hspan, show x - (top - PGSIZE) - (va - (top - PGSIZE)) = x - va by omega]
    · rw [if_neg (by omega), if_neg hspan]
  refine ⟨_, hrun, ⟨hput, h.aligned, h.two, h.below⟩, fun i b hi => ?_, fun x hx hxt hout => ?_⟩
  · obtain ⟨hlt, -⟩ := List.getElem?_eq_some_iff.mp hi
    rw [hread _ (by omega) (by omega), if_pos (by omega), Nat.add_sub_cancel_left, List.getD_eq_getElem?_getD, hi]
    rfl
  · rw [hread x hx hxt, if_neg (by omega)]

theorem Stack.copyout_out (va : Nat) (hp : p ≠ []) (hva : va < 2 ^ 32)
    (hreach : top - 2 * PGSIZE < va + p.length) (hout : va < top - PGSIZE ∨ top < va + p.length) :
    Ends (fun _ => ¬(va + p.length ≤ top ∨ DEVSPACE ≤ va)) (Vm.copyout m d va p) fun res =>
      Stack L s r d lo hi top res.2 ∧ res.1 < 0 := by
  have haligned := h.aligned
  have htwo := h.two
  have hlen := List.length_pos_iff.mpr hp
  refine (h.toStaged.copyout h.below.le hva p).mono fun res hres => ⟨⟨hres.1, h.aligned, h.two, h.below⟩, ?_⟩
  by_contra hok
  have hopen := hres.2.2 hok
  by_cases hlow : va < top - PGSIZE
  · -- The guard page is among those that it stores to.
    have hguard := hopen (max va (top - 2 * PGSIZE)) (Nat.le_max_left _ _) (by omega)
    refine hguard.2 (Set.mem_singleton_iff.mpr (entry_eq ?_ (Nat.le_max_right _ _) ?_))
    · simp only [PGSIZE] at haligned htwo ⊢
      omega
    · simp only [PGSIZE] at hlow htwo ⊢
      omega
  · have hpast := (hopen (max va top) (Nat.le_max_left _ _) (by omega)).1
    simp only [PGROUNDDOWN, PGSIZE] at hpast haligned
    omega

end

/-! ### The arguments -/

/-- What an argument takes on the stack: its bytes, the terminator, and what is missing to a whole word. -/
def argRoom (arg : List UInt8) : Nat := (arg.length + 1 + 3) / 4 * 4

/-- Where the arguments go, from `sp` downwards. -/
def argAddrs : Nat → List (List UInt8) → List Nat
  | _, [] => []
  | sp, arg :: argv => (sp - argRoom arg) :: argAddrs (sp - argRoom arg) argv

theorem length_argAddrs (sp : Nat) (argv : List (List UInt8)) : (argAddrs sp argv).length = argv.length := by
  induction argv generalizing sp with
  | nil => rfl
  | cons arg argv ih => rw [argAddrs, List.length_cons, List.length_cons, ih]

theorem lt_argRoom (arg : List UInt8) : arg.length + 1 ≤ argRoom arg := by
  unfold argRoom
  omega

theorem argAddrs_bounds (hroom : (argv.map argRoom).sum ≤ sp) {p : Nat} {arg : List UInt8}
    (harg : argv[i]? = some arg) (hp : (argAddrs sp argv)[i]? = some p) :
    sp - (argv.map argRoom).sum ≤ p ∧ p + arg.length + 1 ≤ sp := by
  induction argv generalizing sp i with
  | nil => cases harg
  | cons first argv ih =>
    rw [List.map_cons, List.sum_cons] at hroom ⊢
    have hfirst := lt_argRoom first
    cases i with
    | zero =>
      cases harg
      cases hp
      omega
    | succ i =>
      have hrest := ih (show (argv.map argRoom).sum ≤ sp - argRoom first by omega) harg hp
      omega

theorem argAddrs_apart (hroom : (argv.map argRoom).sum ≤ sp) {j p q : Nat} {arg : List UInt8}
    (hij : i < j) (harg : argv[j]? = some arg) (hp : (argAddrs sp argv)[i]? = some p)
    (hq : (argAddrs sp argv)[j]? = some q) :
    q + arg.length + 1 ≤ p := by
  induction argv generalizing sp i j with
  | nil => cases harg
  | cons first argv ih =>
    rw [List.map_cons, List.sum_cons] at hroom
    obtain ⟨j, rfl⟩ : ∃ j', j = j' + 1 := ⟨j - 1, by omega⟩
    cases i with
    | zero =>
      cases hp
      exact (argAddrs_bounds (show (argv.map argRoom).sum ≤ sp - argRoom first by omega) harg hq).2
    | succ i =>
      exact ih (show (argv.map argRoom).sum ≤ sp - argRoom first by omega) (Nat.lt_of_succ_lt_succ hij) harg hp hq

/-- The loop over `argv`: it ends with every argument on the stack, or refuses them where they do not fit. -/
theorem Stack.pushArgs (h : Stack L s r d lo hi top m) (argv : List (List UInt8)) (ustack : List Nat)
    (hlow : top - PGSIZE ≤ sp) (hhigh : sp ≤ top) (hfour : sp % 4 = 0) :
    Ends (fun _ => ¬∀ arg ∈ argv, arg.length < 2 ^ 24) (Vm.pushArgs d argv sp ustack m) fun res =>
    Stack L s r d lo hi top res.2 ∧
        ((res.1 = none ∧ ¬((argv.map argRoom).sum + (top - PGSIZE) ≤ sp ∧ ustack.length + argv.length ≤ MAXARG)) ∨
          (res.1 = some (sp - (argv.map argRoom).sum, ustack ++ argAddrs sp argv) ∧
            (argv.map argRoom).sum + (top - PGSIZE) ≤ sp ∧ (argv = [] ∨ ustack.length + argv.length ≤ MAXARG) ∧
            (∀ (i : Nat) arg p, argv[i]? = some arg → (argAddrs sp argv)[i]? = some p →
            StandsAt res.2 d p (arg ++ [0])) ∧
            ∀ x, sp ≤ x → x < top → userByte res.2 d x = userByte m d x)) := by
  induction argv generalizing m sp ustack with
  | nil =>
    refine .ok ⟨h, Or.inr ⟨?_, ?_, Or.inl rfl, fun i arg p harg => absurd harg (by simp), fun _ _ _ => rfl⟩⟩
    · rw [argAddrs, List.append_nil]
      rfl
    · simpa using hlow
  | cons arg argv ih =>
    rw [Vm.pushArgs, List.map_cons, List.sum_cons, List.length_cons]
    split
    case isTrue hfull => exact .ok ⟨h, Or.inl ⟨rfl, fun hfits => by omega⟩⟩
    case isFalse hless =>
      have htwo := h.two
      have hbelow := h.below
      have hne : arg ++ [0] ≠ [] := List.append_ne_nil_of_right_ne_nil _ (List.cons_ne_nil _ _)
      have hlen : (arg ++ [0]).length = arg.length + 1 := by rw [List.length_append, List.length_singleton]
      have harg := lt_argRoom arg
      dsimp only
      by_cases hfits : argRoom arg + (top - PGSIZE) ≤ sp
      · -- The argument fits below `sp`.
        have hsp : (sp + 2 ^ 32 - (arg.length + 1)) % 2 ^ 32 / 4 * 4 = sp - argRoom arg := by
          unfold argRoom at hfits ⊢
          simp only [KERNBASE] at hbelow
          omega
        rw [hsp]
        obtain ⟨m', hrun, hstack, hstands, hsame⟩ := h.copyout_in (sp - argRoom arg) hne (by omega) (by omega)
        have hfour' : (sp - argRoom arg) % 4 = 0 := by
          omega
        rw [hrun, ok_bind]
        dsimp only
        refine ((ih hstack _ (by omega) (by omega) hfour').mono_stop fun err herr => ?_).mono fun res hres =>
          ⟨hres.1, ?_⟩
        · exact fun hall => herr fun a ha => hall a (List.mem_cons_of_mem arg ha)
        rw [List.length_append, List.length_singleton] at hres
        rcases hres.2 with ⟨hnone, hnot⟩ | ⟨hsome, hroom, hcount, hcopies, hkept⟩
        · refine Or.inl ⟨hnone, fun hboth => hnot ?_⟩
          omega
        refine Or.inr ⟨?_, by omega, Or.inr ?_, fun i a p ha hp => ?_, fun x hx hxt => ?_⟩
        · rw [hsome, argAddrs, List.append_assoc, Nat.sub_sub]
          rfl
        · rcases hcount with hnil | hle
          · rw [hnil, List.length_nil]
            omega
          · omega
        · cases i with
          | succ i => exact hcopies i a p ha hp
          | zero =>
            cases ha
            cases hp
            -- The arguments that follow go below this one.
            intro j b hj
            obtain ⟨hlt, -⟩ := List.getElem?_eq_some_iff.mp hj
            rw [hkept _ (by omega) (by omega)]
            exact hstands j b hj
        · rw [hkept x (by omega) hxt]
          exact hsame x (by omega) hxt (Or.inr (by omega))
      · -- It does not: some byte of it would go into the guard page, or past the end of the stack.
        obtain ⟨sp', hsp'⟩ : ∃ sp', sp' = (sp + 2 ^ 32 - (arg.length + 1)) % 2 ^ 32 / 4 * 4 := ⟨_, rfl⟩
        rw [← hsp']
        unfold argRoom at hfits
        simp only [KERNBASE, PGSIZE] at hbelow htwo hlow hfits
        have hout := h.copyout_out sp' hne (by omega) (by rw [hlen]; simp only [PGSIZE]; omega)
          (by rw [hlen]; simp only [PGSIZE]; omega)
        refine (hout.mono_stop fun err herr hall => ?_).bind fun res hres => ?_
        · have hsmall := hall arg List.mem_cons_self
          rw [hlen] at herr
          simp only [DEVSPACE] at herr
          omega
        · obtain ⟨hstack, hneg⟩ := hres
          rw [if_pos hneg]
          refine .ok ⟨hstack, Or.inl ⟨rfl, fun hboth => ?_⟩⟩
          have := hboth.1
          unfold argRoom at this
          simp only [PGSIZE] at this
          omega

/-! ### `ustack` -/

theorem length_uintBytes (words : List Nat) : (uintBytes words).length = 4 * words.length := by
  induction words with
  | nil => rfl
  | cons w words ih =>
    rw [uintBytes, List.flatMap_cons, List.length_append, ← uintBytes, ih, List.length_cons]
    simp only [List.length_cons, List.length_nil]
    omega

theorem getElem?_uintBytes {words : List Nat} {w k : Nat} (hw : words[i]? = some w) (hk : k < 4) :
    (uintBytes words)[4 * i + k]? = some (UInt8.ofNat (w / 256 ^ k)) := by
  induction words generalizing i with
  | nil => cases hw
  | cons first words ih =>
    have hcons : uintBytes (first :: words) = [UInt8.ofNat first, UInt8.ofNat (first / 256),
      UInt8.ofNat (first / 256 ^ 2),
        UInt8.ofNat (first / 256 ^ 3)] ++ uintBytes words := rfl
    rw [hcons]
    cases i with
    | zero =>
      cases hw
      match k, hk with
      | 0, _ => simp
      | 1, _ => simp
      | 2, _ => simp
      | 3, _ => simp
    | succ i =>
      rw [List.getElem?_append_right (by simp only [List.length_cons, List.length_nil]; omega)]
      have hrest := ih hw
      rw [← hrest]
      congr 1
      simp only [List.length_cons, List.length_nil]
      omega

theorem userWord_of_standsAt {m : Memory} {pgdir : Nat} {words : List Nat} (h : StandsAt m pgdir va (uintBytes words))
    {w : Nat} (hw : words[i]? = some w) : userWord m pgdir (va + 4 * i) = w % 2 ^ 32 := by
  have hbyte : ∀ k < 4, (userByte m pgdir (va + 4 * i + k)).toNat = w / 256 ^ k % 256 := by
    intro k hk
    rw [Nat.add_assoc, h _ _ (getElem?_uintBytes hw hk), UInt8.toNat_ofNat']
  have hzero := hbyte 0 (by decide)
  have hone := hbyte 1 (by decide)
  have htwo := hbyte 2 (by decide)
  have hthree := hbyte 3 (by decide)
  rw [Nat.add_zero] at hzero
  unfold userWord
  omega

def Fits (argv : List (List UInt8)) : Prop :=
  argv.length ≤ MAXARG ∧ (argv.map argRoom).sum + 4 * (argv.length + 4) ≤ PGSIZE

instance (argv : List (List UInt8)) : Decidable (Fits argv) := inferInstanceAs (Decidable (_ ∧ _))

/-- The stack that the new program finds: at `esp` a return address, `argc` and a pointer to the array of pointers
`ptrs`, which ends with 0; each pointer addresses a copy of its argument. All lie in the last page, which the user may
use, and the page below it is the guard page. -/
structure Delivered (m : Memory) (pgdir sz esp : Nat) (argv : List (List UInt8)) (ptrs : List Nat) : Prop where
  count : ptrs.length = argv.length
  words : ∀ (i : Nat) w, ([0xffffffff, argv.length, esp + 12] ++ ptrs ++ [0])[i]? = some w →
    userWord m pgdir (esp + 4 * i) = w
  copies : ∀ (i : Nat) arg p, argv[i]? = some arg → ptrs[i]? = some p → StandsAt m pgdir p (arg ++ [0])
  low : sz - PGSIZE ≤ esp
  within : ∀ (i : Nat) arg p, argv[i]? = some arg → ptrs[i]? = some p →
    esp + 4 * (argv.length + 4) ≤ p ∧ p + (arg ++ [0]).length ≤ sz
  apart : ∀ (i j : Nat) arg p q, i < j → argv[j]? = some arg → ptrs[i]? = some p → ptrs[j]? = some q →
    q + (arg ++ [0]).length ≤ p
  top : esp + 4 * (argv.length + 4) ≤ sz
  page : sz % PGSIZE = 0 ∧ 2 * PGSIZE ≤ sz
  usable : present (pteOf m.word pgdir (entry (sz - PGSIZE))) ∧ forUser (pteOf m.word pgdir (entry (sz - PGSIZE)))
  guarded : present (pteOf m.word pgdir (entry (sz - 2 * PGSIZE))) ∧
    ¬forUser (pteOf m.word pgdir (entry (sz - 2 * PGSIZE)))

theorem Stack.usable (h : Stack L s r d lo hi top m) :
    (present (pteOf m.word d (entry (top - PGSIZE))) ∧ forUser (pteOf m.word d (entry (top - PGSIZE)))) ∧
      present (pteOf m.word d (entry (top - 2 * PGSIZE))) ∧ ¬forUser (pteOf m.word d (entry (top - 2 * PGSIZE))) := by
  have htwo := h.two
  have hin : top - PGSIZE < top ∧ top - 2 * PGSIZE < top := by
    simp only [PGSIZE] at htwo ⊢
    omega
  obtain ⟨huser, hpresent⟩ := h.present_entry hin.1 h.below.le
  obtain ⟨huser', hpresent'⟩ := h.present_entry hin.2 h.below.le
  rw [← Space.pte_holding s r d m]
  refine ⟨⟨hpresent, (h.laid.user _ huser hpresent).mpr h.base_not_guard⟩, hpresent', fun hfor => ?_⟩
  exact (h.laid.user _ huser' hpresent').mp hfor rfl

theorem Staged.roundup (h : Staged L G s r d lo hi sz m) : Staged L G s r d lo hi (PGROUNDUP sz) m := by
  refine ⟨h.toBuilt, fun e he => ?_, h.laid⟩
  rw [lt_PGROUNDUP_iff e (PGROUNDUP sz)]
  exact h.mapped e he

theorem Stack.pushArray (h : Stack L s r d lo hi top m)
    (hroom : (argv.map argRoom).sum + (top - PGSIZE) ≤ top) (hcount : argv.length ≤ MAXARG)
    (hsp : sp = top - (argv.map argRoom).sum)
    (hcopies : ∀ (i : Nat) arg p, argv[i]? = some arg → (argAddrs top argv)[i]? = some p →
    StandsAt m d p (arg ++ [0])) :
    Ends (fun _ => False) (Vm.copyout m d ((sp + 2 ^ 32 - (3 + argv.length + 1) * 4) % 2 ^ 32)
      (uintBytes ([0xffffffff, argv.length, (sp + 2 ^ 32 - (argv.length + 1) * 4) % 2 ^ 32] ++ argAddrs top argv ++
      [0]))) fun res =>
      Stack L s r d lo hi top res.2 ∧ (res.1 < 0 ↔ ¬Fits argv) ∧
        (¬res.1 < 0 → Delivered res.2 d top ((sp + 2 ^ 32 - (3 + argv.length + 1) * 4) % 2 ^ 32) argv
        (argAddrs top argv)) := by
  have htwo := h.two
  have hbelow := h.below
  simp only [KERNBASE, PGSIZE, MAXARG] at htwo hbelow hroom hcount
  obtain ⟨esp, hesp⟩ : ∃ esp, esp = (sp + 2 ^ 32 - (3 + argv.length + 1) * 4) % 2 ^ 32 := ⟨_, rfl⟩
  have hargv : (sp + 2 ^ 32 - (argv.length + 1) * 4) % 2 ^ 32 = esp + 12 := by omega
  rw [← hesp, hargv]
  generalize hwords : [0xffffffff, argv.length, esp + 12] ++ argAddrs top argv ++ [0] = words
  have hlen : (uintBytes words).length = 4 * (argv.length + 4) := by
    rw [length_uintBytes, ← hwords]
    simp only [List.length_append, List.length_cons, List.length_nil, length_argAddrs]
    omega
  have hne : uintBytes words ≠ [] := List.ne_nil_of_length_pos (by omega)
  by_cases hfits : Fits argv
  · have hpage := hfits.2
    simp only [PGSIZE] at hpage
    obtain ⟨m', hrun, hstack, hstands, hsame⟩ :=
      h.copyout_in esp hne (show top - PGSIZE ≤ esp by simp only [PGSIZE]; omega) (by omega)
    rw [hrun]
    refine .ok ⟨hstack, iff_of_false (show ¬(0 : Int) < 0 by decide) (not_not.mpr hfits), fun _ => ?_⟩
    have hbounds : ∀ (i : Nat) arg p, argv[i]? = some arg → (argAddrs top argv)[i]? = some p →
        esp + 4 * (argv.length + 4) ≤ p ∧ p + (arg ++ [0]).length ≤ top := by
      intro i arg p harg hp
      have hbound := argAddrs_bounds (show (argv.map argRoom).sum ≤ top by omega) harg hp
      rw [List.length_append, List.length_singleton]
      omega
    refine ⟨length_argAddrs _ _, fun i w hw => ?_, fun i arg p harg hp j b hj => ?_, ?_, hbounds,
      fun i j arg p q hij harg hp hq => ?_, by omega, ⟨h.aligned, h.two⟩, hstack.usable.1, hstack.usable.2⟩
    · rw [hwords] at hw
      rw [userWord_of_standsAt hstands hw, Nat.mod_eq_of_lt]
      have hmem := List.mem_of_getElem? hw
      rw [← hwords] at hmem
      simp only [List.mem_append, List.mem_cons, List.not_mem_nil, or_false] at hmem
      rcases hmem with ((hw' | hw' | hw') | hptr) | hw'
      · rw [hw']
        decide
      · omega
      · omega
      · obtain ⟨i, hi⟩ := List.mem_iff_getElem?.mp hptr
        obtain ⟨hlt, -⟩ := List.getElem?_eq_some_iff.mp hi
        rw [length_argAddrs] at hlt
        have hbound := (hbounds i _ w (List.getElem?_eq_getElem hlt) hi).2
        omega
      · omega
    · obtain ⟨hlow, hhigh⟩ := hbounds i arg p harg hp
      obtain ⟨hlt, -⟩ := List.getElem?_eq_some_iff.mp hj
      rw [hsame _ (by simp only [PGSIZE]; omega) (by omega) (Or.inr (by omega))]
      exact hcopies i arg p harg hp j b hj
    · dsimp only [PGSIZE]
      omega
    · have hapart := argAddrs_apart (show (argv.map argRoom).sum ≤ top by omega) hij harg hp hq
      rw [List.length_append, List.length_singleton]
      omega
  · have hnot : PGSIZE < (argv.map argRoom).sum + 4 * (argv.length + 4) := by
      by_contra hle
      exact hfits ⟨hcount, not_lt.mp hle⟩
    simp only [PGSIZE] at hnot
    have hout := h.copyout_out esp hne (show esp < 2 ^ 32 by omega) (by rw [hlen]; simp only [PGSIZE]; omega)
      (Or.inl (by simp only [PGSIZE]; omega))
    refine (hout.mono_stop fun err herr => ?_).mono fun res hres =>
      ⟨hres.1, iff_of_true hres.2 hfits, fun hok => absurd hres.2 hok⟩
    rw [hlen] at herr
    exact herr (Or.inl (by omega))

theorem Staged.buildStack [DecidableEq K] (h : Staged L ∅ s r d lo hi sz m) (hpool : Pool L lo hi) (ho : s.keep o = 0)
    (argv : List (List UInt8)) :
    Ends (fun _ => ¬∀ arg ∈ argv, arg.length < 2 ^ 24) (buildStack L m d sz argv) fun res => Built s r d lo hi res.2 ∧
        (∀ top sp, res.1 = some (top, sp) → Stack L s r d lo hi top res.2 ∧ Fits argv ∧
        Delivered res.2 d top sp argv (argAddrs top argv)) ∧
        (PGROUNDUP sz + 2 * PGSIZE < KERNBASE → Room m (2 * ((PGROUNDUP sz + 2 * PGSIZE) / PGSIZE + 1)) → Fits argv →
        res.1 ≠ none) := by
  refine ((h.roundup.allocuvm hpool ho _).mapError fun _ => False.elim).bind ?_
  rintro ⟨top, m₁⟩ ⟨hbuilt, hstaged, hsupply⟩
  dsimp only at hbuilt hstaged hsupply ⊢
  split
  · rename_i hzero
    refine .ok ⟨hbuilt, nofun, fun hlt hroom _ => absurd hzero (hsupply ?_ hlt hroom)⟩
    simp only [PGSIZE]
    omega
  rename_i hne
  obtain ⟨hstaged₁, hmax, hlt⟩ := hstaged hne
  have htop : top = PGROUNDUP sz + 2 * PGSIZE := by
    rw [hmax]
    exact Nat.max_eq_right (Nat.le_add_right _ _)
  rw [← htop] at hlt
  have htwo : 2 * PGSIZE ≤ top := by omega
  have haligned : top % PGSIZE = 0 := by
    rw [htop, Nat.add_mul_mod_self_right]
    exact PGROUNDUP_aligned sz
  refine ((hstaged₁.clearpteu (Nat.sub_lt (by omega) (by decide)) hlt.le).mapError fun _ => False.elim).bind ?_
  intro m₂ hm₂
  rw [insert_empty_eq] at hm₂
  have hstack : Stack L s r d lo hi top m₂ := ⟨hm₂, haligned, htwo, hlt⟩
  have hfour : top % 4 = 0 := by
    simp only [PGSIZE] at haligned
    omega
  refine (hstack.pushArgs argv [] (Nat.sub_le top PGSIZE) (le_refl top) hfour).bind ?_
  rintro ⟨pushed, m₃⟩ ⟨hm₃, hcases⟩
  rw [List.length_nil, Nat.zero_add, List.nil_append] at hcases
  rcases hcases with ⟨rfl, hnot⟩ | ⟨rfl, hroom, hcount, hcopies, -⟩
  · refine .ok ⟨hm₃.toBuilt, nofun, fun _ _ hfits => absurd ⟨?_, hfits.1⟩ hnot⟩
    have := hfits.2
    omega
  dsimp only
  have hmaxarg : argv.length ≤ MAXARG := by
    rcases hcount with hnil | hle
    · rw [hnil]
      exact Nat.zero_le MAXARG
    · exact hle
  have hpush := hm₃.pushArray hroom hmaxarg rfl hcopies
  rw [length_argAddrs]
  refine hpush.never.bind ?_
  rintro ⟨res, m₄⟩ ⟨hm₄, hfits, hdelivered⟩
  split
  · rename_i hneg
    exact .ok ⟨hm₄.toBuilt, nofun, fun _ _ hfit => absurd hfit (hfits.mp hneg)⟩
  · rename_i hok
    refine .ok ⟨hm₄.toBuilt, fun top' sp' hres => ?_, fun _ _ _ => Option.some_ne_none _⟩
    cases hres
    exact ⟨hm₄, by_contra fun hnot => hok (hfits.mpr hnot), hdelivered hok⟩

end Stack

end Laboratorio.Vm
