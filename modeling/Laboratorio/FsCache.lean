import Laboratorio.FsDirent
import Laboratorio.FsWellFormed

/-! The inode cache over the disk: `iget`, `ilock`, `iput`, and the inode operations on a cached inode.
The cache is coherent when it holds an inode at most once and every valid copy is what the disk has. Each
operation that completes keeps the cache coherent and the disk well formed, and none frees a block that
is free. -/

namespace Laboratorio.Fs

open Function

open Bytes

abbrev NINODE : Nat := 50

abbrev firstEntry : Fin NINODE := 0

/-- `struct inode`, with a copy of type `α` of what the disk has. -/
structure Inode (α : Type) where
  inum : Nat
  ref : Int
  valid : Bool
  copy : α

abbrev Icache (α : Type) := Fin NINODE → Inode α

section Cache

variable {α : Type} (c : Icache α)

/-- `iget`: the entry of the inode, or the first one that nobody refers to. -/
def iget (inum : Nat) : Except Stop (Fin NINODE × Icache α) :=
  match (List.finRange NINODE).find? fun k => 0 < (c k).ref ∧ (c k).inum = inum with
  | some k => .ok (k, update c k { c k with ref := (c k).ref + 1 })
  | none =>
    match (List.finRange NINODE).find? fun k => (c k).ref = 0 with
    | some k => .ok (k, update c k { c k with inum := inum, ref := 1, valid := false })
    | none => .error (.panic .cacheFull)

end Cache

structure State where
  disk : Disk
  icache : Icache Dinode

def State.boot (d : Disk) : State where
  disk := d
  icache := fun _ => { inum := 0, ref := 0, valid := false, copy := Dinode.blank 0 }

section Operations

variable (sb : Superblock) (dev : Devices)

/-- Replace the copy of an inode together with the disk. -/
def State.put (s : State) (k : Fin NINODE) (d : Disk) (ip : Dinode) : State where
  disk := d
  icache := update s.icache k { s.icache k with copy := ip }

def ilock (s : State) (k : Fin NINODE) : Except Stop State :=
  if (s.icache k).ref < 1 then .error (.panic .ilock)
  else if (s.icache k).valid then .ok s
  else
    let ip := loadInode sb s.disk (s.icache k).inum
    if ip.type = 0 then .error (.panic .noType)
    else .ok { s with icache := update s.icache k { s.icache k with valid := true, copy := ip } }

/-- The branch of `iput` for the last reference to an inode without links. -/
def ifree (s : State) (k : Fin NINODE) : Except Stop State := do
  let (d, ip) ← itrunc sb s.disk (s.icache k).inum (s.icache k).copy
  let ip := { ip with type := 0 }
  pure {
    disk := iupdate sb d (s.icache k).inum ip
    icache := update s.icache k { s.icache k with valid := false, copy := ip } }

def iput (s : State) (k : Fin NINODE) : Except Stop State := do
  let ip := s.icache k
  let s ← if ip.valid ∧ ip.copy.nlink = 0 ∧ ip.ref = 1 then ifree sb s k else pure s
  pure { s with icache := update s.icache k { s.icache k with ref := (s.icache k).ref - 1 } }

/-- `readi` and `writei` on a cached inode. -/
def cached (k : Fin NINODE) : Contents State where
  type s := (s.icache k).copy.type
  size s := (s.icache k).copy.size
  readi s off n := do
    let (r, d, ip) ← readi sb dev s.disk (s.icache k).copy off n
    pure (r, s.put k d ip)
  writei s src off := do
    let (r, d, ip) ← writei sb dev s.disk (s.icache k).inum (s.icache k).copy src off
    pure (r, s.put k d ip)

/-- `dirlink` into the locked directory `k`. When the name is found, `iput` waits for the lock of the
inode found. -/
def dirlink (s : State) (k : Fin NINODE) (name : List UInt8) (inum : Nat) : Except Stop (Int × State) := do
  let (found, s) ← dirlookup (cached sb dev k) s name
  match found with
  | some (i, _) => do
      let (l, c) ← iget s.icache i
      if l = k then throw .deadlock
      else do
        let s ← iput sb { s with icache := c } l
        pure (-1, s)
  | none => do
      let s ← addDirent (cached sb dev k) s name inum
      pure (0, s)

/-- The bytes of a call with a `uint` length. -/
structure Buffer where
  bytes : List UInt8
  fits : bytes.length < 2 ^ 32

/-- The calls that the kernel makes on inodes, each by a process that locks the inode for it. -/
inductive Op (sb : Superblock) where
  | iget (i : Fin sb.ninodes)
  | ialloc (type : UInt16)
  | readi (k : Fin NINODE) (off n : UInt32)
  | writei (k : Fin NINODE) (src : Buffer) (off : UInt32)
  | dirlink (k : Fin NINODE) (name : List UInt8) (inum : Nat)
  | iupdate (k : Fin NINODE) (major minor nlink : UInt16)
  | iput (k : Fin NINODE)

def step (s : State) : Op sb → Except Stop State
  | .iget i => do
      let (_, c) ← iget s.icache i
      pure { s with icache := c }
  | .ialloc type => do
      let (i, d) ← ialloc sb s.disk type
      let (_, c) ← iget s.icache i
      pure { disk := d, icache := c }
  | .readi k off n => do
      let s ← ilock sb s k
      let (_, s) ← (cached sb dev k).readi s off n
      pure s
  | .writei k src off => do
      let s ← ilock sb s k
      let (_, s) ← (cached sb dev k).writei s src.bytes off
      pure s
  | .dirlink k name inum => do
      let s ← ilock sb s k
      let (_, s) ← dirlink sb dev s k name inum
      pure s
  | .iupdate k major minor nlink => do
      let s ← ilock sb s k
      let ip := { (s.icache k).copy with major := major, minor := minor, nlink := nlink }
      pure (s.put k (iupdate sb s.disk (s.icache k).inum ip) ip)
  | .iput k => iput sb s k

end Operations

/-! ### Coherence -/

/-- The cache holds an inode once. -/
def Icache.Unique {α : Type} (c : Icache α) : Prop :=
  ∀ k l, 0 < (c k).ref → 0 < (c l).ref → (c k).inum = (c l).inum → k = l

structure Coherent (sb : Layout) (s : State) : Prop where
  wellFormed : WellFormed sb s.disk
  unique : s.icache.Unique
  inum_lt : ∀ k, 0 < (s.icache k).ref → (s.icache k).inum < sb.ninodes
  copies : ∀ k, 0 < (s.icache k).ref → (s.icache k).valid = true →
    (s.icache k).copy = loadInode sb s.disk (s.icache k).inum ∧ (s.icache k).copy.type ≠ 0

theorem Coherent.boot {sb : Layout} {d : Disk} (h : WellFormed sb d) : Coherent sb (State.boot d) :=
  ⟨h, fun _ _ hk => absurd hk (lt_irrefl 0), fun _ hk => absurd hk (lt_irrefl 0),
    fun _ hk => absurd hk (lt_irrefl 0)⟩

variable {sb : Layout} {s s' : State} {k l : Fin NINODE} {d' : Disk} {ip : Dinode} {inum : Nat}

theorem iget_cases {α : Type} {c c' : Icache α} (hrun : iget c inum = .ok (k, c')) :
    (0 < (c k).ref ∧ (c k).inum = inum ∧ c' = update c k { c k with ref := (c k).ref + 1 }) ∨
    ((∀ l, 0 < (c l).ref → (c l).inum ≠ inum) ∧ (c k).ref = 0 ∧
      c' = update c k { c k with inum := inum, ref := 1, valid := false }) := by
  unfold iget at hrun
  split at hrun
  · rename_i l hfind
    cases hrun
    have hfound := List.find?_some hfind
    obtain ⟨href, hinum⟩ := of_decide_eq_true hfound
    exact Or.inl ⟨href, hinum, rfl⟩
  · rename_i hnone
    split at hrun
    · rename_i l hfind
      cases hrun
      have hfound := List.find?_some hfind
      refine Or.inr ⟨fun l href hinum => ?_, of_decide_eq_true hfound, rfl⟩
      have hl := List.find?_eq_none.mp hnone l (List.mem_finRange l)
      exact hl (decide_eq_true ⟨href, hinum⟩)
    · cases hrun

theorem Icache.Unique.update {α : Type} {c : Icache α} (h : c.Unique) {e : Inode α}
    (hnew : 0 < e.ref → ∀ l, l ≠ k → 0 < (c l).ref → (c l).inum ≠ e.inum) :
    Icache.Unique (Function.update c k e) := by
  intro l m hl hm hinum
  by_cases hlk : l = k
  · by_cases hmk : m = k
    · rw [hlk, hmk]
    · rw [hlk, update_self] at hl hinum
      rw [update_of_ne hmk] at hm hinum
      exact absurd hinum.symm (hnew hl m hmk hm)
  · rw [update_of_ne hlk] at hl hinum
    by_cases hmk : m = k
    · rw [hmk, update_self] at hm hinum
      exact absurd hinum (hnew hm l hlk hl)
    · rw [update_of_ne hmk] at hm hinum
      exact h l m hl hm hinum

theorem Icache.Unique.inum_ne {α : Type} {c : Icache α} (h : c.Unique) (hk : 0 < (c k).ref) :
    ∀ l, l ≠ k → 0 < (c l).ref → (c l).inum ≠ (c k).inum :=
  fun l hlk hl hinum => hlk (h l k hl hk hinum)

theorem Coherent.change (h : Coherent sb s) {e : Inode Dinode} (hwf : WellFormed sb d')
    (hothers : ∀ l, l ≠ k → 0 < (s.icache l).ref → (s.icache l).valid = true →
      loadInode sb d' (s.icache l).inum = loadInode sb s.disk (s.icache l).inum)
      (hrange : 0 < e.ref → e.inum < sb.ninodes)
    (hcopy : 0 < e.ref → e.valid = true → e.copy = loadInode sb d' e.inum ∧ e.copy.type ≠ 0)
    (hnew : 0 < e.ref → ∀ l, l ≠ k → 0 < (s.icache l).ref → (s.icache l).inum ≠ e.inum) :
    Coherent sb { disk := d', icache := update s.icache k e } := by
  have hself : update s.icache k e k = e := update_self _ _ _
  have hold : ∀ l, l ≠ k → update s.icache k e l = s.icache l :=
    fun l hl => update_of_ne hl _ _
  refine ⟨hwf, h.unique.update hnew, ?_, ?_⟩
  · intro l hl
    dsimp only at hl ⊢
    by_cases hlk : l = k
    · rw [hlk, hself] at hl ⊢
      exact hrange hl
    · rw [hold l hlk] at hl ⊢
      exact h.inum_lt l hl
  · intro l hl hvalid
    dsimp only at hl hvalid ⊢
    by_cases hlk : l = k
    · rw [hlk, hself] at hl hvalid ⊢
      exact hcopy hl hvalid
    · rw [hold l hlk] at hl hvalid ⊢
      rw [hothers l hlk hl hvalid]
      exact h.copies l hl hvalid

theorem Coherent.entry (h : Coherent sb s) {e : Inode Dinode} (hrange : 0 < e.ref → e.inum < sb.ninodes)
    (hcopy : 0 < e.ref → e.valid = true → e.copy = loadInode sb s.disk e.inum ∧ e.copy.type ≠ 0)
    (hnew : 0 < e.ref → ∀ l, l ≠ k → 0 < (s.icache l).ref → (s.icache l).inum ≠ e.inum) :
    Coherent sb { s with icache := update s.icache k e } :=
  h.change h.wellFormed (fun _ _ _ _ => rfl) hrange hcopy hnew

theorem Coherent.iget {c : Icache Dinode} {i : Nat} (h : Coherent sb s) (hi : i < sb.ninodes)
    (hrun : iget s.icache i = .ok (k, c)) : Coherent sb { s with icache := c } := by
  rcases iget_cases hrun with ⟨href, hinum, rfl⟩ | ⟨hnone, hzero, rfl⟩
  · refine h.entry (fun _ => h.inum_lt k href) (fun _ hvalid => h.copies k href hvalid) ?_
    exact fun _ => h.unique.inum_ne href
  · exact h.entry (fun _ => hi) (fun _ hvalid => Bool.noConfusion hvalid) (fun _ l _ hl => hnone l hl)

theorem Coherent.iget_iput {c : Icache Dinode} {i : Nat} (h : Coherent sb s) (hrun : Fs.iget s.icache i = .ok (k, c)) :
    ∃ s', iput sb { s with icache := c } k = .ok s' ∧ Coherent sb s' := by
  rcases iget_cases hrun with ⟨href, hinum, rfl⟩ | ⟨hnone, hzero, rfl⟩
  · have hkeep : ¬((s.icache k).valid ∧ (s.icache k).copy.nlink = 0 ∧ (s.icache k).ref + 1 = 1) := by
      rintro ⟨-, -, hone⟩
      omega
    refine ⟨s, ?_, h⟩
    simp only [iput, update_self, hkeep, if_false, pure_eq_ok, ok_bind, update_idem,
      Int.add_sub_cancel, update_eq_self]
  · refine ⟨⟨s.disk, update s.icache k ⟨i, 0, false, (s.icache k).copy⟩⟩, ?_, ?_⟩
    · simp only [iput, update_self, Bool.false_eq_true, false_and, if_false, pure_eq_ok,
        ok_bind, update_idem]
      rfl
    · exact h.entry (fun hlt => absurd hlt (lt_irrefl 0)) (fun hlt => absurd hlt (lt_irrefl 0))
        (fun hlt => absurd hlt (lt_irrefl 0))

/-- What `ilock` leaves: a valid copy with a type. -/
structure Locked (sb : Layout) (s : State) (k : Fin NINODE) : Prop where
  coherent : Coherent sb s
  ref : 0 < (s.icache k).ref
  valid : (s.icache k).valid = true

namespace Locked

variable (h : Locked sb s k)

include h

theorem copy : (s.icache k).copy = loadInode sb s.disk (s.icache k).inum :=
  (h.coherent.copies k h.ref h.valid).1

theorem live : (loadInode sb s.disk (s.icache k).inum).type ≠ 0 := by
  rw [← h.copy]
  exact (h.coherent.copies k h.ref h.valid).2

theorem inum_lt : (s.icache k).inum < sb.ninodes := h.coherent.inum_lt k h.ref

theorem put (r : Replaces sb s.disk d' (s.icache k).inum ip) (hlive : ip.type ≠ 0) (hfull : ∀ o < ip.size.toNat,
      Mapped sb d' (within (loadInode sb s.disk) (s.icache k).inum ip) (s.icache k).inum o) :
    Locked sb (s.put k d' ip) k := by
  refine ⟨?_, ?_, ?_⟩
  · refine h.coherent.change (r.wellFormed h.coherent.wellFormed fun _ => hfull) ?_ (fun _ => h.inum_lt) ?_
      (fun _ => h.coherent.unique.inum_ne h.ref)
    · intro l hl href _
      exact r.loadInode_of_ne (h.coherent.inum_lt l href) (h.coherent.unique.inum_ne h.ref l hl href)
    · intro _ _
      exact ⟨(r.loadInode_self h.inum_lt).symm, hlive⟩
  · simp only [State.put, update_self]
    exact h.ref
  · simp only [State.put, update_self]
    exact h.valid

end Locked

theorem Coherent.ilock (h : Coherent sb s) (hrun : ilock sb s k = .ok s') : Locked sb s' k := by
  unfold Fs.ilock at hrun
  split at hrun
  · cases hrun
  rename_i href
  have href' : 0 < (s.icache k).ref := by omega
  split at hrun
  · rename_i hvalid
    cases hrun
    exact ⟨h, href', hvalid⟩
  dsimp only at hrun
  split at hrun
  · cases hrun
  · rename_i htype
    cases hrun
    refine ⟨h.entry (fun _ => h.inum_lt k href') (fun _ _ => ⟨rfl, htype⟩)
      (fun _ => h.unique.inum_ne href'), ?_, ?_⟩
    · simp only [update_self]
      exact href'
    · simp only [update_self]

/-! ### The operations -/

variable {dev : Devices}

theorem Locked.readi (h : Locked sb s k) (off n : UInt32) :
    ∃ r, (cached sb dev k).readi s off n = .ok (r, s) := by
  have hwf := h.coherent.wellFormed
  obtain ⟨r, hread⟩ := readi_same dev h.inum_lt h.live (hwf.full _ h.inum_lt h.live) off n
  refine ⟨r, ?_⟩
  simp only [cached, h.copy, hread, ok_bind, pure_eq_ok, State.put]
  rw [← h.copy, update_eq_self]

theorem Locked.writei {src : List UInt8} {off : UInt32} {r : Int} (h : Locked sb s k)
    (hsrc : src.length < 2 ^ 32) (hrun : (cached sb dev k).writei s src off = .ok (r, s')) :
    Locked sb s' k := by
  obtain ⟨⟨r', d', ip⟩, hwrite, hrun⟩ := bind_eq_ok hrun
  cases hrun
  rw [h.copy] at hwrite
  have hstay : Locked sb (s.put k s.disk (loadInode sb s.disk (s.icache k).inum)) k := by
    rw [State.put, ← h.copy, update_eq_self]
    exact h
  by_cases htype : (loadInode sb s.disk (s.icache k).inum).type = T_DEV
  · unfold Fs.writei at hwrite
    rw [if_pos htype] at hwrite
    split at hwrite
    · cases hwrite
      exact hstay
    · split at hwrite
      · cases hwrite
        exact hstay
      · cases hwrite
        exact hstay
  · rcases writei_spec h.coherent.wellFormed h.inum_lt h.live htype hsrc hwrite with
      ⟨-, -, rfl, rfl⟩ | ⟨-, -, hover⟩
    · exact hstay
    · exact h.put hover.replaces (by rw [hover.type]; exact h.live) hover.full

theorem Coherent.iput (h : Coherent sb s) : ∃ s', iput sb s k = .ok s' ∧ Coherent sb s' := by
  -- Dropping a reference is harmless whatever the entry holds.
  have hdrop : ∀ {t : State}, Coherent sb t →
      Coherent sb ⟨t.disk, update t.icache k { t.icache k with ref := (t.icache k).ref - 1 }⟩ := by
    intro t ht
    have hpos : 0 < (t.icache k).ref - 1 → 0 < (t.icache k).ref := fun hlt => by omega
    exact ht.entry (fun hlt => ht.inum_lt k (hpos hlt)) (fun hlt => ht.copies k (hpos hlt))
      (fun hlt => ht.unique.inum_ne (hpos hlt))
  unfold Fs.iput
  dsimp only
  split
  · rename_i hlast
    obtain ⟨hvalid, -, hone⟩ := hlast
    have hl : Locked sb s k := ⟨h, by omega, hvalid⟩
    obtain ⟨d₁, htrunc, hr⟩ := ifree_spec h.wellFormed hl.inum_lt hl.live
    have hfree : ifree sb s k =
        .ok ⟨iupdate sb d₁ (s.icache k).inum (loadInode sb s.disk (s.icache k).inum).freed,
          update s.icache k ⟨(s.icache k).inum, (s.icache k).ref, false,
            (loadInode sb s.disk (s.icache k).inum).freed⟩⟩ := by
      rw [ifree, hl.copy, htrunc, ok_bind]
      rfl
    rw [hfree, ok_bind]
    refine ⟨_, rfl, hdrop (h.change (hr.wellFormed h.wellFormed fun hc => absurd rfl hc) ?_
      (fun _ => hl.inum_lt) (fun _ hc => Bool.noConfusion hc) (fun _ => h.unique.inum_ne hl.ref))⟩
    intro l hlk href _
    exact hr.loadInode_of_ne (h.inum_lt l href) (h.unique.inum_ne hl.ref l hlk href)
  · rw [pure_eq_ok, ok_bind]
    exact ⟨_, rfl, hdrop h⟩

theorem encode_length (de : Dirent) : de.encode.length = de.name.length + 2 := rfl

theorem strncpy_length (n : Nat) (t : List UInt8) : (strncpy n t).length = n := by
  induction n generalizing t with
  | zero => rfl
  | succ n ih =>
    rw [strncpy]
    split
    · exact List.length_replicate
    · rw [List.length_cons, ih]

theorem Locked.findDirent {p : Panic} {test : Dirent → Bool} {fuel off off' : Nat} {found : Option Dirent}
    (h : Locked sb s k) (hrun : findDirent (cached sb dev k) p test fuel s off = .ok (found, off', s')) :
    s' = s := by
  rcases findDirent_same (cached sb dev k) (fun off n => h.readi off n) fuel off with
    ⟨found', off'', hok⟩ | herror
  · rw [hok] at hrun
    cases hrun
    rfl
  · rw [herror] at hrun
    cases hrun

variable {name : List UInt8}

theorem Locked.dirlookup {found : Option (Nat × Nat)} (h : Locked sb s k)
    (hrun : dirlookup (cached sb dev k) s name = .ok (found, s')) : s' = s := by
  unfold Fs.dirlookup at hrun
  split at hrun
  · cases hrun
  · obtain ⟨⟨de, off, s₂⟩, hfind, hrun⟩ := bind_eq_ok hrun
    cases hrun
    exact h.findDirent hfind

theorem Locked.addDirent (h : Locked sb s k)
    (hrun : addDirent (cached sb dev k) s name inum = .ok s') : Locked sb s' k := by
  obtain ⟨⟨de, off, s₁⟩, hfind, hrest⟩ := bind_eq_ok hrun
  obtain rfl := h.findDirent hfind
  obtain ⟨⟨r, s₂⟩, hwrite, hend⟩ := bind_eq_ok hrest
  dsimp only at hend
  split at hend
  · cases hend
  · cases hend
    refine h.writei ?_ hwrite
    rw [encode_length, strncpy_length]
    decide

theorem Locked.dirlink {r : Int} (h : Locked sb s k)
    (hrun : dirlink sb dev s k name inum = .ok (r, s')) : Coherent sb s' := by
  obtain ⟨⟨found, s₁⟩, hlookup, hrest⟩ := bind_eq_ok hrun
  obtain rfl := h.dirlookup hlookup
  cases found with
  | some p =>
    obtain ⟨⟨l, c⟩, hget, hrun⟩ := bind_eq_ok hrest
    dsimp only at hrun
    split at hrun
    · cases hrun
    · obtain ⟨s₂, hput, hrun⟩ := bind_eq_ok hrun
      cases hrun
      obtain ⟨s₃, hput', hc⟩ := h.coherent.iget_iput hget
      rw [hput'] at hput
      cases hput
      exact hc
  | none =>
    obtain ⟨s₂, hadd, hrun⟩ := bind_eq_ok hrest
    cases hrun
    exact (h.addDirent hadd).coherent

theorem Coherent.step {op : Op sb} (h : Coherent sb s) (hrun : step sb dev s op = .ok s') :
    Coherent sb s' := by
  cases op with
  | iget i =>
    obtain ⟨⟨k, c⟩, hget, hrun⟩ := bind_eq_ok hrun
    cases hrun
    exact h.iget i.isLt hget
  | ialloc type =>
    obtain ⟨⟨i, d⟩, halloc, hrun⟩ := bind_eq_ok hrun
    obtain ⟨⟨k, c⟩, hget, hrun⟩ := bind_eq_ok hrun
    cases hrun
    obtain ⟨hi, -, hfree, hr⟩ := ialloc_spec h.wellFormed halloc
    have hwf : WellFormed sb d := hr.wellFormed h.wellFormed fun _ o ho => absurd ho (Nat.not_lt_zero o)
    -- A free inode has no valid copy.
    have hstale : ∀ l, 0 < (s.icache l).ref → (s.icache l).valid = true → (s.icache l).inum ≠ i := by
      intro l href hvalid hinum
      obtain ⟨hcopy, htype⟩ := h.copies l href hvalid
      rw [hcopy, hinum] at htype
      exact htype hfree
    have hdisk : Coherent sb ⟨d, s.icache⟩ := by
      refine ⟨hwf, h.unique, h.inum_lt, fun l href hvalid => ?_⟩
      rw [hr.loadInode_of_ne (h.inum_lt l href) (hstale l href hvalid)]
      exact h.copies l href hvalid
    exact hdisk.iget hi hget
  | readi k off n =>
    obtain ⟨s₁, hlock, hrun⟩ := bind_eq_ok hrun
    obtain ⟨⟨r, s₂⟩, hread, hrun⟩ := bind_eq_ok hrun
    cases hrun
    have hl := h.ilock hlock
    have hsame : ∃ r', (cached sb dev k).readi s₁ off n = .ok (r', s₁) := hl.readi off n
    obtain ⟨r', hread'⟩ := hsame
    rw [hread'] at hread
    cases hread
    exact hl.coherent
  | writei k src off =>
    obtain ⟨s₁, hlock, hrun⟩ := bind_eq_ok hrun
    obtain ⟨⟨r, s₂⟩, hwrite, hrun⟩ := bind_eq_ok hrun
    cases hrun
    exact ((h.ilock hlock).writei src.fits hwrite).coherent
  | dirlink k name inum =>
    obtain ⟨s₁, hlock, hrun⟩ := bind_eq_ok hrun
    obtain ⟨⟨r, s₂⟩, hlink, hrun⟩ := bind_eq_ok hrun
    cases hrun
    exact (h.ilock hlock).dirlink hlink
  | iupdate k major minor nlink =>
    obtain ⟨s₁, hlock, hrun⟩ := bind_eq_ok hrun
    cases hrun
    have hl := h.ilock hlock
    have hwf := hl.coherent.wellFormed
    rw [hl.copy]
    generalize hip : ({ loadInode sb s₁.disk (s₁.icache k).inum with
      major := major, minor := minor, nlink := nlink } : Dinode) = ip
    have htype : ip.type = (loadInode sb s₁.disk (s₁.icache k).inum).type := by rw [← hip]
    have hsize : ip.size = (loadInode sb s₁.disk (s₁.icache k).inum).size := by rw [← hip]
    have haddrs : ip.addrs = (loadInode sb s₁.disk (s₁.icache k).inum).addrs := by rw [← hip]
    obtain ⟨hr, hkept⟩ := hwf.iupdate hl.inum_lt htype haddrs
    refine (hl.put hr (by rw [htype]; exact hl.live) fun o ho => ?_).coherent
    rw [hsize] at ho
    exact (hkept _ o (hwf.full _ hl.inum_lt hl.live o ho)).1
  | iput k =>
    obtain ⟨s₁, hput, hc⟩ := h.iput (k := k)
    change Fs.iput sb s k = .ok s' at hrun
    rw [hput] at hrun
    cases hrun
    exact hc

end Laboratorio.Fs
