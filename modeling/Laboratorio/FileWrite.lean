import Laboratorio.FsArrays
import Laboratorio.Trace
import Mathlib.Tactic.IntervalCases

/-! `filewrite` of `file.c` on one `struct file` that processes share. A write is cut into chunks, each written
by one `writei` between `begin_op` and `end_op`; such a section, with the lock of the inode, is one step. The
offset is read and advanced in it. -/

namespace Laboratorio.Files

open Function

open Fs

abbrev MAXWRITE : Nat := ((MAXOPBLOCKS - 1 - 1 - 2) / 2) * 512

structure File where
  writable : Bool
  ip : Fin NINODE
  off : UInt32

/-- A call of `filewrite` that has written `i` bytes. -/
structure Call where
  addr : Buffer
  i : Nat

/-- The bytes of the next chunk: `n1` of them, from `addr + i`. -/
def Call.chunk (c : Call) : Buffer where
  bytes := (c.addr.bytes.drop c.i).take MAXWRITE
  fits := by
    have hfits := c.addr.fits
    rw [List.length_take, List.length_drop]
    omega

structure State (P : Type) where
  fs : Fs.State
  file : File
  call : P → Option Call

def State.init (P : Type) (fs : Fs.State) (file : File) : State P where
  fs := fs
  file := file
  call := fun _ => none

inductive Act (P : Type) where
  | write (p : P) (addr : Buffer)
  | chunk (p : P)
  | ret (p : P)

section Steps

variable {P : Type} [DecidableEq P] (sb : Superblock) (dev : Devices) (s : State P)

def State.setCall (p : P) (c : Option Call) : State P := { s with call := update s.call p c }

/-- The `writei` of a chunk, with what it returns. -/
def writeChunk (c : Call) : Except Stop (Answer × Fs.State) :=
  Fs.call sb dev s.fs (.writei s.file.ip c.chunk s.file.off)

/-- One turn of the loop. A `writei` that fails ends the call; a short one is a panic. -/
def chunk (p : P) (c : Call) : Option (State P) :=
  match writeChunk sb dev s c with
  | .error _ => none
  | .ok ((r, _), fs) =>
    let file := if 0 < r then { s.file with off := s.file.off + UInt32.ofNat r.toNat } else s.file
    let s := { s with fs := fs, file := file }
    if r < 0 then some (s.setCall p none)
    else if r ≠ c.chunk.bytes.length then none
    else some (s.setCall p (some { c with i := c.i + r.toNat }))

def step : Act P → Option (State P)
  | .write p addr =>
    match s.call p with
    | some _ => none
    | none => some (if s.file.writable then s.setCall p (some ⟨addr, 0⟩) else s)
  | .chunk p =>
    match s.call p with
    | none => none
    | some c => if c.i < c.addr.bytes.length then chunk sb dev s p c else none
  | .ret p =>
    match s.call p with
    | none => none
    | some c => if c.i < c.addr.bytes.length then none else some (s.setCall p none)

/-- What the `writei` of a step returns. -/
def result : Act P → Option Int
  | .chunk p => (s.call p).bind fun c => (writeChunk sb dev s c).toOption.map fun r => r.1.1
  | _ => none

end Steps

structure Chunk (P : Type) where
  proc : P
  start : Nat
  bytes : List UInt8

/-- The chunk that a step writes. -/
def written {P : Type} (s : State P) : Act P → List (Chunk P)
  | .chunk p => ((s.call p).map fun c => ⟨p, s.file.off.toNat, c.chunk.bytes⟩).toList
  | _ => []

/-! ### Chunks in a row -/

section Rows

variable {P : Type} {off : ℕ} {c : Chunk P} {cs xs ys : List (Chunk P)}

def bytesOf (cs : List (Chunk P)) : List UInt8 := cs.flatMap Chunk.bytes

theorem bytesOf_append (xs ys : List (Chunk P)) : bytesOf (xs ++ ys) = bytesOf xs ++ bytesOf ys :=
  List.flatMap_append

theorem bytesOf_cons (c : Chunk P) (cs : List (Chunk P)) : bytesOf (c :: cs) = c.bytes ++ bytesOf cs :=
  List.flatMap_cons

theorem bytesOf_singleton (c : Chunk P) : bytesOf [c] = c.bytes := List.flatMap_singleton Chunk.bytes c

/-- Each chunk starts where the one before it ends, the first one at `off`. -/
def Placed : ℕ → List (Chunk P) → Prop
  | _, [] => True
  | off, c :: cs => c.start = off ∧ Placed (off + c.bytes.length) cs

theorem placed_append : Placed off (xs ++ ys) ↔ Placed off xs ∧ Placed (off + (bytesOf xs).length) ys := by
  induction xs generalizing off with
  | nil => exact ⟨fun h => ⟨trivial, h⟩, And.right⟩
  | cons c xs ih =>
    rw [List.cons_append, Placed, Placed, ih, and_assoc, bytesOf_cons, List.length_append, Nat.add_assoc]

theorem Placed.le_start (h : Placed off cs) (hc : c ∈ cs) : off ≤ c.start := by
  induction cs generalizing off with
  | nil => cases hc
  | cons d cs ih =>
    rcases List.mem_cons.mp hc with rfl | hmem
    · exact Nat.le_of_eq h.1.symm
    · exact (Nat.le_add_right _ _).trans (ih h.2 hmem)

theorem Placed.pairwise (h : Placed off cs) : cs.Pairwise fun c d => c.start + c.bytes.length ≤ d.start := by
  induction cs generalizing off with
  | nil => exact List.Pairwise.nil
  | cons c cs ih =>
    refine List.pairwise_cons.mpr ⟨fun d hd => ?_, ih h.2⟩
    rw [h.1]
    exact h.2.le_start hd

theorem Placed.stretch (h : Placed off cs) (hc : c ∈ cs) {a : List UInt8} (ha : off ≤ a.length) :
    ((overwrite a off (bytesOf cs)).drop c.start).take c.bytes.length = c.bytes := by
  obtain ⟨xs, ys, rfl⟩ := List.append_of_mem hc
  obtain ⟨-, hstart, -⟩ := placed_append.mp h
  rw [hstart, bytesOf_append, bytesOf_cons, ← List.append_assoc]
  exact overwrite_stretch ha _ _ _

end Rows

/-! ### One step -/

variable {P : Type} [DecidableEq P] {sb : Layout} {dev : Devices} {fs₀ : Fs.State} {f : File} {s s' : State P} {p : P}
  {c : Call}

/-- The file stays open on the same regular inode. -/
structure Open (sb : Layout) (fs₀ : Fs.State) (f : File) (s : State P) : Prop where
  coherent : Coherent sb s.fs
  regular : Regular sb s.fs f.ip
  ip : s.file.ip = f.ip
  writable : s.file.writable = f.writable
  inum : (s.fs.icache f.ip).inum = (fs₀.icache f.ip).inum

def State.bytes (sb : Layout) (fs₀ : Fs.State) (f : File) (s : State P) : List UInt8 :=
  contents sb s.fs.disk (fs₀.icache f.ip).inum

theorem length_chunk (c : Call) : c.chunk.bytes.length = min 1536 (c.addr.bytes.length - c.i) := by
  rw [Call.chunk, List.length_take, List.length_drop]
  rfl

theorem chunk_writes (h : Open sb fs₀ f s) (hc : s.call p = some c) (hstep : step sb dev s (.chunk p) = some s')
    (hok : ∀ r, result sb dev s (.chunk p) = some r → 0 ≤ r) :
    Open sb fs₀ f s' ∧ s'.call = update s.call p (some { c with i := c.i + c.chunk.bytes.length }) ∧
      s'.file.off.toNat = s.file.off.toNat + c.chunk.bytes.length ∧ s.file.off.toNat ≤ (s.bytes sb fs₀ f).length ∧
      s'.bytes sb fs₀ f = overwrite (s.bytes sb fs₀ f) s.file.off.toNat c.chunk.bytes ∧ 0 < c.chunk.bytes.length := by
  rw [step, hc] at hstep
  rw [result, hc] at hok
  dsimp only at hstep
  split at hstep
  · rename_i hlt
    have hpos : 0 < c.chunk.bytes.length := by
      rw [length_chunk]
      omega
    rw [chunk] at hstep
    cases hwrite : writeChunk sb dev s c with
    | error stop =>
      rw [hwrite] at hstep
      cases hstep
    | ok out =>
      obtain ⟨a, fs⟩ := out
      rw [writeChunk, h.ip] at hwrite
      obtain ⟨hcoherent, hfiles, hcases⟩ := writei_ran h.coherent h.regular hwrite
      have hnext : Regular sb fs f.ip := hfiles.regular h.regular (h.coherent.inum_lt _ h.regular.ref)
      have hinum : (fs.icache f.ip).inum = (fs₀.icache f.ip).inum := (hfiles.inum _).trans h.inum
      rw [h.inum] at hcases
      rcases hcases with ⟨-, rfl, -⟩ | ⟨haccept, rfl, hcontents, -⟩
      · have hneg := hok (-1) (by
          rw [Option.bind_some, writeChunk, h.ip, hwrite]
          rfl)
        exact absurd hneg (by decide)
      have hsum : c.chunk.bytes.length < 2 ^ 32 ∧ s.file.off.toNat + c.chunk.bytes.length < 2 ^ 32 ∧
          s.file.off.toNat ≤ (s.bytes sb fs₀ f).length := by
        rw [rejectsWrite, not_or, not_or, Nat.not_lt, Nat.not_le] at haccept
        exact ⟨c.chunk.fits, haccept.2.1, haccept.1⟩
      obtain ⟨hfits, hwrap, hoff⟩ := hsum
      have hmoved : (s.file.off + UInt32.ofNat c.chunk.bytes.length).toNat =
          s.file.off.toNat + c.chunk.bytes.length := by
        rw [UInt32.toNat_add, UInt32.toNat_ofNat_of_lt' hfits, Nat.mod_eq_of_lt hwrap]
      rw [writeChunk, h.ip, hwrite] at hstep
      dsimp only at hstep
      rw [if_neg (Int.not_lt.mpr (Int.natCast_nonneg _)), if_neg (not_not_intro rfl), Int.toNat_natCast,
        if_pos (Int.natCast_pos.mpr hpos)] at hstep
      cases hstep
      exact ⟨⟨hcoherent, hnext, h.ip, h.writable, hinum⟩, rfl, hmoved, hoff, hcontents, hpos⟩
  · cases hstep

theorem quiet_step {a : Act P} (h : Open sb fs₀ f s) (ha : ∀ q, a ≠ .chunk q) (hstep : step sb dev s a = some s') :
    Open sb fs₀ f s' ∧ s'.file.off = s.file.off ∧ s'.bytes sb fs₀ f = s.bytes sb fs₀ f := by
  have hcall : ∀ (q : P) (d : Option Call), Open sb fs₀ f (s.setCall q d) :=
    fun _ _ => ⟨h.coherent, h.regular, h.ip, h.writable, h.inum⟩
  cases a with
  | chunk q => exact absurd rfl (ha q)
  | write q addr =>
    rw [step] at hstep
    split at hstep
    · cases hstep
    · cases hstep
      split
      · exact ⟨hcall q _, rfl, rfl⟩
      · exact ⟨h, rfl, rfl⟩
  | ret q =>
    rw [step] at hstep
    split at hstep
    · cases hstep
    · split at hstep
      · cases hstep
      · cases hstep
        exact ⟨hcall q _, rfl, rfl⟩

/-! ### Runs -/

section Runs

variable (e : Trace (State.init P fs₀ f) (step (sb : Superblock) dev))

def chunks (t : ℕ) : List (Chunk P) := (List.range t).flatMap fun k => written (e.state k) (e.act k)

theorem chunks_succ (t : ℕ) : chunks e (t + 1) = chunks e t ++ written (e.state t) (e.act t) := by
  rw [chunks, List.range_succ, List.flatMap_append, List.flatMap_singleton]
  rfl

def bytesAtStart (sb : Layout) (fs₀ : Fs.State) (f : File) : List UInt8 :=
  contents sb fs₀.disk (fs₀.icache f.ip).inum

/-- After some steps of which no `writei` failed: the chunks are in a row from the first offset on, and the
file is the one at the start overwritten with them. -/
structure Row (t : ℕ) : Prop where
  isOpen : Open sb fs₀ f (e.state t)
  off : (e.state t).file.off.toNat = f.off.toNat + (bytesOf (chunks e t)).length
  inside : chunks e t ≠ [] → f.off.toNat ≤ (bytesAtStart sb fs₀ f).length
  bytes : (e.state t).bytes sb fs₀ f = overwrite (bytesAtStart sb fs₀ f) f.off.toNat (bytesOf (chunks e t))
  placed : Placed f.off.toNat (chunks e t)
  short : ∀ c ∈ chunks e t, c.bytes.length ≤ 1536

variable {e}

theorem Row.step {t : ℕ} (h : Row e t) (ht : t < e.len)
    (hok : ∀ r, result sb dev (e.state t) (e.act t) = some r → 0 ≤ r) : Row e (t + 1) := by
  have hnext := e.next t ht
  have hquiet : written (e.state t) (e.act t) = [] → (∀ q, e.act t ≠ .chunk q) → Row e (t + 1) := by
    intro hnone hact
    obtain ⟨hopen, hoff, hbytes⟩ := quiet_step h.isOpen hact hnext
    have hsame : chunks e (t + 1) = chunks e t := by rw [chunks_succ, hnone, List.append_nil]
    constructor
    · exact hopen
    · rw [hoff, hsame]
      exact h.off
    · rw [hsame]
      exact h.inside
    · rw [hbytes, hsame]
      exact h.bytes
    · rw [hsame]
      exact h.placed
    · rw [hsame]
      exact h.short
  cases hact : e.act t with
  | write q addr | ret q => exact hquiet (by rw [hact]; rfl) (by rw [hact]; nofun)
  | chunk q =>
    rw [hact] at hnext hok
    cases hcall : (e.state t).call q with
    | none =>
      rw [Files.step, hcall] at hnext
      cases hnext
    | some c =>
      obtain ⟨hopen, -, hoff, hle, hbytes, -⟩ := chunk_writes h.isOpen hcall hnext hok
      have hchunks : chunks e (t + 1) = chunks e t ++ [⟨q, (e.state t).file.off.toNat, c.chunk.bytes⟩] := by
        rw [chunks_succ, hact, written, hcall]
        rfl
      have hbytesOf : bytesOf (chunks e (t + 1)) = bytesOf (chunks e t) ++ c.chunk.bytes := by
        rw [hchunks, bytesOf_append, bytesOf_singleton]
      have hinside : f.off.toNat ≤ (bytesAtStart sb fs₀ f).length := by
        by_cases hnil : chunks e t = []
        · have hempty : bytesOf (chunks e t) = [] := by
            rw [hnil]
            rfl
          have hoff₀ := h.off
          rw [h.bytes, hempty, overwrite_nil, hoff₀, hempty] at hle
          exact hle
        · exact h.inside hnil
      constructor
      · exact hopen
      · rw [hoff, h.off, hbytesOf, List.length_append, Nat.add_assoc]
      · exact fun _ => hinside
      · rw [hbytes, h.bytes, h.off, hbytesOf]
        exact overwrite_append hinside _ _
      · rw [hchunks, placed_append]
        exact ⟨h.placed, h.off, trivial⟩
      intro d hd
      rw [hchunks] at hd
      rcases List.mem_append.mp hd with hmem | hmem
      · exact h.short d hmem
      · rw [List.mem_singleton.mp hmem]
        rw [length_chunk]
        exact Nat.min_le_left _ _

variable (e)

theorem run_row (hcoherent : Coherent sb fs₀) (hregular : Regular sb fs₀ f.ip)
    (hok : ∀ t < e.len, ∀ r, result sb dev (e.state t) (e.act t) = some r → 0 ≤ r) : ∀ t ≤ e.len, Row e t := by
  intro t
  induction t with
  | zero =>
    intro _
    have hstart := e.start
    refine ⟨?_, ?_, fun hne => absurd rfl hne, ?_, trivial, nofun⟩
    · rw [hstart]
      exact ⟨hcoherent, hregular, rfl, rfl, rfl⟩
    · rw [hstart]
      rfl
    · rw [hstart]
      exact (overwrite_nil _ _).symm
  | succ t ih =>
    intro ht
    exact (ih (by omega)).step ht (hok t ht)

/-- The chunks of process `p` in steps `u` to `t`. -/
def chunksOf (p : P) (u t : ℕ) : List (Chunk P) := ((chunks e t).drop (chunks e u).length).filter (·.proc = p)

theorem chunksOf_succ (p : P) {u t : ℕ} (hut : u ≤ t) :
    chunksOf e p u (t + 1) = chunksOf e p u t ++ (written (e.state t) (e.act t)).filter (·.proc = p) := by
  have hle : (chunks e u).length ≤ (chunks e t).length := by
    induction t, hut using Nat.le_induction with
    | base => exact Nat.le_refl _
    | succ t _ ih =>
      rw [chunks_succ, List.length_append]
      exact ih.trans (Nat.le_add_right _ _)
  rw [chunksOf, chunks_succ, List.drop_append_of_le_length hle, List.filter_append]
  rfl

/-- What one step does to the call of process `p`: nothing, a new call, a chunk more, or the return from a call
that has written all its bytes. -/
theorem step_call {a : Act P} (h : Open sb fs₀ f s) (hstep : step sb dev s a = some s')
    (hok : ∀ r, result sb dev s a = some r → 0 ≤ r) (p : P) :
    s'.call p = s.call p ∧ (written s a).filter (·.proc = p) = [] ∨ (∃ addr, a = .write p addr) ∨
    (∃ c, s.call p = some c ∧ s'.call p = some { c with i := c.i + c.chunk.bytes.length } ∧
      bytesOf ((written s a).filter (·.proc = p)) = c.chunk.bytes) ∨
    (∃ c, s.call p = some c ∧ c.addr.bytes.length ≤ c.i ∧ s'.call p = none ∧ written s a = []) := by
  cases a with
  | write q addr =>
    by_cases hq : q = p
    · exact Or.inr (Or.inl ⟨addr, by rw [hq]⟩)
    rw [step] at hstep
    split at hstep
    · cases hstep
    · cases hstep
      refine Or.inl ⟨?_, rfl⟩
      split
      · exact update_of_ne (Ne.symm hq) _ _
      · rfl
  | chunk q =>
    cases hcall : s.call q with
    | none =>
      rw [step, hcall] at hstep
      cases hstep
    | some c =>
      obtain ⟨-, hnext, -⟩ := chunk_writes h hcall hstep hok
      rw [written, hcall]
      by_cases hq : q = p
      · subst hq
        refine Or.inr (Or.inr (Or.inl ⟨c, hcall, by rw [hnext, update_self], ?_⟩))
        rw [Option.map_some, Option.toList_some, List.filter_singleton, decide_eq_true rfl]
        exact bytesOf_singleton _
      · refine Or.inl ⟨by rw [hnext, update_of_ne (Ne.symm hq)], ?_⟩
        rw [Option.map_some, Option.toList_some, List.filter_singleton, decide_eq_false hq]
        rfl
  | ret q =>
    rw [step] at hstep
    split at hstep
    · cases hstep
    rename_i c hcall
    split at hstep
    · cases hstep
    · rename_i hdone
      cases hstep
      by_cases hq : q = p
      · subst hq
        exact Or.inr (Or.inr (Or.inr ⟨c, hcall, Nat.not_lt.mp hdone, update_self _ _ _, rfl⟩))
      · exact Or.inl ⟨update_of_ne (Ne.symm hq) _ _, rfl⟩

theorem run_call (hrow : ∀ t ≤ e.len, Row e t) (hwritable : f.writable = true)
    (hok : ∀ t < e.len, ∀ r, result sb dev (e.state t) (e.act t) = some r → 0 ≤ r) {p : P} {u : ℕ} {addr : Buffer}
    (hu : e.act u = .write p addr) :
    ∀ t, u < t → t ≤ e.len → (∀ x, u < x → x < t → ∀ addr', e.act x ≠ .write p addr') →
      (∀ c, (e.state t).call p = some c → c.addr = addr ∧ bytesOf (chunksOf e p u t) = addr.bytes.take c.i) ∧
      ((e.state t).call p = none → bytesOf (chunksOf e p u t) = addr.bytes) := by
  intro t hut
  induction t, hut using Nat.le_induction with
  | base =>
    intro ht _
    have hnext := e.next u ht
    have hstart : (e.state (u + 1)).call p = some ⟨addr, 0⟩ := by
      rw [hu, step] at hnext
      split at hnext
      · cases hnext
      · rw [(hrow u (by omega)).isOpen.writable, hwritable, if_pos rfl, Option.some_inj] at hnext
        rw [← hnext]
        exact update_self _ _ _
    have hnone : chunksOf e p u (u + 1) = [] := by
      rw [chunksOf_succ e p (Nat.le_refl u), hu, chunksOf, List.drop_length]
      rfl
    rw [hstart, hnone]
    refine ⟨fun c hc => ?_, nofun⟩
    cases hc
    exact ⟨rfl, rfl⟩
  | succ t hut ih =>
    intro ht hnone
    obtain ⟨hsome, hreturned⟩ := ih (by omega) fun x hux hxt => hnone x hux (by omega)
    rw [chunksOf_succ e p (by omega), bytesOf_append]
    rcases step_call (hrow t (by omega)).isOpen (e.next t ht) (hok t ht) p with
      ⟨hsame, hquiet⟩ | ⟨addr', hact⟩ | ⟨c, hcall, hnext, hbytes⟩ | ⟨c, hcall, hdone, hnext, hquiet⟩
    · rw [hsame, hquiet]
      simpa only [bytesOf, List.flatMap_nil, List.append_nil] using ⟨hsome, hreturned⟩
    · exact absurd hact (hnone t (by omega) (by omega) addr')
    · obtain ⟨haddr, hprefix⟩ := hsome c hcall
      rw [hnext, hbytes, hprefix]
      refine ⟨fun d hd => ?_, nofun⟩
      cases hd
      refine ⟨haddr, ?_⟩
      rw [← haddr]
      have hchunk : c.chunk.bytes = (c.addr.bytes.drop c.i).take c.chunk.bytes.length :=
        List.prefix_iff_eq_take.mp (List.take_prefix _ _)
      calc c.addr.bytes.take c.i ++ c.chunk.bytes
          = c.addr.bytes.take c.i ++ (c.addr.bytes.drop c.i).take c.chunk.bytes.length := by rw [← hchunk]
        _ = c.addr.bytes.take (c.i + c.chunk.bytes.length) := List.take_add.symm
    · obtain ⟨haddr, hprefix⟩ := hsome c hcall
      rw [hnext, hquiet]
      refine ⟨nofun, fun _ => ?_⟩
      rw [List.filter_nil, hprefix, ← haddr, List.take_of_length_le hdone]
      exact List.append_nil _

/-- In every run in which no `writei` fails, at every time: the offset is the first one plus the bytes written;
every chunk has at most 1536 bytes and is in the file where it was written; the ranges of the chunks are
disjoint and in the order of the chunks; and the chunks of one call are, in order, the bytes that it has
written, which are all its bytes once it has returned. -/
theorem shared_writes_keep_bytes (hcoherent : Coherent sb fs₀) (hregular : Regular sb fs₀ f.ip)
    (hwritable : f.writable = true)
    (hok : ∀ t < e.len, ∀ r, result sb dev (e.state t) (e.act t) = some r → 0 ≤ r) :
    ∀ t ≤ e.len,
      (e.state t).file.off.toNat = f.off.toNat + ((chunks e t).map fun c => c.bytes.length).sum ∧
      (∀ c ∈ chunks e t, c.bytes.length ≤ 1536 ∧
        ((contents sb (e.state t).fs.disk (fs₀.icache f.ip).inum).drop c.start).take c.bytes.length = c.bytes) ∧
      (chunks e t).Pairwise (fun c d => c.start + c.bytes.length ≤ d.start) ∧
      ∀ p u addr, u < t → e.act u = .write p addr → (∀ x, u < x → x < t → ∀ addr', e.act x ≠ .write p addr') →
        (∀ c, (e.state t).call p = some c → bytesOf (chunksOf e p u t) = addr.bytes.take c.i) ∧
        ((e.state t).call p = none → bytesOf (chunksOf e p u t) = addr.bytes) := by
  intro t ht
  have hrows := run_row e hcoherent hregular hok
  have hrow := hrows t ht
  refine ⟨?_, fun c hc => ⟨hrow.short c hc, ?_⟩, hrow.placed.pairwise, fun p u addr hut hact hnone => ?_⟩
  · rw [hrow.off, bytesOf, List.length_flatMap]
  · have hbytes := hrow.bytes
    rw [State.bytes] at hbytes
    rw [hbytes]
    exact hrow.placed.stretch hc (hrow.inside (List.ne_nil_of_mem hc))
  · obtain ⟨hsome, hreturned⟩ := run_call e hrows hwritable hok hact t hut ht hnone
    exact ⟨fun c hc => (hsome c hc).2, hreturned⟩

end Runs

/-! Two processes write to a new file, 2000 and 1600 bytes, in two chunks each; the chunks of the second one come
between those of the first. -/

abbrev noDevices : Devices := ⟨fun _ => none, fun _ => none⟩

def sevens : Buffer := ⟨List.replicate 2000 7, by rw [List.length_replicate]; decide⟩

def nines : Buffer := ⟨List.replicate 1600 9, by rw [List.length_replicate]; decide⟩

def interleaved : List (Act (Fin 2)) :=
  [.write 0 sevens, .write 1 nines, .chunk 0, .chunk 1, .chunk 1, .chunk 0, .ret 1, .ret 0]

/-- A step whose `writei` does not fail. -/
def stepOk (s : State (Fin 2)) (a : Act (Fin 2)) : Option (State (Fin 2)) :=
  if (result mkfsLayout noDevices s a).all (0 ≤ ·) then step mkfsLayout noDevices s a else none

theorem interleaved_runs : ∃ e : Trace (State.init (Fin 2) oneFile ⟨true, 0, 0⟩) (step mkfsLayout noDevices),
    e.len = 8 ∧ (∀ t, e.act t = interleaved.getD t (.ret 0)) ∧
      (∀ t < e.len, ∀ r, result mkfsLayout noDevices (e.state t) (e.act t) = some r → 0 ≤ r) ∧
      (e.state 8).call 0 = none ∧ (e.state 8).call 1 = none := by
  have htest : (interleaved.foldlM stepOk (State.init (Fin 2) oneFile ⟨true, 0, 0⟩)).map
      (fun s => decide ((s.call 0).isNone ∧ (s.call 1).isNone)) = some true := by decide +kernel
  obtain ⟨s, hs, hcalls⟩ := Option.map_eq_some_iff.mp htest
  obtain ⟨h0, h1⟩ := of_decide_eq_true hcalls
  rw [Option.isNone_iff_eq_none] at h0 h1
  have hsome : (interleaved.foldlM stepOk (State.init (Fin 2) oneFile ⟨true, 0, 0⟩)).isSome := by
    rw [hs]
    rfl
  have hlast : (Trace.ofList interleaved (.ret 0) hsome).state 8 = s := Trace.ofList_last (.ret 0) hsome hs
  have hnext := fun t ht => Option.ite_none_right_eq_some.mp ((Trace.ofList interleaved (.ret 0) hsome).next t ht)
  refine ⟨⟨8, _, _, rfl, fun t ht => (hnext t ht).2⟩, rfl, fun t => rfl, fun t ht r hr => ?_, ?_, ?_⟩
  · have hall := (hnext t ht).1
    rw [hr] at hall
    simpa using hall
  · dsimp only
    rw [hlast, h0]
  · dsimp only
    rw [hlast, h1]

theorem shared_writes_keep_bytes_interleaved :
    ∃ e : Trace (State.init (Fin 2) oneFile ⟨true, 0, 0⟩) (step mkfsLayout noDevices),
      e.len = 8 ∧ (∀ t, e.act t = interleaved.getD t (.ret 0)) ∧
        (e.state 8).file.off.toNat = ((chunks e 8).map fun c => c.bytes.length).sum ∧
        (chunks e 8).Pairwise (fun c d => c.start + c.bytes.length ≤ d.start) ∧
        bytesOf (chunksOf e 0 0 8) = sevens.bytes ∧ bytesOf (chunksOf e 1 1 8) = nines.bytes := by
  obtain ⟨e, hlen, hact, hok, h0, h1⟩ := interleaved_runs
  obtain ⟨hoff, -, hpairwise, hbytes⟩ :=
    shared_writes_keep_bytes e oneFile_coherent oneFile_regular rfl hok 8 hlen.ge
  refine ⟨e, hlen, hact, hoff.trans (Nat.zero_add _), hpairwise, ?_, ?_⟩
  · refine (hbytes 0 0 sevens (by decide) (hact 0) fun x hx hxt addr' heq => ?_).2 h0
    rw [hact] at heq
    interval_cases x <;> cases heq
  · refine (hbytes 1 1 nines (by decide) (hact 1) fun x hx hxt addr' heq => ?_).2 h1
    rw [hact] at heq
    interval_cases x <;> cases heq

end Laboratorio.Files
