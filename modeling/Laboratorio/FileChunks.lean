import Laboratorio.FileWrite

/-! `filewrite` of one process that runs alone, on a regular file. A write that passes the largest file ends at
the first chunk that does, and the chunks before it are in the file: what is written is `accepted`. -/

namespace Laboratorio.Files

open Fs

section Loop

variable (sb : Superblock) (dev : Devices) (addr : Buffer)

theorem chunk_pos {i : Nat} (h : i < addr.bytes.length) : 0 < (Call.chunk ⟨addr, i⟩).bytes.length := by
  rw [length_chunk]
  dsimp only
  omega

/-- The loop of `filewrite`, with `i` bytes written. -/
def filewriteLoop (fs : Fs.State) (f : File) (i : Nat) : Except Stop (Nat × Fs.State × File) :=
  if _hi : i < addr.bytes.length then
    let chunk := Call.chunk ⟨addr, i⟩
    match Fs.call sb dev fs (.writei f.ip chunk f.off) with
    | .error stop => .error stop
    | .ok ((r, _), fs) =>
      let f := if 0 < r then { f with off := f.off + UInt32.ofNat r.toNat } else f
      if r < 0 then .ok (i, fs, f)
      else if _hr : r ≠ chunk.bytes.length then .error (.panic .shortFilewrite)
      else filewriteLoop fs f (i + r.toNat)
  else .ok (i, fs, f)
termination_by addr.bytes.length - i
decreasing_by
  have hpos := chunk_pos addr _hi
  have hlen : r.toNat = (Call.chunk ⟨addr, i⟩).bytes.length := by
    rw [not_not.mp _hr]
    rfl
  omega

def filewrite (fs : Fs.State) (f : File) : Except Stop (Int × Fs.State × File) :=
  if f.writable then do
    let (i, fs, f) ← filewriteLoop sb dev addr fs f 0
    pure (if i = addr.bytes.length then (addr.bytes.length : Int) else -1, fs, f)
  else .ok (-1, fs, f)

end Loop

variable {sb : Layout} {dev : Devices} {addr : Buffer} {fs fs' : Fs.State} {f f' : File} {i i' : Nat}

/-- The bytes of the file. -/
abbrev bytesIn (sb : Layout) (fs : Fs.State) (f : File) : List UInt8 :=
  contents sb fs.disk (fs.icache f.ip).inum

/-- `w` bytes from `addr + i` have been written at the offset. -/
structure Advanced (sb : Layout) (addr : Buffer) (fs : Fs.State) (f : File) (i w : Nat) (fs' : Fs.State) (f' : File) :
    Prop where
  bytes : bytesIn sb fs' f' = overwrite (bytesIn sb fs f) f.off.toNat ((addr.bytes.drop i).take w)
  off : f'.off.toNat = f.off.toNat + w
  ip : f'.ip = f.ip
  coherent : Coherent sb fs'
  regular : Regular sb fs' f'.ip
  inum : (fs'.icache f'.ip).inum = (fs.icache f.ip).inum
  filled : Filled sb fs.disk (loadInode sb fs.disk) fs'.disk (loadInode sb fs'.disk) (fs.icache f.ip).inum
    (slotsOf f.off.toNat w)

theorem Advanced.zero (h : Coherent sb fs) (hr : Regular sb fs f.ip) (i : Nat) : Advanced sb addr fs f i 0 fs f := by
  refine ⟨?_, rfl, rfl, h, hr, rfl, Filled.refl _⟩
  rw [List.take_zero, overwrite_nil]

theorem Advanced.trans {fs'' : Fs.State} {f'' : File} {w w' : Nat} (h : Advanced sb addr fs f i w fs' f')
    (h' : Advanced sb addr fs' f' (i + w) w' fs'' f'') (hw : i + w ≤ addr.bytes.length)
    (hoff : f.off.toNat ≤ (bytesIn sb fs f).length) : Advanced sb addr fs f i (w + w') fs'' f'' := by
  refine ⟨?_, ?_, h'.ip.trans h.ip, h'.coherent, h'.regular, h'.inum.trans h.inum, ?_⟩
  · have hlen : ((addr.bytes.drop i).take w).length = w := by
      rw [List.length_take, List.length_drop]
      omega
    calc bytesIn sb fs'' f''
        = overwrite (bytesIn sb fs' f') f'.off.toNat ((addr.bytes.drop (i + w)).take w') := h'.bytes
      _ = overwrite (overwrite (bytesIn sb fs f) f.off.toNat ((addr.bytes.drop i).take w))
            (f.off.toNat + ((addr.bytes.drop i).take w).length) ((addr.bytes.drop (i + w)).take w') := by
          rw [h.bytes, h.off, hlen]
      _ = overwrite (bytesIn sb fs f) f.off.toNat ((addr.bytes.drop i).take (w + w')) := by
          rw [overwrite_append hoff, List.take_add, List.drop_drop]
  · rw [h'.off, h.off, Nat.add_assoc]
  · have hfilled := h'.filled
    rw [h.inum, h.off] at hfilled
    rw [slotsOf_add]
    exact h.filled.trans hfilled

theorem Advanced.inside {w : Nat} (h : Advanced sb addr fs f i w fs' f') (hw : i + w ≤ addr.bytes.length)
    (hoff : f.off.toNat ≤ (bytesIn sb fs f).length) :
    f'.off.toNat ≤ (bytesIn sb fs' f').length ∧
    (bytesIn sb fs' f').length = max (bytesIn sb fs f).length (f.off.toNat + w) := by
  have hlen : ((addr.bytes.drop i).take w).length = w := by
    rw [List.length_take, List.length_drop]
    omega
  rw [h.bytes, length_overwrite hoff, hlen, h.off]
  exact ⟨Nat.le_max_right _ _, rfl⟩

/-- The blocks that `n` bytes at the offset go to and that the file does not have. -/
abbrev missing (sb : Layout) (fs : Fs.State) (f : File) (n : Nat) : Nat :=
  lacking sb fs.disk (loadInode sb fs.disk) (fs.icache f.ip).inum (slotsOf f.off.toNat n)

end Laboratorio.Files
