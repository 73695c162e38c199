import Laboratorio.FsCache
import Laboratorio.Overwrite

/-! The contents of a directory as a list of entries. Names are compared by their key: the bytes before the
first 0 among the first `DIRSIZ`. A scan of a directory stops at the first entry that passes its test. -/

namespace Laboratorio.Fs

/-! ### Names -/

/-- The part of a name that `namecmp` sees. -/
def key (s : List UInt8) : List UInt8 := (s.take DIRSIZ).takeWhile (· ≠ 0)

theorem strncmp_eq_zero (n : Nat) (s t : List UInt8) :
    strncmp n s t = 0 ↔ (s.take n).takeWhile (· ≠ 0) = (t.take n).takeWhile (· ≠ 0) := by
  induction n generalizing s t with
  | zero => simp [strncmp]
  | succ n ih =>
    have hzero : ∀ a b : UInt8, ((a.toNat : Int) - b.toNat = 0) ↔ a = b := by
      intro a b
      rw [Int.sub_eq_zero, Int.natCast_inj, UInt8.toNat_inj]
    have hnull : ∀ a : UInt8, a.toNat = 0 ↔ a = 0 := fun a => UInt8.toNat_inj (b := 0)
    rw [strncmp]
    cases s with
    | nil =>
      cases t with
      | nil => simp
      | cons b t =>
        by_cases hb : b = 0
        · simp [hb]
        · simp [hb, Ne.symm hb, hnull]
    | cons a s =>
      by_cases ha : a = 0
      · cases t with
        | nil => simp [ha]
        | cons b t =>
          by_cases hb : b = 0
          · simp [ha, hb]
          · simp [ha, hb, Ne.symm hb, hnull]
      · cases t with
        | nil => simp [ha, hnull]
        | cons b t =>
          by_cases hab : a = b
          · subst hab
            simp only [List.headD_cons, ha, ne_eq, not_false_eq_true, and_self, if_true, List.tail_cons,
              List.take_succ_cons, ih]
            simp [ha]
          · by_cases hb : b = 0
            · simp [ha, hb, hnull]
            · simp [ha, hb, hab, hzero]

theorem namecmp_eq_zero (s t : List UInt8) : namecmp s t = 0 ↔ key s = key t := strncmp_eq_zero DIRSIZ s t

theorem takeWhile_strncpy (n : Nat) (s : List UInt8) :
    ((strncpy n s).take n).takeWhile (· ≠ 0) = (s.take n).takeWhile (· ≠ 0) := by
  induction n generalizing s with
  | zero => rfl
  | succ n ih =>
    rw [strncpy]
    cases s with
    | nil => simp [List.replicate_succ]
    | cons a s =>
      by_cases ha : a = 0
      · simp [ha, List.replicate_succ]
      · simp only [List.headD_cons, ha, if_false, List.tail_cons, List.take_succ_cons]
        simp only [List.takeWhile_cons, ha, ne_eq, not_false_eq_true, decide_true, if_true]
        rw [← ih s]

theorem key_strncpy (s : List UInt8) : key (strncpy DIRSIZ s) = key s := takeWhile_strncpy DIRSIZ s

/-! ### Entries -/

def slice (a : List UInt8) (k : Nat) : List UInt8 := (a.drop (DIRENT * k)).take DIRENT

def dirents (a : List UInt8) : List Dirent :=
  (List.range (a.length / DIRENT)).map fun k => Dirent.decode (slice a k)

theorem length_dirents (a : List UInt8) : (dirents a).length = a.length / DIRENT := by
  rw [dirents, List.length_map, List.length_range]

theorem getElem?_dirents (a : List UInt8) (k : Nat) :
    (dirents a)[k]? = if k < a.length / DIRENT then some (Dirent.decode (slice a k)) else none := by
  rw [dirents, List.getElem?_map]
  split
  · rename_i hk
    rw [List.getElem?_range hk]
    rfl
  · rename_i hk
    rw [List.getElem?_eq_none (by rw [List.length_range]; omega)]
    rfl

variable {de : Dirent}

theorem decode_encode : Dirent.decode de.encode = de := by
  have hlow : (UInt8.ofNat de.inum.toNat).toNat = de.inum.toNat % 256 := UInt8.toNat_ofNat'
  have hhigh : (UInt8.ofNat (de.inum.toNat / 256)).toNat = de.inum.toNat / 256 % 256 := UInt8.toNat_ofNat'
  have hlt := de.inum.toNat_lt
  have hinum : UInt16.ofNat (de.inum.toNat % 256 + 256 * (de.inum.toNat / 256 % 256)) = de.inum := by
    rw [show de.inum.toNat % 256 + 256 * (de.inum.toNat / 256 % 256) = de.inum.toNat by omega]
    exact UInt16.ofNat_toNat
  cases de
  simp only [Dirent.decode, Dirent.encode, List.getD_cons_zero, List.getD_cons_succ, hlow, hhigh] at hinum ⊢
  rw [hinum]
  rfl

variable {a : List UInt8}

theorem slice_overwrite {src : List UInt8} {k : Nat} (hk : DIRENT * k ≤ a.length) (hsrc : src.length = DIRENT)
    (j : Nat) : slice (overwrite a (DIRENT * k) src) j = if j = k then src else slice a j := by
  simp only [DIRENT] at hk hsrc ⊢
  apply List.ext_getElem?
  intro o
  simp only [slice, DIRENT]
  rw [List.getElem?_take, List.getElem?_drop, getElem?_overwrite hk]
  by_cases ho : o < 16
  · rw [if_pos ho]
    by_cases hj : j = k
    · subst hj
      rw [if_pos (by omega), if_pos rfl, show 16 * j + o - 16 * j = o by omega]
    · rw [if_neg (by omega), if_neg hj, List.getElem?_take, if_pos ho, List.getElem?_drop]
  · rw [if_neg ho]
    by_cases hj : j = k
    · rw [if_pos hj, List.getElem?_eq_none (by omega)]
    · rw [if_neg hj, List.getElem?_take, if_neg ho]

theorem dirents_overwrite {k : Nat} (hwhole : a.length % DIRENT = 0)
    (hk : DIRENT * k ≤ a.length) (hname : de.name.length = DIRSIZ) :
    dirents (overwrite a (DIRENT * k) de.encode) = overwrite (dirents a) k [de] := by
  have hlen : de.encode.length = DIRENT := by
    rw [encode_length, hname]
  have hk' : k ≤ (dirents a).length := by
    rw [length_dirents]
    simp only [DIRENT] at hk ⊢
    omega
  apply List.ext_getElem?
  intro j
  rw [getElem?_dirents, length_overwrite hk, slice_overwrite hk hlen, getElem?_overwrite hk',
    getElem?_dirents, hlen, List.length_singleton]
  simp only [DIRENT] at hk hwhole ⊢
  by_cases hj : j = k
  · subst hj
    rw [if_pos (by omega), if_pos rfl, if_pos (by omega), decode_encode, Nat.sub_self]
    rfl
  · rw [if_neg hj, if_neg (show ¬(k ≤ j ∧ j < k + 1) by omega)]
    by_cases hlt : j < a.length / 16
    · rw [if_pos (by omega), if_pos hlt]
    · rw [if_neg (by omega), if_neg hlt]

theorem dirents_append (hwhole : a.length % DIRENT = 0) (b : List UInt8) :
    dirents (a ++ b) = dirents a ++ dirents b := by
  simp only [DIRENT] at hwhole
  have hlen : (a ++ b).length / DIRENT = a.length / DIRENT + b.length / DIRENT := by
    simp only [List.length_append, DIRENT]
    omega
  have hleft : ∀ k < a.length / DIRENT, slice (a ++ b) k = slice a k := by
    intro k hk
    simp only [DIRENT] at hk
    simp only [slice, DIRENT]
    rw [List.drop_append_of_le_length (by omega), List.take_append_of_le_length (by rw [List.length_drop]; omega)]
  have hright : ∀ k, slice (a ++ b) (a.length / DIRENT + k) = slice b k := by
    intro k
    simp only [slice, DIRENT]
    rw [show 16 * (a.length / 16 + k) = a.length + 16 * k by omega, List.drop_append, List.drop_of_length_le (by omega),
      List.nil_append, Nat.add_sub_cancel_left]
  rw [dirents, hlen, List.range_add, List.map_append, List.map_map]
  congr 1
  · apply List.map_congr_left
    intro k hk
    rw [hleft k (List.mem_range.mp hk)]
  · apply List.map_congr_left
    intro k _
    rw [Function.comp_apply, hright]

theorem dirents_encode (hname : de.name.length = DIRSIZ) : dirents de.encode = [de] := by
  have hlen : de.encode.length = DIRENT := by rw [encode_length, hname]
  have hslice : slice de.encode 0 = de.encode := List.take_of_length_le (by rw [Nat.mul_zero, List.drop_zero, hlen])
  rw [dirents, hlen]
  change [Dirent.decode (slice de.encode 0)] = [de]
  rw [hslice, decode_encode]

variable {l : List Dirent}

theorem dirents_flatMap (hname : ∀ de ∈ l, de.name.length = DIRSIZ) : dirents (l.flatMap Dirent.encode) = l := by
  induction l with
  | nil => rfl
  | cons de l ih =>
    have hde := hname de List.mem_cons_self
    rw [List.flatMap_cons, dirents_append (by rw [encode_length, hde]; rfl), dirents_encode hde,
      ih fun de' hmem => hname de' (List.mem_cons_of_mem _ hmem), List.singleton_append]

/-! ### Scans -/

/-- No entry of the places from `j` up to `i` passes the test. -/
def Skips (l : List Dirent) (test : Dirent → Bool) (j i : Nat) : Prop :=
  ∀ o e, j ≤ o → o < i → l[o]? = some e → test e = false

variable {test : Dirent → Bool}

theorem Skips.empty {j i : Nat} (hji : i ≤ j) : Skips l test j i :=
  fun _ _ hj hi _ => absurd hi (by omega)

theorem Skips.cons {j i : Nat} {e : Dirent} (he : l[j]? = some e)
    (htest : ¬test e = true) (h : Skips l test (j + 1) i) : Skips l test j i := by
  intro o e' hj hi ho
  by_cases hoj : o = j
  · subst hoj
    cases he.symm.trans ho
    exact Bool.eq_false_iff.mpr htest
  · exact h o e' (by omega) hi ho

/-- A scan from entry `j` that meets an entry `i` with the test, as far as the entries can be read. -/
theorem findDirent_first {σ : Type} (dp : Contents σ) {p : Panic} {s : σ}
    (hread : ∀ j e, l[j]? = some e → readDirent dp p s (DIRENT * j) = .ok (e, s))
    (hsize : DIRENT * l.length ≤ (dp.size s).toNat) {i : Nat} {e : Dirent} (he : l[i]? = some e)
    (htest : test e = true) {fuel j : Nat} (hfuel : i < fuel + j) (hj : j ≤ i) (hskip : Skips l test j i) :
    findDirent dp p test fuel s (DIRENT * j) = .ok (some e, DIRENT * i, s) := by
  have hi := (List.getElem?_eq_some_iff.mp he).1
  simp only [DIRENT] at hsize
  induction fuel generalizing j with
  | zero => exact absurd hfuel (by omega)
  | succ fuel ih =>
    have hget : l[j]? = some l[j] := List.getElem?_eq_getElem (by omega)
    rw [findDirent, if_pos (by simp only [DIRENT]; omega), hread j _ hget, ok_bind]
    dsimp only
    rcases hj.eq_or_lt with rfl | hlt
    · cases hget.symm.trans he
      rw [if_pos htest]
      rfl
    · have hfalse := hskip j _ (le_refl j) hlt hget
      rw [if_neg (by rw [hfalse]; exact Bool.false_ne_true)]
      exact ih (by omega) hlt fun o e' ho => hskip o e' (by omega)

end Laboratorio.Fs
