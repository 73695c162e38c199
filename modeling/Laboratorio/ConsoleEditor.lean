import Laboratorio.Console
import Mathlib.Data.Nat.Count

/-! The console against a line editor that has no ring and no indexes: what it has committed, the line
being typed, and how many of the committed bytes were taken by readers. -/

namespace Laboratorio.Console

open Function

open RingBuffer

structure Editor where
  committed : List UInt8
  line : List UInt8
  taken : Nat

variable {ed : Editor}

namespace Editor

def empty : Editor := ⟨[], [], 0⟩

def outstanding (ed : Editor) : Nat := ed.committed.length - ed.taken + ed.line.length

def pending (ed : Editor) : List UInt8 := ed.committed.drop ed.taken

def read (ed : Editor) : List UInt8 := ed.committed.take ed.taken

def commit (ed : Editor) : Editor := { ed with committed := ed.committed ++ ed.line, line := [] }

def key (ed : Editor) (c : UInt8) : Editor :=
  if c = ctrlP ∨ c = 0 then ed
  else if c = ctrlU then { ed with line := [] }
  else if c = ctrlH ∨ c = del then { ed with line := ed.line.dropLast }
  else if INPUT_BUF ≤ ed.outstanding then ed
  else
    let c := if c = cr then nl else c
    let ed := { ed with line := ed.line ++ [c] }
    if c = nl ∨ c = ctrlD ∨ ed.outstanding = INPUT_BUF then ed.commit else ed

def take (ed : Editor) (k : Nat) : Editor := { ed with taken := ed.taken + k }

theorem key_committed (ed : Editor) (c : UInt8) :
    (ed.key c).taken = ed.taken ∧ ed.committed <+: (ed.key c).committed := by
  rw [key]
  dsimp only
  generalize (if c = cr then nl else c) = b
  split_ifs
  · exact ⟨rfl, List.prefix_rfl⟩
  · exact ⟨rfl, List.prefix_rfl⟩
  · exact ⟨rfl, List.prefix_rfl⟩
  · exact ⟨rfl, List.prefix_rfl⟩
  · exact ⟨rfl, List.prefix_append _ _⟩
  · exact ⟨rfl, List.prefix_rfl⟩

theorem keys_committed (ed : Editor) (cs : List UInt8) :
    (cs.foldl key ed).taken = ed.taken ∧ ed.committed <+: (cs.foldl key ed).committed := by
  induction cs generalizing ed with
  | nil => exact ⟨rfl, List.prefix_rfl⟩
  | cons c cs ih =>
    obtain ⟨htaken, hcommitted⟩ := ed.key_committed c
    obtain ⟨htaken', hcommitted'⟩ := ih (ed.key c)
    exact ⟨htaken'.trans htaken, hcommitted.trans hcommitted'⟩

theorem keys_read (hle : ed.taken ≤ ed.committed.length) (cs : List UInt8) :
    (cs.foldl key ed).read = ed.read := by
  obtain ⟨htaken, rest, hcommitted⟩ := ed.keys_committed cs
  rw [read, htaken, ← hcommitted, List.take_append_of_le_length hle]
  rfl

theorem take_read {bs : List UInt8} (hpending : ed.pending = bs ++ (ed.take bs.length).pending) :
    (ed.take bs.length).read = ed.read ++ bs := by
  have hbs : ed.pending.take bs.length = bs := by
    rw [hpending, List.take_left]
  calc (ed.take bs.length).read
      = ed.committed.take ed.taken ++ ed.pending.take bs.length := List.take_add
    _ = ed.read ++ bs := by rw [hbs, read]

end Editor

/-- The ring holds what is between the reader and the end of the line, and the indexes are the editor's
counts. The line has no line feed, because a line feed commits it. -/
structure Mirrors (i : Input) (ed : Editor) : Prop where
  holds : Holds i.buf (ed.committed ++ ed.line) ed.taken
  le : ed.taken ≤ ed.committed.length
  r : Counts i.r ed.taken
  w : Counts i.w ed.committed.length
  e : Counts i.e (ed.committed ++ ed.line).length
  plain : nl ∉ ed.line

namespace Mirrors

variable {i : Input} {ed : Editor}

theorem char_eq {x : UInt32} {n : ℕ} (h : Mirrors i ed) (hx : Counts x n) (hle : ed.taken ≤ n)
    (hlt : n < (ed.committed ++ ed.line).length) :
    (ed.committed ++ ed.line)[n]? = some (i.char x) := by
  rw [Input.char, hx.place (by decide)]
  exact h.holds.elem n hle hlt

section

variable (h : Mirrors i ed)

include h

theorem outstanding_le : ed.outstanding ≤ INPUT_BUF := by
  have hfits := h.holds.fits
  have hle := h.le
  rw [List.length_append] at hfits
  rw [Editor.outstanding]
  omega

theorem length_eq : (ed.committed ++ ed.line).length = ed.taken + ed.outstanding := by
  have hle := h.le
  rw [List.length_append, Editor.outstanding]
  omega

theorem toNat_e_sub_r : (i.e - i.r).toNat = ed.outstanding := by
  have hfits := h.outstanding_le
  have hlen := h.length_eq
  simp only [INPUT_BUF] at hfits
  rw [h.e.toNat_sub h.r (by omega) (by omega)]
  omega

theorem toNat_w_sub_r : (i.w - i.r).toNat = ed.committed.length - ed.taken := by
  have hfits := h.outstanding_le
  have hle := h.le
  rw [Editor.outstanding] at hfits
  simp only [INPUT_BUF] at hfits
  exact h.w.toNat_sub h.r hle (by omega)

theorem toNat_e_sub_w : (i.e - i.w).toNat = ed.line.length := by
  have hfits := h.outstanding_le
  have hlen : (ed.committed ++ ed.line).length = ed.committed.length + ed.line.length := List.length_append
  rw [Editor.outstanding] at hfits
  simp only [INPUT_BUF] at hfits
  rw [h.e.toNat_sub h.w (by omega) (by omega)]
  omega

theorem room_iff : i.e - i.r < 128 ↔ ed.outstanding < INPUT_BUF := by
  rw [UInt32.lt_iff_toNat_lt, h.toNat_e_sub_r]
  exact Iff.rfl

theorem line_empty_iff : i.e = i.w ↔ ed.line = [] := by
  have hfits := h.outstanding_le
  have hlen : (ed.committed ++ ed.line).length = ed.committed.length + ed.line.length := List.length_append
  rw [Editor.outstanding] at hfits
  simp only [INPUT_BUF] at hfits
  rw [h.e.eq_iff h.w (by omega) (by omega), ← List.length_eq_zero_iff]
  omega

theorem pending_empty_iff : i.r = i.w ↔ ed.pending = [] := by
  have hfits := h.outstanding_le
  have hle := h.le
  rw [Editor.outstanding] at hfits
  simp only [INPUT_BUF] at hfits
  rw [eq_comm, h.w.eq_iff h.r (by omega) (by omega), Editor.pending, List.drop_eq_nil_iff]
  omega

theorem erase (hline : ed.line ≠ []) :
    Mirrors { i with e := i.e - 1 } { ed with line := ed.line.dropLast } := by
  have hpos := List.length_pos_iff.mpr hline
  have hle := h.le
  have hcut : ed.committed ++ ed.line.dropLast =
      (ed.committed ++ ed.line).take (ed.committed ++ ed.line.dropLast).length := by
    rw [List.length_append, List.length_dropLast, List.take_length_add_append, ← List.dropLast_eq_take]
  have hlen : (ed.committed ++ ed.line).length = (ed.committed ++ ed.line.dropLast).length + 1 := by
    rw [List.length_append, List.length_append, List.length_dropLast]
    omega
  refine ⟨?_, hle, h.r, h.w, ?_, ?_⟩
  · rw [hcut]
    apply h.holds.undo
    · rw [List.length_append]
      omega
    · omega
  · have he := h.e
    rw [hlen] at he
    exact he.pred
  · exact fun hmem => h.plain (List.dropLast_subset _ hmem)

theorem last_mem (hline : ed.line ≠ []) : i.char (i.e - 1) ∈ ed.line := by
  have hpos := List.length_pos_iff.mpr hline
  have hle := h.le
  have hlen : (ed.committed ++ ed.line).length = ed.committed.length + ed.line.length := List.length_append
  have he := h.e
  rw [show (ed.committed ++ ed.line).length = (ed.committed.length + (ed.line.length - 1)) + 1 by omega] at he
  have hchar := h.char_eq he.pred (by omega) (by omega)
  rw [List.getElem?_append_right (by omega)] at hchar
  exact List.mem_of_getElem? hchar

theorem killLine {n : ℕ} (hn : ed.line.length = n) : Mirrors (i.killLine n) { ed with line := [] } := by
  induction n generalizing i ed with
  | zero =>
    have hnil := List.length_eq_zero_iff.mp hn
    rw [Input.killLine, ← hnil]
    exact h
  | succ n ih =>
    have hline : ed.line ≠ [] := by
      intro hnil
      rw [hnil] at hn
      cases hn
    have hchar : i.char (i.e - 1) ≠ nl := fun heq => h.plain (heq ▸ h.last_mem hline)
    rw [Input.killLine, if_pos ⟨fun heq => hline (h.line_empty_iff.mp heq), hchar⟩]
    apply ih (h.erase hline)
    rw [List.length_dropLast, hn]
    rfl

theorem put (hroom : ed.outstanding < INPUT_BUF) (c : UInt8) :
    Holds (update i.buf (Fin.ofNat INPUT_BUF i.e.toNat) c) (ed.committed ++ (ed.line ++ [c])) ed.taken ∧
      Counts (i.e + 1) (ed.committed ++ (ed.line ++ [c])).length := by
  have hlen := h.length_eq
  rw [← List.append_assoc, h.e.place (by decide)]
  refine ⟨h.holds.put (by omega) c, ?_⟩
  rw [List.length_append, List.length_singleton]
  exact h.e.succ

theorem full_iff (hroom : ed.outstanding < INPUT_BUF) : i.e + 1 = i.r + 128 ↔ ed.outstanding + 1 = INPUT_BUF := by
  have hlen := h.length_eq
  have hr : Counts (i.r + 128) (ed.taken + 128) := h.r.add 128
  simp only [INPUT_BUF] at hroom ⊢
  rw [eq_comm, hr.eq_iff h.e.succ (by omega) (by omega)]
  omega

theorem key (c : UInt8) : Mirrors (i.key c).1 (ed.key c) := by
  rw [Input.key, Editor.key]
  by_cases hP : c = ctrlP
  · rw [if_pos hP, if_pos (Or.inl hP)]
    exact h
  rw [if_neg hP]
  by_cases hU : c = ctrlU
  · rw [if_pos hU, if_neg (by rw [hU]; decide), if_pos hU]
    exact h.killLine h.toNat_e_sub_w.symm
  rw [if_neg hU]
  by_cases hH : c = ctrlH ∨ c = del
  · have hne : ¬(c = ctrlP ∨ c = 0) := by
      rintro (rfl | rfl)
      · exact hP rfl
      · exact absurd hH (by decide)
    rw [if_pos hH, if_neg hne, if_neg hU, if_pos hH]
    by_cases hline : ed.line = []
    · rw [if_neg (not_not_intro (h.line_empty_iff.mpr hline)), hline, List.dropLast_nil, ← hline]
      exact h
    · rw [if_pos (mt h.line_empty_iff.mp hline)]
      exact h.erase hline
  rw [if_neg hH]
  by_cases hzero : c = 0
  · rw [if_neg (fun hc => hc.1 hzero), if_pos (Or.inr hzero)]
    exact h
  rw [if_neg (not_or.mpr ⟨hP, hzero⟩), if_neg hU, if_neg hH]
  by_cases hroom : ed.outstanding < INPUT_BUF
  · rw [if_pos ⟨hzero, h.room_iff.mpr hroom⟩, if_neg (Nat.not_le.mpr hroom)]
    dsimp only
    generalize (if c = cr then nl else c) = b
    have hout : Editor.outstanding { ed with line := ed.line ++ [b] } = ed.outstanding + 1 := by
      rw [Editor.outstanding, Editor.outstanding, List.length_append, List.length_singleton, Nat.add_assoc]
    obtain ⟨hholds, he⟩ := h.put hroom b
    have hle := h.le
    rw [hout]
    by_cases hcommit : b = nl ∨ b = ctrlD ∨ i.e + 1 = i.r + 128
    · rw [if_pos hcommit, if_pos (by rwa [← h.full_iff hroom])]
      refine ⟨?_, ?_, h.r, he, ?_, List.not_mem_nil⟩
      · rw [Editor.commit, List.append_nil]
        exact hholds
      · rw [Editor.commit, List.length_append]
        exact Nat.le_trans hle (Nat.le_add_right _ _)
      · rw [Editor.commit, List.append_nil]
        exact he
    · rw [if_neg hcommit, if_neg (by rwa [← h.full_iff hroom])]
      refine ⟨hholds, hle, h.r, h.w, he, ?_⟩
      intro hmem
      rcases List.mem_append.mp hmem with hmem | hmem
      · exact h.plain hmem
      · exact hcommit (Or.inl (List.mem_singleton.mp hmem).symm)
  · rw [if_neg (fun hc => hroom (h.room_iff.mp hc.2)), if_pos (Nat.not_lt.mp hroom)]
    exact h

theorem keys (cs : List UInt8) : Mirrors (i.keys cs).1 (cs.foldl Editor.key ed) := by
  rw [Input.keys]
  generalize false = woken
  induction cs generalizing i ed woken with
  | nil => exact h
  | cons c cs ih => exact ih (h.key c) _

theorem char_pending (hsome : ed.pending ≠ []) :
    ed.pending = i.char i.r :: (ed.take 1).pending := by
  have hlt : ed.taken < ed.committed.length := by
    rw [Editor.pending, Ne, List.drop_eq_nil_iff] at hsome
    omega
  have hchar := h.char_eq h.r (Nat.le_refl _) (by rw [List.length_append]; omega)
  rw [List.getElem?_append_left hlt] at hchar
  obtain ⟨_, hget⟩ := List.getElem?_eq_some_iff.mp hchar
  rw [Editor.pending, List.drop_eq_getElem_cons hlt, hget]
  rfl

theorem next (hsome : ed.pending ≠ []) : Mirrors { i with r := i.r + 1 } (ed.take 1) := by
  have hlt : ed.taken < ed.committed.length := by
    rw [Editor.pending, Ne, List.drop_eq_nil_iff] at hsome
    omega
  exact ⟨h.holds.take (by rw [List.length_append]; omega), hlt, h.r.succ, h.w, h.e, h.plain⟩

end

end Mirrors

/-- What the read loop does with the bytes that are pending. -/
structure Reads (i : Input) (ed : Editor) (target n : ℕ) (rd : Input.Reading) : Prop where
  mirrors : Mirrors rd.input (ed.take (rd.bytes.length + rd.eof.toNat))
  pending : ed.pending = rd.bytes ++ (if rd.eof then [ctrlD] else []) ++
    (ed.take (rd.bytes.length + rd.eof.toNat)).pending
  data : ctrlD ∉ rd.bytes
  /-- Only a call that has no data takes the end of file. -/
  eof : rd.eof = true → rd.done = true ∧ rd.bytes = [] ∧ n = target ∧ 0 < n
  /-- A call that wants data and returns none has taken the end of file. -/
  none : rd.done = true → rd.bytes = [] → n = target → 0 < n → rd.eof = true
  drained : rd.done = false → (ed.take (rd.bytes.length + rd.eof.toNat)).pending = []

variable {i : Input}

theorem readLoop_reads (h : Mirrors i ed) (target n : ℕ) (hn : n ≤ target) :
    Reads i ed target n (i.readLoop target n) := by
  induction n generalizing i ed with
  | zero => exact ⟨h, rfl, List.not_mem_nil, nofun, fun _ _ _ hpos => absurd hpos (Nat.lt_irrefl 0), nofun⟩
  | succ n ih =>
    rw [Input.readLoop]
    by_cases hempty : i.r = i.w
    · rw [if_pos hempty]
      exact ⟨h, rfl, List.not_mem_nil, nofun, nofun, fun _ => h.pending_empty_iff.mp hempty⟩
    rw [if_neg hempty]
    have hsome : ed.pending ≠ [] := fun hnil => hempty (h.pending_empty_iff.mpr hnil)
    have hnext := h.next hsome
    have hpending := h.char_pending hsome
    by_cases hD : i.char i.r = ctrlD
    · rw [if_pos hD]
      by_cases hdata : n + 1 < target
      · rw [if_pos hdata, show i.r + 1 - 1 = i.r from UInt32.add_sub_cancel _ _]
        exact ⟨h, rfl, List.not_mem_nil, nofun, fun _ _ heq => absurd heq (Nat.ne_of_lt hdata), nofun⟩
      · rw [if_neg hdata]
        refine ⟨hnext, ?_, List.not_mem_nil, fun _ => ⟨rfl, rfl, ?_, Nat.succ_pos n⟩, fun _ _ _ _ => rfl, nofun⟩
        · rw [hpending, hD]
          rfl
        · omega
    rw [if_neg hD]
    by_cases hnl : i.char i.r = nl
    · rw [if_pos hnl]
      refine ⟨hnext, hpending, ?_, nofun, nofun, nofun⟩
      rw [List.mem_singleton]
      exact fun heq => hD heq.symm
    rw [if_neg hnl]
    -- After a byte is delivered the call has data, so the rest of the loop takes no end of file.
    have hrest := ih hnext (by omega)
    generalize Input.readLoop { i with r := i.r + 1 } target n = rest at hrest
    have htake : (ed.take 1).take (rest.bytes.length + rest.eof.toNat) =
        ed.take ((i.char i.r :: rest.bytes).length + rest.eof.toNat) := by
      simp only [Editor.take, List.length_cons, Editor.mk.injEq, true_and]
      omega
    obtain ⟨hmirrors, hafter, hbytes, heof, _, hdrained⟩ := hrest
    rw [htake] at hmirrors hafter hdrained
    refine ⟨hmirrors, ?_, ?_, ?_, nofun, hdrained⟩
    · rw [hpending, hafter]
      rfl
    · rw [List.mem_cons, not_or]
      exact ⟨fun heq => hD heq.symm, hbytes⟩
    · intro htaken
      obtain ⟨_, _, hfull, _⟩ := heof htaken
      omega

def Input.between (i : Input) (a b : UInt32) : List UInt8 :=
  (List.range (b - a).toNat).map fun k => i.char (a + UInt32.ofNat k)

theorem Mirrors.between_eq (h : Mirrors i ed) {a b : UInt32} {m n : ℕ}
    (ha : Counts a m) (hb : Counts b n) (hm : ed.taken ≤ m) (hmn : m ≤ n) (hn : n ≤ (ed.committed ++ ed.line).length) :
    i.between a b = ((ed.committed ++ ed.line).take n).drop m := by
  have hfits := h.holds.fits
  simp only [INPUT_BUF] at hfits
  rw [Input.between, hb.toNat_sub ha hmn (by omega)]
  apply List.ext_getElem?
  intro k
  rw [List.getElem?_map, List.getElem?_drop]
  by_cases hk : k < n - m
  · rw [List.getElem?_range hk, Option.map_some, List.getElem?_take_of_lt (by omega),
      h.char_eq (ha.add k) (by omega) (by omega)]
  · rw [List.getElem?_eq_none (by rw [List.length_range]; omega),
      List.getElem?_eq_none (by rw [List.length_take]; omega), Option.map_none]

theorem Mirrors.between_r_w (h : Mirrors i ed) : i.between i.r i.w = ed.pending := by
  rw [h.between_eq h.r h.w (Nat.le_refl _) h.le (by rw [List.length_append]; omega), List.take_left]
  rfl

theorem Mirrors.between_w_e (h : Mirrors i ed) : i.between i.w i.e = ed.line := by
  rw [h.between_eq h.w h.e h.le (by rw [List.length_append]; omega) (Nat.le_refl _), List.take_length,
    List.drop_left]

variable {P : Type} [DecidableEq P] {s s' : State P} {a : Act P}

/-- The editor sees the characters of an interrupt, and how many bytes a reader took. -/
def Editor.follow (ed : Editor) (o : Output) : Act P → Editor
  | .intr cs => cs.foldl Editor.key ed
  | _ => ed.take (o.bytes.length + o.eof.toNat)

/-- The number of bytes wanted by the call that runs. -/
def asked (s : State P) : Act P → Nat
  | .enter q =>
    match s.pc q with
    | .runnable c => c.target
    | _ => 0
  | _ => 0

/-- A call of `consoleread` that wants data and returns 0. -/
def EndOfFile (s : State P) (a : Act P) : Prop := 0 < asked s a ∧ (output s a).answer = some 0

instance : Decidable (EndOfFile s a) := inferInstanceAs (Decidable (_ ∧ _))

def Output.taken (o : Output) : List UInt8 := o.bytes ++ (if o.eof then [ctrlD] else [])

theorem Output.length_taken (o : Output) : o.taken.length = o.bytes.length + o.eof.toNat := by
  rw [Output.taken, List.length_append]
  cases o.eof with
  | false => rfl
  | true => rfl

theorem enter_reads {q : P} (h : Mirrors s.input ed) (hstep : step s (.enter q) = some s') :
    ∃ c rd, s.pc q = .runnable c ∧ Reads s.input ed c.target (c.target - c.got.length) rd ∧
      s'.input = rd.input ∧ (output s (.enter q)).bytes = rd.bytes ∧ (output s (.enter q)).eof = rd.eof ∧
      (rd.done = true → (output s (.enter q)).answer = some ((c.got ++ rd.bytes).length : Int)) ∧
      (rd.done = false → (output s (.enter q)).answer ≠ some 0) := by
  rw [step, Option.map_eq_some_iff] at hstep
  obtain ⟨⟨s₁, o⟩, hstretch, rfl⟩ := hstep
  rw [output, hstretch, Option.elim_some]
  rw [stretch] at hstretch
  split at hstretch
  · cases hstretch
  split at hstretch
  · rename_i c hpc
    refine ⟨c, s.input.readLoop c.target (c.target - c.got.length), hpc, readLoop_reads h _ _ (by omega), ?_⟩
    rw [consoleread] at hstretch
    split_ifs at hstretch with hdone hkilled
    · cases hstretch
      exact ⟨rfl, rfl, rfl, fun _ => rfl, fun hnot => absurd hdone (by rw [hnot]; decide)⟩
    · cases hstretch
      exact ⟨rfl, rfl, rfl, fun hyes => absurd hyes hdone, fun _ => (by decide : some (-1 : Int) ≠ some 0)⟩
    · cases hstretch
      exact ⟨rfl, rfl, rfl, fun hyes => absurd hyes hdone, fun _ => nofun⟩
  · cases hstretch

theorem step_input (hstep : step s a = some s') :
    (∃ q, a = .enter q) ∨ output s a = ⟨[], false, none⟩ ∧ asked s a = 0 ∧
        ((∃ cs, a = .intr cs ∧ s'.input = (s.input.keys cs).1) ∨ (∀ cs, a ≠ .intr cs) ∧ s'.input = s.input) := by
  cases a with
  | enter q => exact Or.inl ⟨q, rfl⟩
  | intr cs =>
    rw [step] at hstep
    split at hstep
    · cases hstep
    · cases hstep
      exact Or.inr ⟨rfl, rfl, Or.inl ⟨cs, rfl, rfl⟩⟩
  | read q n | sleep q =>
    rw [step] at hstep
    split at hstep
    · cases hstep
      exact Or.inr ⟨rfl, rfl, Or.inr ⟨nofun, rfl⟩⟩
    · cases hstep
  | kill q =>
    cases hstep
    exact Or.inr ⟨rfl, rfl, Or.inr ⟨nofun, rfl⟩⟩

/-- A step of the console is a step of the editor. What a reader takes is added to what was read, and a
`C('D')` is in it exactly when the call returns 0. -/
theorem step_mirrors (h : Mirrors s.input ed) (hstep : step s a = some s') :
    Mirrors s'.input (ed.follow (output s a) a) ∧ (ed.follow (output s a) a).read = ed.read ++ (output s a).taken ∧
      ctrlD ∉ (output s a).bytes ∧ ((output s a).eof = true ↔ EndOfFile s a) := by
  rcases step_input hstep with ⟨q, rfl⟩ | ⟨ho, hasked, hinput⟩
  · obtain ⟨c, rd, hpc, hreads, hinput, hbytes, heof, hdone, hrest⟩ := enter_reads h hstep
    have hasked : asked s (.enter q) = c.target := by rw [asked, hpc]
    have htaken : (output s (.enter q)).taken = rd.bytes ++ (if rd.eof then [ctrlD] else []) := by
      rw [Output.taken, hbytes, heof]
    have hfollow : ed.follow (output s (.enter q)) (Act.enter q) = ed.take (output s (.enter q)).taken.length := by
      rw [Output.length_taken]
      rfl
    have hpending := hreads.pending
    rw [hinput, hfollow]
    refine ⟨?_, Editor.take_read ?_, hbytes ▸ hreads.data, ?_⟩
    · rw [Output.length_taken, hbytes, heof]
      exact hreads.mirrors
    · rw [Output.length_taken, htaken, hbytes, heof]
      exact hpending
    rw [EndOfFile, hasked, heof]
    constructor
    · intro htrue
      obtain ⟨hd, hnil, hn, hpos⟩ := hreads.eof htrue
      have hgot : c.got = [] := List.length_eq_zero_iff.mp (by omega)
      refine ⟨by omega, ?_⟩
      rw [hdone hd, hnil, hgot]
      rfl
    · intro hzero
      obtain ⟨hpos, hans⟩ := hzero
      cases hd : rd.done with
      | false => exact absurd hans (hrest hd)
      | true =>
        rw [hdone hd, Option.some_inj, Int.natCast_eq_zero, List.length_eq_zero_iff, List.append_eq_nil_iff] at hans
        obtain ⟨hgot, hnil⟩ := hans
        apply hreads.none hd hnil
        · rw [hgot, List.length_nil, Nat.sub_zero]
        · rw [hgot, List.length_nil, Nat.sub_zero]
          exact hpos
  · have hnot : ¬EndOfFile s a := by
      rw [EndOfFile, hasked]
      exact fun hpos => absurd hpos.1 (Nat.lt_irrefl 0)
    rw [ho]
    refine ⟨?_, ?_, List.not_mem_nil, iff_of_false Bool.false_ne_true hnot⟩
    · rcases hinput with ⟨cs, rfl, hcs⟩ | ⟨hne, hsame⟩
      · rw [hcs]
        exact h.keys cs
      · rw [hsame]
        cases a with
        | intr cs => exact absurd rfl (hne cs)
        | _ => exact h
    · rw [show Output.taken ⟨[], false, none⟩ = [] from rfl, List.append_nil]
      rcases hinput with ⟨cs, rfl, _⟩ | ⟨hne, _⟩
      · exact Editor.keys_read h.le cs
      · cases a with
        | intr cs => exact absurd rfl (hne cs)
        | _ => rfl

/-- A stretch that comes to a `C('D')` stops there. The call takes it and returns 0 if it has no data, and
leaves it where it is otherwise. -/
theorem enter_at_eof {q : P} {c : Call} {rest : List UInt8} (h : Mirrors s.input ed)
    (hstep : step s (.enter q) = some s') (hpc : s.pc q = .runnable c) (hasks : 0 < c.target)
    (hat : ed.pending = (output s (.enter q)).bytes ++ ctrlD :: rest) :
    (output s (.enter q)).answer = some ((c.got ++ (output s (.enter q)).bytes).length : Int) ∧
      s'.input.between s'.input.r s'.input.w = if c.got ++ (output s (.enter q)).bytes = [] then rest else ctrlD ::
      rest := by
  obtain ⟨c', rd, hpc', hreads, hinput, hbytes, heof, hdone, _⟩ := enter_reads h hstep
  have hmirrors := hreads.mirrors
  have hpending := hreads.pending
  rw [hpc, Pc.runnable.injEq] at hpc'
  subst hpc'
  rw [hbytes] at hat ⊢
  rw [hinput, hmirrors.between_r_w]
  -- The bytes that are left, in terms of those that were there.
  rw [hat, List.append_assoc, List.append_cancel_left_eq] at hpending
  have hd : rd.done = true := by
    cases hd : rd.done with
    | true => rfl
    | false =>
      have he : rd.eof = false := Bool.eq_false_iff.mpr fun he => by
        rw [(hreads.eof he).1] at hd
        cases hd
      rw [hreads.drained hd, he] at hpending
      cases hpending
  refine ⟨hdone hd, ?_⟩
  cases he : rd.eof with
  | true =>
    obtain ⟨_, hnil, hn, hpos⟩ := hreads.eof he
    have hgot : c.got = [] := List.length_eq_zero_iff.mp (by omega)
    rw [if_pos (by rw [hgot, hnil, List.nil_append])]
    rw [he, if_pos rfl, List.singleton_append, List.cons_inj_right] at hpending
    exact hpending.symm
  | false =>
    have hne : c.got ++ rd.bytes ≠ [] := by
      intro hnil
      obtain ⟨hgot, hnil⟩ := List.append_eq_nil_iff.mp hnil
      have htrue := hreads.none hd hnil (by rw [hgot, List.length_nil, Nat.sub_zero])
        (by rw [hgot, List.length_nil, Nat.sub_zero]; exact hasks)
      rw [he] at htrue
      cases htrue
    rw [if_neg hne]
    rw [he, if_neg Bool.false_ne_true, List.nil_append] at hpending
    exact hpending.symm

section Runs

variable (e : Trace (State.init P) step)

/-- The editor beside a run. -/
def editorAt : ℕ → Editor
  | 0 => Editor.empty
  | t + 1 => (editorAt t).follow (output (e.state t) (e.act t)) (e.act t)

/-- All bytes that readers got in the first `t` steps, in order. -/
def deliveredUpTo (t : ℕ) : List UInt8 :=
  (List.range t).flatMap fun k => (output (e.state k) (e.act k)).bytes

/-- The calls that wanted data and returned 0 in the first `t` steps. -/
def endsOfFile (t : ℕ) : ℕ := Nat.count (fun k => EndOfFile (e.state k) (e.act k)) t

theorem run_mirrors : ∀ t ≤ e.len, Mirrors (e.state t).input (editorAt e t) ∧
    deliveredUpTo e t = (editorAt e t).read.filter (· ≠ ctrlD) ∧ (editorAt e t).read.count ctrlD = endsOfFile e t := by
  intro t
  induction t with
  | zero =>
    intro _
    rw [e.start]
    exact ⟨⟨holds_empty _, Nat.le_refl 0, rfl, rfl, rfl, List.not_mem_nil⟩, rfl, rfl⟩
  | succ t ih =>
    intro ht
    obtain ⟨hmirrors, hdelivered, hcount⟩ := ih (by omega)
    obtain ⟨hnext, hread, hdata, heof⟩ := step_mirrors hmirrors (e.next t ht)
    set o := output (e.state t) (e.act t) with ho
    have hdel : deliveredUpTo e (t + 1) = deliveredUpTo e t ++ o.bytes := by
      rw [deliveredUpTo, List.range_succ, List.flatMap_append, List.flatMap_singleton]
      rfl
    have hends : endsOfFile e (t + 1) = endsOfFile e t + o.eof.toNat := by
      rw [endsOfFile, Nat.count_succ, endsOfFile]
      by_cases hE : EndOfFile (e.state t) (e.act t)
      · rw [if_pos hE, heof.mpr hE]
        rfl
      · rw [if_neg hE, Bool.eq_false_iff.mpr (mt heof.mp hE)]
        rfl
    have hbytes : o.bytes.filter (· ≠ ctrlD) = o.bytes :=
      List.filter_eq_self.mpr fun b hb => decide_eq_true fun hD => hdata (hD ▸ hb)
    rw [editorAt, ← ho]
    refine ⟨hnext, ?_, ?_⟩
    · rw [hdel, hread, List.filter_append, ← hdelivered, Output.taken, List.filter_append, hbytes]
      cases o.eof with
      | false => rw [if_neg Bool.false_ne_true, List.filter_nil, List.append_nil]
      | true => rw [if_pos rfl, show [ctrlD].filter (· ≠ ctrlD) = [] from rfl, List.append_nil]
    · rw [hends, hread, List.count_append, hcount, Output.taken, List.count_append,
        List.count_eq_zero_of_not_mem hdata, Nat.zero_add]
      cases o.eof with
      | false => rfl
      | true => rfl

/-- In every run, at every time, the indexes are in order and at most `INPUT_BUF` apart. What readers got is
what they took without the `C('D')`s, what they took followed by what is between `r` and `w` is what the
editor committed, and each `C('D')` taken is one call that returned 0. A call that comes to a `C('D')` with
data returns its data and leaves it. -/
theorem console_line_discipline : ∀ t ≤ e.len,
    ((e.state t).input.w - (e.state t).input.r ≤ (e.state t).input.e - (e.state t).input.r ∧
      (e.state t).input.e - (e.state t).input.r ≤ 128) ∧
    deliveredUpTo e t = (editorAt e t).read.filter (· ≠ ctrlD) ∧
    (editorAt e t).read ++ (e.state t).input.between (e.state t).input.r (e.state t).input.w =
      (editorAt e t).committed ∧
    (e.state t).input.between (e.state t).input.w (e.state t).input.e = (editorAt e t).line ∧
    (editorAt e t).read.count ctrlD = endsOfFile e t ∧
    ∀ q c rest, t < e.len → e.act t = .enter q → (e.state t).pc q = .runnable c → 0 < c.target →
      (editorAt e t).pending = (output (e.state t) (.enter q)).bytes ++ ctrlD :: rest →
        (output (e.state t) (.enter q)).answer =
          some ((c.got ++ (output (e.state t) (.enter q)).bytes).length : Int) ∧
        (e.state (t + 1)).input.between (e.state (t + 1)).input.r (e.state (t + 1)).input.w =
          if c.got ++ (output (e.state t) (.enter q)).bytes = [] then rest else ctrlD :: rest := by
  intro t ht
  obtain ⟨hmirrors, hdelivered, hcount⟩ := run_mirrors e t ht
  have hfits := hmirrors.outstanding_le
  refine ⟨⟨?_, ?_⟩, hdelivered, ?_, hmirrors.between_w_e, hcount, ?_⟩
  · rw [UInt32.le_iff_toNat_le, hmirrors.toNat_w_sub_r, hmirrors.toNat_e_sub_r]
    exact Nat.le_add_right _ _
  · rw [UInt32.le_iff_toNat_le, hmirrors.toNat_e_sub_r]
    exact hfits
  · rw [hmirrors.between_r_w]
    exact List.take_append_drop _ _
  · intro q c rest hlt hact hpc hasks hat
    have hnext := e.next t hlt
    rw [hact] at hnext
    exact enter_at_eof hmirrors hnext hpc hasks hat

end Runs

/-- A process waits for a line; `a`, `b`, a backspace, a carriage return and a `C('D')` are typed; the process
reads the line, and then the end of file. -/
def oneLine : List (Act (Fin 1)) :=
  [.read 0 5, .enter 0, .sleep 0, .intr [97, 98, ctrlH, cr, ctrlD], .enter 0, .read 0 5, .enter 0]

def oneLineTrace : Trace (State.init (Fin 1)) step := Trace.ofList oneLine (.enter 0) (by decide +kernel)

theorem console_line_discipline_oneLine :
    (deliveredUpTo oneLineTrace 7 = [97, nl] ∧ endsOfFile oneLineTrace 7 = 1 ∧
      (editorAt oneLineTrace 7).read.count ctrlD = endsOfFile oneLineTrace 7) ∧
    (output (oneLineTrace.state 4) (.enter 0)).answer =
      some (([] ++ (output (oneLineTrace.state 4) (.enter 0)).bytes).length : Int) :=
  ⟨⟨by decide +kernel, by decide +kernel, (console_line_discipline oneLineTrace 7 (by decide)).2.2.2.2.1⟩,
    ((console_line_discipline oneLineTrace 4 (by decide)).2.2.2.2.2 0 ⟨5, []⟩ [] (by decide) (by decide)
      (by decide +kernel) (by decide) (by decide +kernel)).1⟩

end Laboratorio.Console
