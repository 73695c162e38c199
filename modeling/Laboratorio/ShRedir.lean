import Laboratorio.ShGrammar

/-! `runcmd` of `lab-02/sh.c` up to `execvp`. A redirection closes its descriptor and opens its file on the lowest
free one. The parser puts a later redirection around an earlier one, so `runcmd` meets the last one of the line
first, and the first one of the line is the last to take effect. -/

namespace Laboratorio.Sh

/-- What a descriptor refers to: a file that the command opened, or something else. -/
inductive Ref (α : Type) where
  | other (a : α)
  | file (name : List UInt8) (mode : Mode)
  deriving DecidableEq

abbrev Table (α : Type) := List (Option (Ref α))

variable {t : Table α} {opens : List UInt8 → Mode → Bool}

section Run

variable {α : Type}

def close (t : Table α) (fd : ℕ) : Table α := t.set fd none

/-- `open` on the lowest free descriptor. -/
def openFile (t : Table α) (name : List UInt8) (mode : Mode) : Option (Table α) :=
  (t.findIdx? Option.isNone).map fun fd => t.set fd (some (.file name mode))

/-- How `runcmd` ends: with a call of `execvp`, or with `exit`. -/
inductive Outcome (α : Type) where
  | execvp (argv : List (List UInt8)) (t : Table α)
  | exit (status : ℤ)
  deriving DecidableEq

/-- `runcmd`; `opens` says which files can be opened. -/
def runcmd (opens : List UInt8 → Mode → Bool) : Cmd → Table α → Outcome α
  | .exec [], _ => .exit 0
  | .exec (arg :: argv), t => .execvp (arg :: argv) t
  | .redir cmd name mode fd, t =>
    match if opens name mode then openFile (close t fd) name mode else none with
    | none => .exit (-1)
    | some t => runcmd opens cmd t
  | .pipe left _, t => runcmd opens left t

/-! ### One redirection -/

/-- The file of a redirection in place of what its descriptor referred to. -/
def redirect (t : Table α) (r : UInt8 × List UInt8) : Table α :=
  t.set (if r.1 = LT then 0 else 1) (some (.file r.2 (if r.1 = LT then .rdonly else .wronlyCreatTrunc)))

def Standard (t : Table α) : Prop := ∀ fd < 3, ∃ r, t[fd]? = some (some r)

theorem Standard.length (h : Standard t) : 3 ≤ t.length := by
  obtain ⟨r, hr⟩ := h 2 (by decide)
  exact (List.getElem?_eq_some_iff.mp hr).1

theorem Standard.redirect (h : Standard t) (r : UInt8 × List UInt8) : Standard (redirect t r) := by
  have hlen := h.length
  intro fd hfd
  unfold Sh.redirect
  by_cases hset : fd = if r.1 = LT then 0 else 1
  · rw [hset, List.getElem?_set_self (by rw [← hset]; omega)]
    exact ⟨_, rfl⟩
  · rw [List.getElem?_set_ne (Ne.symm hset)]
    exact h fd hfd

theorem openFile_close {fd : ℕ} (hlt : fd < t.length) (hopen : ∀ i < fd, ∃ r, t[i]? = some (some r)) (name : List UInt8)
    (mode : Mode) : openFile (close t fd) name mode = some (t.set fd (some (.file name mode))) := by
  have hfind : (close t fd).findIdx? Option.isNone = some fd := by
    rw [List.findIdx?_eq_some_iff_getElem]
    refine ⟨by rw [close, List.length_set]; exact hlt, ?_, fun i hi => ?_⟩
    · simp only [close, List.getElem_set_self, Option.isNone_none]
    · obtain ⟨r, hr⟩ := hopen i hi
      have hget := (List.getElem?_eq_some_iff.mp hr).2
      simp only [close, List.getElem_set_ne (Nat.ne_of_gt hi), hget, Option.isNone_some]
      decide
  rw [openFile, hfind, close, Option.map_some, List.set_set]

theorem runcmd_redircmd (hopens : ∀ name mode, opens name mode = true)
    (h : Standard t) (cmd : Cmd) (r : UInt8 × List UInt8) :
    runcmd opens (redircmd cmd r.2 r.1) t = runcmd opens cmd (redirect t r) := by
  have hlen := h.length
  have hfd : (if r.1 = LT then 0 else 1) < 2 := by split <;> decide
  rw [redircmd, runcmd, if_pos (hopens _ _), openFile_close (by omega) fun i hi => h i (by omega)]
  rfl

theorem runcmd_foldl (hopens : ∀ name mode, opens name mode = true) (rs : List (UInt8 × List UInt8))
    (h : Standard t) (cmd : Cmd) :
    Standard (rs.foldr (fun r t => redirect t r) t) ∧
      runcmd opens (rs.foldl (fun cmd r => redircmd cmd r.2 r.1) cmd) t =
      runcmd opens cmd (rs.foldr (fun r t => redirect t r) t) := by
  induction rs generalizing cmd with
  | nil => exact ⟨h, rfl⟩
  | cons r rs ih =>
    obtain ⟨hstandard, hrun⟩ := ih (redircmd cmd r.2 r.1)
    refine ⟨hstandard.redirect r, ?_⟩
    rw [List.foldl_cons, hrun, runcmd_redircmd hopens hstandard]
    rfl

/-! ### A row of redirections -/

/-- The files of the redirections `<` of a row, in the order of the line. -/
def inputs (items : List Item) : List (List UInt8) :=
  items.filterMap fun
    | .input file => some file
    | _ => none

/-- The files of the redirections `>`. -/
def outputs (items : List Item) : List (List UInt8) :=
  items.filterMap fun
    | .output file => some file
    | _ => none

def setFile (t : Table α) (fd : ℕ) (mode : Mode) : Option (List UInt8) → Table α
  | none => t
  | some name => t.set fd (some (.file name mode))

/-- The table with descriptor 0 on one file and descriptor 1 on another, where there is one. -/
def point (t : Table α) (input output : Option (List UInt8)) : Table α :=
  setFile (setFile t 0 .rdonly input) 1 .wronlyCreatTrunc output

theorem setFile_comm (t : Table α) (input output : Option (List UInt8)) (m m' : Mode) :
    setFile (setFile t 0 m input) 1 m' output = setFile (setFile t 1 m' output) 0 m input := by
  cases input with
  | none => rfl
  | some i =>
    cases output with
    | none => rfl
    | some o => exact List.set_comm _ _ (by decide)

theorem setFile_set (t : Table α) (fd : ℕ) (mode : Mode) (name : List UInt8) (o : Option (List UInt8)) :
    (setFile t fd mode o).set fd (some (.file name mode)) = setFile t fd mode (some name) := by
  cases o with
  | none => rfl
  | some name' => exact List.set_set _

theorem foldr_redirect (items : List Item) (t : Table α) :
    (redirs items).foldr (fun r t => redirect t r) t = point t (inputs items).head? (outputs items).head? := by
  induction items with
  | nil => rfl
  | cons item items ih =>
    cases item with
    | word text => exact ih
    | input file =>
      change redirect ((redirs items).foldr (fun r t => redirect t r) t) (LT, file) =
        point t (some file) (outputs items).head?
      rw [ih, point, point, setFile_comm, setFile_comm, ← setFile_set _ 0 .rdonly file (inputs items).head?]
      rfl
    | output file =>
      change redirect ((redirs items).foldr (fun r t => redirect t r) t) (GT, file) =
        point t (inputs items).head? (some file)
      rw [ih, point, point, ← setFile_set _ 1 .wronlyCreatTrunc file (outputs items).head?]
      rfl

theorem setFile_of_ne {fd i : ℕ} (hne : i ≠ fd) (t : Table α) (mode : Mode) (o : Option (List UInt8)) :
    (setFile t fd mode o)[i]? = t[i]? := by
  cases o with
  | none => rfl
  | some name => exact List.getElem?_set_ne (Ne.symm hne)

theorem setFile_inj {fd : ℕ} (hlt : fd < t.length) {mode : Mode} {a b : Option (List UInt8)}
    (hsome : a.isSome = b.isSome) (h : (setFile t fd mode a)[fd]? = (setFile t fd mode b)[fd]?) : a = b := by
  cases a with
  | none =>
    cases b with
    | none => rfl
    | some name => cases hsome
  | some name =>
    cases b with
    | none => cases hsome
    | some name' =>
      simp only [setFile, List.getElem?_set_self hlt, Option.some.injEq, Ref.file.injEq, and_true] at h
      rw [h]

theorem point_eq_iff (h : Standard t) {a b c d : Option (List UInt8)} (hac : a.isSome = c.isSome)
    (hbd : b.isSome = d.isSome) : point t a b = point t c d ↔ a = c ∧ b = d := by
  have hlen := h.length
  constructor
  · intro heq
    have hzero := congrArg (·[0]?) heq
    have hone := congrArg (·[1]?) heq
    dsimp only [point] at hzero hone
    rw [setFile_of_ne (by decide) (setFile t 0 .rdonly a), setFile_of_ne (by decide) (setFile t 0 .rdonly c)] at hzero
    rw [setFile_comm t a b, setFile_comm t c d, setFile_of_ne (by decide) (setFile t 1 .wronlyCreatTrunc b),
      setFile_of_ne (by decide) (setFile t 1 .wronlyCreatTrunc d)] at hone
    have hzero_lt : 0 < t.length := by omega
    have hone_lt : 1 < t.length := by omega
    exact ⟨setFile_inj hzero_lt hac hzero, setFile_inj hone_lt hbd hone⟩
  · rintro ⟨rfl, rfl⟩
    rfl

theorem isSome_head?_eq (l : List (List UInt8)) : l.head?.isSome = l.getLast?.isSome := by
  cases l with
  | nil => rfl
  | cons a l => rw [List.getLast?_cons, List.head?_cons, Option.isSome_some, Option.isSome_some]

/-- A simple command reaches `execvp` with its words, and each of descriptors 0 and 1 on the file of the first
redirection of its kind. -/
theorem runcmd_tree (hopens : ∀ name mode, opens name mode = true) {items : List Item}
    (hwords : args items ≠ []) (h : Standard t) :
    runcmd opens (tree items) t = .execvp (args items) (point t (inputs items).head? (outputs items).head?) := by
  rw [tree, (runcmd_foldl hopens (redirs items) h _).2, foldr_redirect]
  cases hargs : args items with
  | nil => exact absurd hargs hwords
  | cons arg argv => rfl

/-- A simple command `line` of at least one word, with the standard descriptors open and every `open` successful:
`runcmd` calls `execvp` with descriptors 0 and 1 on the files of the last `<` and of the last `>`, and the others as
they were, exactly if the first and the last redirection of each kind name the same file. -/
theorem redirections_iff (opens : List UInt8 → Mode → Bool) (hopens : ∀ name mode, opens name mode = true)
    (line : List UInt8) (hline : 0 ∉ line) (items : List Item) (htokens : tokens line = lineTokens items [])
    (hwords : args items ≠ [])
    (hargs : (args items).length ≤ MAXARGS - 1) (t : Table α) (h : Standard t) :
    ∃ cmd t', parsecmd line = .ok cmd ∧ runcmd opens cmd t = .execvp (args items) t' ∧
      (t' = point t (inputs items).getLast? (outputs items).getLast? ↔
        (inputs items).head? = (inputs items).getLast? ∧ (outputs items).head? = (outputs items).getLast?) := by
  refine ⟨tree items, _, ?_, runcmd_tree hopens hwords h, point_eq_iff h (isSome_head?_eq _) (isSome_head?_eq _)⟩
  obtain ⟨r, hrun⟩ := parsepipe_line items [] htokens fun x hx => by
    rw [List.mem_singleton.mp hx]
    exact hargs
  rw [parsecmd_eq, cstring_of_no_zero hline, hrun]
  rfl

end Run

def twoOutputs : List UInt8 := [97, 62, 98, 62, 99]

def terminal : Table Unit := [some (.other ()), some (.other ()), some (.other ())]

theorem tokens_twoOutputs : tokens twoOutputs = lineTokens [.word [97], .output [98], .output [99]] [] := by
  simp [twoOutputs, tokens, lineTokens, Item.tokens, whitespace, isWord, symbols, BAR, LT, GT]

theorem parsecmd_twoOutputs :
    parsecmd twoOutputs = .ok (.redir (.redir (.exec [[97]]) [98] .wronlyCreatTrunc 1) [99] .wronlyCreatTrunc 1) := by
  obtain ⟨r, hrun⟩ := parsepipe_line [.word [97], .output [98], .output [99]] [] tokens_twoOutputs (by decide)
  rw [parsecmd_eq, cstring_of_no_zero (by decide), hrun]
  rfl

/-- The output of "a>b>c" goes to `b`. -/
theorem redirections_twoOutputs : ∃ cmd, parsecmd twoOutputs = .ok cmd ∧ runcmd (fun _ _ => true) cmd terminal =
    .execvp [[97]] [some (.other ()), some (.file [98] .wronlyCreatTrunc), some (.other ())] ∧
      (outputs [.word [97], .output [98], .output [99]]).getLast? = some [99] := by
  refine ⟨_, parsecmd_twoOutputs, ?_, ?_⟩
  · decide
  · decide

def oneInput : List UInt8 := [97, 60, 98]

theorem tokens_oneInput : tokens oneInput = lineTokens [.word [97], .input [98]] [] := by
  simp [oneInput, tokens, lineTokens, Item.tokens, whitespace, isWord, symbols, BAR, LT, GT]

theorem redirections_iff_oneInput : ∃ cmd t', parsecmd oneInput = .ok cmd ∧ runcmd (fun _ _ => true) cmd terminal =
    .execvp [[97]] t' ∧ t' = point terminal (some [98]) none := by
  have hstandard : Standard terminal := by
    intro fd hfd
    match fd with
    | 0 => exact ⟨_, rfl⟩
    | 1 => exact ⟨_, rfl⟩
    | 2 => exact ⟨_, rfl⟩
  obtain ⟨cmd, t', hparse, hrun, hiff⟩ := redirections_iff (fun _ _ => true) (fun _ _ => rfl) oneInput (by decide)
    [.word [97], .input [98]] tokens_oneInput (by decide) (by decide) terminal hstandard
  exact ⟨cmd, t', hparse, hrun, hiff.mpr ⟨rfl, rfl⟩⟩

end Laboratorio.Sh
