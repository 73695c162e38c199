import Laboratorio.CString
import Laboratorio.RunPrefix

/-! The parser of `lab-02/sh.c`. A pointer into the line is the list of the bytes from it up to `es`, the
end of the line; the `exit` calls are errors. The loops and the recursion are on the cursor, which every
turn moves. -/

namespace Laboratorio.Sh

abbrev MAXARGS : ℕ := 10

abbrev BAR : UInt8 := 124

abbrev LT : UInt8 := 60

abbrev GT : UInt8 := 62

abbrev WORD : UInt8 := 97

def whitespace : List UInt8 := [32, 9, 13, 10, 11]

def symbols : List UInt8 := [LT, BAR, GT]

/-- The two ways `redircmd` opens its file: `O_RDONLY` and `O_WRONLY | O_CREAT | O_TRUNC`. -/
inductive Mode where
  | rdonly
  | wronlyCreatTrunc
  deriving DecidableEq, Repr

/-- `struct cmd`: `execcmd`, `redircmd` and `pipecmd`. -/
inductive Cmd where
  | exec (argv : List (List UInt8))
  | redir (cmd : Cmd) (file : List UInt8) (mode : Mode) (fd : ℕ)
  | pipe (left right : Cmd)
  deriving DecidableEq, Repr

inductive Error where
  | missingFile
  | syntaxError
  | tooManyArgs
  | leftovers (s : List UInt8)
  deriving DecidableEq, Repr

def redircmd (subcmd : Cmd) (file : List UInt8) (type : UInt8) : Cmd :=
  .redir subcmd file (if type = LT then .rdonly else .wronlyCreatTrunc) (if type = LT then 0 else 1)

/-- `cmd->argv[argc] = arg`, where `cmd` is the `execcmd` under the redirections of `ret`. -/
def Cmd.addArg : Cmd → List UInt8 → Cmd
  | .exec argv, arg => .exec (argv ++ [arg])
  | .redir cmd file mode fd, arg => .redir (cmd.addArg arg) file mode fd
  | .pipe left right, _ => .pipe left right

def skip (s : List UInt8) : List UInt8 := s.dropWhile (· ∈ whitespace)

def isWord (c : UInt8) : Bool := c ∉ whitespace && c ∉ symbols

/-- What `gettoken` returns and stores. -/
structure Gettoken where
  ret : UInt8
  q : List UInt8
  eq : List UInt8
  ps : List UInt8

def gettoken (s : List UInt8) : Gettoken :=
  match skip s with
  | [] => { ret := 0, q := [], eq := [], ps := [] }
  | c :: s =>
    if c = BAR ∨ c = LT ∨ c = GT then { ret := c, q := c :: s, eq := s, ps := skip s }
    else
      { ret := WORD
        q := c :: s
        eq := (c :: s).dropWhile isWord
        ps := skip ((c :: s).dropWhile isWord) }

/-- `peek`: the answer and the cursor, which stands behind the white space. -/
def peek (s : List UInt8) (toks : List UInt8) : Bool × List UInt8 :=
  match skip s with
  | [] => (false, [])
  | c :: s => (c ∈ toks, c :: s)

def mkcopy (s es : List UInt8) : List UInt8 := s.take (s.length - es.length)

/-! ### The cursor -/

theorem length_skip_le (s : List UInt8) : (skip s).length ≤ s.length :=
  (List.dropWhile_sublist _).length_le

theorem not_whitespace_of_skip {s r : List UInt8} {c : UInt8} (h : skip s = c :: r) : c ∉ whitespace := by
  have hhead := List.head?_dropWhile_not (· ∈ whitespace) s
  rw [show s.dropWhile (· ∈ whitespace) = c :: r from h] at hhead
  simpa using hhead

theorem skip_skip (s : List UInt8) : skip (skip s) = skip s := by
  cases h : skip s with
  | nil => rfl
  | cons c r => exact List.dropWhile_cons_of_neg (by simpa using not_whitespace_of_skip h)

/-- What stands at the cursor behind the white space: nothing, a symbol or a word. -/
inductive Front (s : List UInt8) : Prop where
  | done (hs : skip s = []) (hg : gettoken s = ⟨0, [], [], []⟩)
  | symbol (c : UInt8) (r : List UInt8) (hs : skip s = c :: r) (hc : c = BAR ∨ c = LT ∨ c = GT)
      (hg : gettoken s = ⟨c, c :: r, r, skip r⟩)
  | word (c : UInt8) (r : List UInt8) (hs : skip s = c :: r) (hc : isWord c = true)
      (hg : gettoken s = ⟨WORD, c :: r, r.dropWhile isWord, skip (r.dropWhile isWord)⟩)

theorem front (s : List UInt8) : Front s := by
  cases hs : skip s with
  | nil => exact .done hs (by simp only [gettoken, hs])
  | cons c r =>
    by_cases hc : c = BAR ∨ c = LT ∨ c = GT
    · exact .symbol c r hs hc (by simp only [gettoken, hs, if_pos hc])
    · have hword : isWord c = true := by
        have hws := not_whitespace_of_skip hs
        simp only [not_or] at hc
        simp [isWord, hws, symbols, hc]
      exact .word c r hs hword (by simp only [gettoken, hs, if_neg hc, List.dropWhile_cons, if_pos hword])

theorem length_dropWhile_le (r : List UInt8) : (r.dropWhile isWord).length ≤ r.length :=
  (List.dropWhile_sublist _).length_le

theorem length_gettoken_lt {s : List UInt8} (h : (gettoken s).ret ≠ 0) : (gettoken s).ps.length < s.length := by
  have hskip := length_skip_le s
  cases front s with
  | done hs hg =>
    rw [hg] at h
    exact absurd rfl h
  | symbol c r hs hc hg =>
    rw [hs, List.length_cons] at hskip
    rw [hg]
    calc
      (skip r).length ≤ r.length := length_skip_le r
      _ < s.length := hskip
  | word c r hs hc hg =>
    rw [hs, List.length_cons] at hskip
    rw [hg]
    calc
      (skip (r.dropWhile isWord)).length ≤ (r.dropWhile isWord).length := length_skip_le _
      _ ≤ r.length := length_dropWhile_le r
      _ < s.length := hskip

theorem length_gettoken_le (s : List UInt8) : (gettoken s).ps.length ≤ s.length := by
  cases front s with
  | done hs hg =>
    rw [hg]
    exact Nat.zero_le _
  | symbol c r hs hc hg =>
    apply (length_gettoken_lt ?_).le
    rw [hg]
    rintro rfl
    exact absurd hc (by decide)
  | word c r hs hc hg =>
    apply (length_gettoken_lt ?_).le
    rw [hg]
    exact show WORD ≠ 0 by decide

theorem peek_snd (s toks : List UInt8) : (peek s toks).2 = skip s := by
  unfold peek
  split <;> simp_all

theorem peek_fst (s toks : List UInt8) : (peek s toks).1 = true ↔ ∃ c r, skip s = c :: r ∧ c ∈ toks := by
  unfold peek
  split <;> simp_all

theorem gettoken_skip (s : List UInt8) : gettoken (skip s) = gettoken s := by
  simp only [gettoken, skip_skip]

theorem ret_ne_zero_of_peek {s toks : List UInt8} (htoks : 0 ∉ toks) (h : (peek s toks).1 = true) :
    (gettoken (peek s toks).2).ret ≠ 0 := by
  obtain ⟨c, r, hs, hc⟩ := (peek_fst s toks).mp h
  rw [peek_snd, gettoken_skip]
  cases front s with
  | done hs' hg =>
    rw [hs] at hs'
    cases hs'
  | symbol c' r' hs' hc' hg =>
    rw [hs] at hs'
    cases hs'
    rw [hg]
    rintro rfl
    exact htoks hc
  | word c' r' hs' hc' hg =>
    rw [hg]
    exact show WORD ≠ 0 by decide

theorem length_peek_le (s toks : List UInt8) : (peek s toks).2.length ≤ s.length := by
  rw [peek_snd]
  exact length_skip_le s

/-! ### The parser -/

def parseredirs (cmd : Cmd) (s : List UInt8) : Except Error (Cmd × List UInt8) :=
  if _hpeek : (peek s [LT, GT]).1 then
    let t := gettoken (peek s [LT, GT]).2
    let f := gettoken t.ps
    if f.ret ≠ WORD then .error .missingFile
    else parseredirs (redircmd cmd (mkcopy f.q f.eq) t.ret) f.ps
  else .ok (cmd, (peek s [LT, GT]).2)
termination_by s.length
decreasing_by
  have h1 := length_gettoken_lt (ret_ne_zero_of_peek (by decide) _hpeek)
  have h2 := length_gettoken_le (gettoken (peek s [LT, GT]).2).ps
  have h3 := length_peek_le s [LT, GT]
  omega

theorem length_parseredirs_le {cmd cmd' : Cmd} {s s' : List UInt8} (h : parseredirs cmd s = .ok (cmd', s')) :
    s'.length ≤ s.length := by
  fun_induction parseredirs cmd s with
  | case1 cmd s hpeek t f hf => cases h
  | case2 cmd s hpeek t f hf ih =>
    calc
      s'.length ≤ f.ps.length := ih h
      _ ≤ t.ps.length := length_gettoken_le _
      _ ≤ (peek s [LT, GT]).2.length := length_gettoken_le _
      _ ≤ s.length := length_peek_le _ _
  | case3 cmd s hpeek =>
    cases h
    exact length_peek_le _ _

/-- The loop of `parseexec`. -/
def parseargs (argc : ℕ) (ret : Cmd) (s : List UInt8) : Except Error (Cmd × List UInt8) :=
  if (peek s [BAR]).1 then .ok (ret, (peek s [BAR]).2)
  else
    let t := gettoken (peek s [BAR]).2
    if _hzero : t.ret = 0 then .ok (ret, t.ps)
    else if t.ret ≠ WORD then .error .syntaxError
    else if argc + 1 ≥ MAXARGS then .error .tooManyArgs
    else
      match hredirs : parseredirs (ret.addArg (mkcopy t.q t.eq)) t.ps with
      | .error e => .error e
      | .ok (ret₁, s₁) => parseargs (argc + 1) ret₁ s₁
termination_by s.length
decreasing_by
  calc
    s₁.length ≤ t.ps.length := length_parseredirs_le hredirs
    _ < (peek s [BAR]).2.length := length_gettoken_lt _hzero
    _ ≤ s.length := length_peek_le s [BAR]

def parseexec (s : List UInt8) : Except Error (Cmd × List UInt8) := do
  let (ret, s) ← parseredirs (.exec []) s
  parseargs 0 ret s

theorem length_parseargs_le {argc : ℕ} {ret cmd : Cmd} {s s' : List UInt8}
    (h : parseargs argc ret s = .ok (cmd, s')) : s'.length ≤ s.length := by
  fun_induction parseargs argc ret s with
  | case1 argc ret s hpeek =>
    cases h
    exact length_peek_le _ _
  | case2 argc ret s hpeek t hzero =>
    cases h
    exact (length_gettoken_le _).trans (length_peek_le _ _)
  | case3 argc ret s hpeek t hzero hword => cases h
  | case4 argc ret s hpeek t hzero hword hmany => cases h
  | case5 argc ret s hpeek t hzero hword hmany e hredirs => cases h
  | case6 argc ret s hpeek t hzero hword hmany ret₁ s₁ hredirs ih =>
    calc
      s'.length ≤ s₁.length := ih h
      _ ≤ t.ps.length := length_parseredirs_le hredirs
      _ ≤ (peek s [BAR]).2.length := length_gettoken_le _
      _ ≤ s.length := length_peek_le _ _

theorem length_parseexec_le {cmd : Cmd} {s s' : List UInt8} (h : parseexec s = .ok (cmd, s')) :
    s'.length ≤ s.length := by
  obtain ⟨⟨ret, s₁⟩, hredirs, hargs⟩ := bind_eq_ok h
  exact (length_parseargs_le hargs).trans (length_parseredirs_le hredirs)

def parsepipe (s : List UInt8) : Except Error (Cmd × List UInt8) :=
  match _hexec : parseexec s with
  | .error e => .error e
  | .ok (cmd, s₁) =>
    if _hpeek : (peek s₁ [BAR]).1 then do
      let (right, s) ← parsepipe (gettoken (peek s₁ [BAR]).2).ps
      return (.pipe cmd right, s)
    else .ok (cmd, (peek s₁ [BAR]).2)
termination_by s.length
decreasing_by
  have h1 := length_gettoken_lt (ret_ne_zero_of_peek (by decide) _hpeek)
  have h2 := length_peek_le s₁ [BAR]
  have h3 := length_parseexec_le _hexec
  omega

def parseline (s : List UInt8) : Except Error (Cmd × List UInt8) := parsepipe s

/-- `parsecmd`, on the line that ends at the first zero byte. -/
def parsecmd (s : List UInt8) : Except Error Cmd := do
  let (cmd, s) ← parseline (cstring s)
  if (peek s []).2 ≠ [] then .error (.leftovers (peek s []).2)
  else return cmd

end Laboratorio.Sh
