import Laboratorio.ShParser

/-! The language of the parser of `lab-02/sh.c`. The tokens of a line are read off its bytes; a parser on
tokens is what the parser on bytes computes; and the lines it accepts are those of the grammar, with the
tree of their segments. -/

namespace Laboratorio.Sh

/-! ### Tokens -/

inductive Token where
  | word (text : List UInt8)
  | lt
  | gt
  | bar
  deriving DecidableEq, Repr

/-- The tokens of a line: the symbols, and the longest rows of bytes without white space or symbol. -/
def tokens (s : List UInt8) : List Token :=
  match s with
  | [] => []
  | c :: r =>
    if c ∈ whitespace then tokens r
    else if c = BAR then .bar :: tokens r
    else if c = LT then .lt :: tokens r
    else if c = GT then .gt :: tokens r
    else .word (c :: r.takeWhile isWord) :: tokens (r.dropWhile isWord)
termination_by s.length
decreasing_by
  all_goals have := length_dropWhile_le r
  all_goals simp only [List.length_cons]
  all_goals omega

/-- What `gettoken` returns for a token. -/
def Token.code : Token → UInt8
  | .word _ => WORD
  | .lt => LT
  | .gt => GT
  | .bar => BAR

theorem Token.code_ne_zero (t : Token) : t.code ≠ 0 := by
  cases t with
  | word text => exact show WORD ≠ 0 by decide
  | lt => decide
  | gt => decide
  | bar => decide

theorem tokens_nil : tokens [] = [] := by rw [tokens]

theorem tokens_skip (s : List UInt8) : tokens (skip s) = tokens s := by
  induction s with
  | nil => rfl
  | cons c r ih =>
    by_cases hc : c ∈ whitespace
    · rw [tokens, if_pos hc, ← ih, skip, List.dropWhile_cons_of_pos (by simpa using hc)]
      rfl
    · rw [skip, List.dropWhile_cons_of_neg (by simpa using hc)]

theorem mkcopy_dropWhile (c : UInt8) (r : List UInt8) :
    mkcopy (c :: r) (r.dropWhile isWord) = c :: r.takeWhile isWord := by
  have hsplit : c :: r = (c :: r.takeWhile isWord) ++ r.dropWhile isWord := by
    rw [List.cons_append, List.takeWhile_append_dropWhile]
  have hlen : (c :: r).length - (r.dropWhile isWord).length = (c :: r.takeWhile isWord).length := by
    rw [hsplit, List.length_append, Nat.add_sub_cancel]
  rw [mkcopy, hlen, hsplit]
  exact List.take_left

theorem tokens_eq_nil_iff (s : List UInt8) : tokens s = [] ↔ skip s = [] := by
  rw [← tokens_skip]
  cases hs : skip s with
  | nil => simp [tokens_nil]
  | cons c r =>
    rw [tokens, if_neg (not_whitespace_of_skip hs)]
    split_ifs <;> simp

variable {s : List UInt8}

theorem gettoken_of_nil (h : tokens s = []) : gettoken s = ⟨0, [], [], []⟩ := by
  rw [gettoken, (tokens_eq_nil_iff s).mp h]

variable {r : List UInt8}

theorem tokens_of_symbol {c : UInt8} (hs : skip s = c :: r) (hc : c = BAR ∨ c = LT ∨ c = GT) :
    ∃ t, tokens s = t :: tokens r ∧ t.code = c ∧ ∀ text, t ≠ .word text := by
  rw [← tokens_skip, hs, tokens, if_neg (not_whitespace_of_skip hs)]
  rcases hc with rfl | rfl | rfl
  · exact ⟨.bar, if_pos rfl, rfl, nofun⟩
  · exact ⟨.lt, rfl, rfl, nofun⟩
  · exact ⟨.gt, rfl, rfl, nofun⟩

theorem not_symbol_of_isWord {c : UInt8} (hc : isWord c = true) : c ∉ symbols := by
  simp only [isWord, Bool.and_eq_true, decide_eq_true_eq] at hc
  exact hc.2

theorem tokens_of_word {c : UInt8} (hs : skip s = c :: r) (hc : isWord c = true) :
    tokens s = .word (c :: r.takeWhile isWord) :: tokens (r.dropWhile isWord) := by
  have hsym := not_symbol_of_isWord hc
  simp only [symbols, List.mem_cons, not_or] at hsym
  rw [← tokens_skip, hs, tokens, if_neg (not_whitespace_of_skip hs), if_neg hsym.2.1, if_neg hsym.1,
    if_neg hsym.2.2.1]

variable {ts : List Token} {t : Token}

theorem gettoken_of_cons (h : tokens s = t :: ts) :
    (gettoken s).ret = t.code ∧ tokens (gettoken s).ps = ts ∧
      ∀ text, t = .word text → mkcopy (gettoken s).q (gettoken s).eq = text := by
  cases front s with
  | done hs hg =>
    rw [(tokens_eq_nil_iff s).mpr hs] at h
    cases h
  | symbol c r hs hc hg =>
    obtain ⟨t', htokens, hcode, hword⟩ := tokens_of_symbol hs hc
    rw [htokens] at h
    cases h
    rw [hg, tokens_skip]
    exact ⟨hcode.symm, rfl, fun text htext => absurd htext (hword text)⟩
  | word c r hs hc hg =>
    rw [tokens_of_word hs hc] at h
    cases h
    rw [hg, tokens_skip]
    refine ⟨rfl, rfl, fun text htext => ?_⟩
    cases htext
    exact mkcopy_dropWhile c r

theorem tokens_peek (s toks : List UInt8) : tokens (peek s toks).2 = tokens s := by
  rw [peek_snd, tokens_skip]

theorem peek_of_nil (h : tokens s = []) (toks : List UInt8) : (peek s toks).1 = false := by
  rw [peek, (tokens_eq_nil_iff s).mp h]

theorem peek_of_cons {toks : List UInt8} (htoks : ∀ c ∈ toks, c ∈ symbols)
    (h : tokens s = t :: ts) : (peek s toks).1 = true ↔ t.code ∈ toks ∧ ∀ text, t ≠ .word text := by
  rw [peek_fst]
  cases front s with
  | done hs hg =>
    rw [(tokens_eq_nil_iff s).mpr hs] at h
    cases h
  | symbol c r hs hc hg =>
    obtain ⟨t', htokens, hcode, hword⟩ := tokens_of_symbol hs hc
    rw [htokens] at h
    cases h
    rw [hs, hcode]
    constructor
    · rintro ⟨c', r', hcons, hc'⟩
      cases hcons
      exact ⟨hc', hword⟩
    · exact fun hc' => ⟨c, r, rfl, hc'.1⟩
  | word c r hs hc hg =>
    rw [tokens_of_word hs hc] at h
    cases h
    rw [hs]
    constructor
    · rintro ⟨c', r', hcons, hc'⟩
      cases hcons
      exact absurd (htoks c hc') (not_symbol_of_isWord hc)
    · exact fun hword => absurd rfl (hword.2 _)

/-! ### The parser on tokens -/

/-- The items of a segment, up to a bar or the end, put into the tree `ret` of `argc` words. -/
def segment (argc : ℕ) (ret : Cmd) : List Token → Except Error (Cmd × List Token)
  | [] => .ok (ret, [])
  | .bar :: ts => .ok (ret, .bar :: ts)
  | .word text :: ts =>
    if argc + 1 ≥ MAXARGS then .error .tooManyArgs else segment (argc + 1) (ret.addArg text) ts
  | .lt :: .word file :: ts => segment argc (redircmd ret file LT) ts
  | .gt :: .word file :: ts => segment argc (redircmd ret file GT) ts
  | .lt :: _ => .error .missingFile
  | .gt :: _ => .error .missingFile

def NoRedir (ts : List Token) : Prop := ∀ rest, ts ≠ .lt :: rest ∧ ts ≠ .gt :: rest

theorem peek_redir_iff (s : List UInt8) :
    (peek s [LT, GT]).1 = true ↔ ∃ t ts, tokens s = t :: ts ∧ (t = .lt ∨ t = .gt) := by
  cases h : tokens s with
  | nil => simp [peek_of_nil h]
  | cons t ts =>
    rw [peek_of_cons (by simp [symbols]) h]
    cases t <;> simp [Token.code, show BAR ≠ LT by decide, show BAR ≠ GT by decide]

theorem peek_bar_iff (s : List UInt8) : (peek s [BAR]).1 = true ↔ ∃ ts, tokens s = .bar :: ts := by
  cases h : tokens s with
  | nil => simp [peek_of_nil h]
  | cons t ts =>
    rw [peek_of_cons (by simp [symbols]) h]
    cases t <;> simp [Token.code, show LT ≠ BAR by decide, show GT ≠ BAR by decide]

theorem word_of_ret (h : (gettoken s).ret = WORD) : ∃ text ts, tokens s = .word text :: ts := by
  cases hs : tokens s with
  | nil =>
    rw [gettoken_of_nil hs] at h
    exact absurd h (by decide)
  | cons t ts =>
    have hcode := (gettoken_of_cons hs).1
    rw [h] at hcode
    cases t with
    | word text => exact ⟨text, ts, rfl⟩
    | lt | gt | bar => exact absurd hcode (by decide)

theorem segment_redir (argc : ℕ) (ret : Cmd) (ht : t = .lt ∨ t = .gt) (file : List UInt8) (ts : List Token) :
    segment argc ret (t :: .word file :: ts) = segment argc (redircmd ret file t.code) ts := by
  cases ht with
  | inl h =>
    subst h
    rfl
  | inr h =>
    subst h
    rfl

theorem segment_missing (argc : ℕ) (ret : Cmd) (ht : t = .lt ∨ t = .gt)
    (hts : ∀ text rest, ts ≠ .word text :: rest) : segment argc ret (t :: ts) = .error .missingFile := by
  cases ht with
  | inl h | inr h =>
    subst h
    unfold segment
    split <;> simp_all

theorem parseredirs_spec (cmd : Cmd) (s : List UInt8) :
    (parseredirs cmd s = .error .missingFile ∧ ∀ argc, segment argc cmd (tokens s) = .error .missingFile) ∨
      ∃ cmd' s', parseredirs cmd s = .ok (cmd', s') ∧ NoRedir (tokens s') ∧
        ∀ argc, segment argc cmd (tokens s) = segment argc cmd' (tokens s') := by
  fun_induction parseredirs cmd s with
  | case1 cmd s hpeek t f hf =>
    obtain ⟨sym, ts, htokens, hsym⟩ := (peek_redir_iff s).mp hpeek
    refine .inl ⟨rfl, fun argc => ?_⟩
    rw [htokens]
    apply segment_missing argc cmd hsym
    intro text rest hrest
    have hps : tokens t.ps = ts := (gettoken_of_cons ((tokens_peek s _).trans htokens)).2.1
    rw [hrest] at hps
    exact hf (gettoken_of_cons hps).1
  | case2 cmd s hpeek t f hf ih =>
    obtain ⟨sym, ts, htokens, hsym⟩ := (peek_redir_iff s).mp hpeek
    obtain ⟨hret, hps, -⟩ := gettoken_of_cons ((tokens_peek s [LT, GT]).trans htokens)
    obtain ⟨file, rest, hfile⟩ := word_of_ret (not_not.mp hf)
    obtain ⟨-, hrest, htext⟩ := gettoken_of_cons hfile
    -- the two tokens of the redirection are what `segment` takes off
    have hseg : ∀ argc, segment argc cmd (tokens s) =
        segment argc (redircmd cmd (mkcopy f.q f.eq) t.ret) (tokens f.ps) := by
      intro argc
      rw [htokens, ← hps, hfile, segment_redir argc cmd hsym, ← hret, ← hrest, htext file rfl]
    cases ih with
    | inl h => exact .inl ⟨h.1, fun argc => (hseg argc).trans (h.2 argc)⟩
    | inr h =>
      obtain ⟨cmd', s', hrun, hno, hsegment⟩ := h
      exact .inr ⟨cmd', s', hrun, hno, fun argc => (hseg argc).trans (hsegment argc)⟩
  | case3 cmd s hpeek =>
    refine .inr ⟨cmd, _, rfl, ?_, fun argc => by rw [tokens_peek]⟩
    intro rest
    rw [tokens_peek]
    constructor
    · exact fun h => hpeek ((peek_redir_iff s).mpr ⟨_, rest, h, .inl rfl⟩)
    · exact fun h => hpeek ((peek_redir_iff s).mpr ⟨_, rest, h, .inr rfl⟩)

variable {argc : ℕ}

theorem segment_word (ret : Cmd) (hargc : ¬argc + 1 ≥ MAXARGS) (hret : (gettoken s).ret = WORD) :
    segment argc ret (tokens s) =
      segment (argc + 1) (ret.addArg (mkcopy (gettoken s).q (gettoken s).eq)) (tokens (gettoken s).ps) := by
  obtain ⟨text, ts, hs⟩ := word_of_ret hret
  obtain ⟨-, hps, htext⟩ := gettoken_of_cons hs
  rw [hs, segment, if_neg hargc, hps, htext text rfl]

/-- The result of a parser on bytes with the rest of the line as tokens. -/
def onTokens (r : Except Error (Cmd × List UInt8)) : Except Error (Cmd × List Token) :=
  r.map fun p => (p.1, tokens p.2)

theorem parseargs_spec (argc : ℕ) (ret : Cmd) (s : List UInt8) (hno : NoRedir (tokens s)) :
    onTokens (parseargs argc ret s) = segment argc ret (tokens s) := by
  fun_induction parseargs argc ret s with
  | case1 argc ret s hpeek =>
    obtain ⟨ts, hts⟩ := (peek_bar_iff s).mp hpeek
    change Except.ok (ret, tokens (peek s [BAR]).2) = _
    rw [tokens_peek, hts]
    rfl
  | case2 argc ret s hpeek t hzero =>
    have hnil : tokens s = [] := by
      cases hs : tokens s with
      | nil => rfl
      | cons sym ts =>
        have hcode := (gettoken_of_cons ((tokens_peek s [BAR]).trans hs)).1
        rw [hzero] at hcode
        exact absurd hcode.symm sym.code_ne_zero
    have hps : t.ps = [] := by
      rw [show t = ⟨0, [], [], []⟩ from gettoken_of_nil ((tokens_peek s _).trans hnil)]
    change Except.ok (ret, tokens t.ps) = _
    rw [hps, hnil, tokens_nil]
    rfl
  | case3 argc ret s hpeek t hzero hword =>
    -- a token that is neither a word nor a bar is a redirection
    exfalso
    cases hs : tokens s with
    | nil => exact hzero (by rw [show t = _ from gettoken_of_nil ((tokens_peek s _).trans hs)])
    | cons sym ts =>
      have hcode := (gettoken_of_cons ((tokens_peek s [BAR]).trans hs)).1
      cases sym with
      | word text => exact hword hcode
      | lt => exact (hno ts).1 hs
      | gt => exact (hno ts).2 hs
      | bar => exact hpeek ((peek_bar_iff s).mpr ⟨ts, hs⟩)
  | case4 argc ret s hpeek t hzero hword hmany =>
    obtain ⟨text, ts, hs⟩ := word_of_ret (not_not.mp hword)
    rw [tokens_peek] at hs
    rw [hs, segment, if_pos hmany]
    rfl
  | case5 argc ret s hpeek t hzero hword hmany e hredirs =>
    have hstep := segment_word ret hmany (not_not.mp hword)
    rw [tokens_peek] at hstep
    rw [hstep]
    cases parseredirs_spec (ret.addArg (mkcopy t.q t.eq)) t.ps with
    | inl h =>
      rw [hredirs] at h
      cases h.1
      exact (h.2 _).symm
    | inr h =>
      obtain ⟨cmd', s', hrun, -⟩ := h
      rw [hredirs] at hrun
      cases hrun
  | case6 argc ret s hpeek t hzero hword hmany ret₁ s₁ hredirs ih =>
    have hstep := segment_word ret hmany (not_not.mp hword)
    rw [tokens_peek] at hstep
    rw [hstep]
    cases parseredirs_spec (ret.addArg (mkcopy t.q t.eq)) t.ps with
    | inl h =>
      rw [hredirs] at h
      cases h.1
    | inr h =>
      obtain ⟨cmd', s', hrun, hno', hsegment⟩ := h
      rw [hredirs] at hrun
      cases hrun
      exact (ih hno').trans (hsegment _).symm

theorem parseexec_spec (s : List UInt8) : onTokens (parseexec s) = segment 0 (.exec []) (tokens s) := by
  unfold parseexec
  cases parseredirs_spec (.exec []) s with
  | inl h =>
    rw [h.1, h.2]
    rfl
  | inr h =>
    obtain ⟨cmd', s', hrun, hno, hsegment⟩ := h
    rw [hrun, hsegment, ok_bind]
    exact parseargs_spec 0 cmd' s' hno

/-! ### The grammar -/

inductive Item where
  | word (text : List UInt8)
  | input (file : List UInt8)
  | output (file : List UInt8)
  deriving DecidableEq, Repr

def Item.tokens : Item → List Token
  | .word text => [.word text]
  | .input file => [.lt, .word file]
  | .output file => [.gt, .word file]

def args (items : List Item) : List (List UInt8) :=
  items.filterMap fun
    | .word text => some text
    | _ => none

/-- The redirections of a segment, each with its symbol. -/
def redirs (items : List Item) : List (UInt8 × List UInt8) :=
  items.filterMap fun
    | .word _ => none
    | .input file => some (LT, file)
    | .output file => some (GT, file)

/-- The tree of a segment: its words in an `execcmd`, under its redirections, the first one innermost. -/
def tree (items : List Item) : Cmd :=
  (redirs items).foldl (fun cmd r => redircmd cmd r.2 r.1) (.exec (args items))

/-- The tokens of a line of segments. -/
def lineTokens (items : List Item) (rest : List (List Item)) : List Token :=
  items.flatMap Item.tokens ++ rest.flatMap fun items => .bar :: items.flatMap Item.tokens

/-- The tree of a line: the pipe of its first segment and of the rest. -/
def lineTree (items : List Item) : List (List Item) → Cmd
  | [] => tree items
  | next :: rest => .pipe (tree items) (lineTree next rest)

/-- What `segment` does to the tree with an item. -/
def Item.put (ret : Cmd) : Item → Cmd
  | .word text => ret.addArg text
  | .input file => redircmd ret file LT
  | .output file => redircmd ret file GT

theorem foldl_addArg_redircmd (words : List (List UInt8)) (cmd : Cmd) (file : List UInt8) (type : UInt8) :
    words.foldl Cmd.addArg (redircmd cmd file type) = redircmd (words.foldl Cmd.addArg cmd) file type := by
  induction words generalizing cmd with
  | nil => rfl
  | cons word words ih => exact ih (cmd.addArg word)

theorem foldl_addArg_exec (words argv : List (List UInt8)) :
    words.foldl Cmd.addArg (.exec argv) = .exec (argv ++ words) := by
  induction words generalizing argv with
  | nil => rw [List.append_nil, List.foldl_nil]
  | cons word words ih =>
    rw [List.foldl_cons, Cmd.addArg, ih, List.append_assoc]
    rfl

theorem foldl_put (items : List Item) (ret : Cmd) :
    items.foldl Item.put ret = (redirs items).foldl (fun cmd r => redircmd cmd r.2 r.1)
    ((args items).foldl Cmd.addArg ret) := by
  induction items generalizing ret with
  | nil => rfl
  | cons item items ih =>
    cases item with
    | word text => exact ih (ret.addArg text)
    | input file => exact (ih (redircmd ret file LT)).trans (by rw [foldl_addArg_redircmd]; rfl)
    | output file => exact (ih (redircmd ret file GT)).trans (by rw [foldl_addArg_redircmd]; rfl)

theorem foldl_put_exec (items : List Item) : items.foldl Item.put (.exec []) = tree items := by
  rw [foldl_put, foldl_addArg_exec]
  rfl

def AtEnd (ts : List Token) : Prop := ts = [] ∨ ∃ rest, ts = .bar :: rest

theorem segment_items (items : List Item) (argc : ℕ) (ret : Cmd) (hts : AtEnd ts)
    (hargs : argc + (args items).length < MAXARGS) :
    segment argc ret (items.flatMap Item.tokens ++ ts) = .ok (items.foldl Item.put ret, ts) := by
  induction items generalizing argc ret with
  | nil =>
    cases hts with
    | inl h =>
      subst h
      rfl
    | inr h =>
      obtain ⟨rest, rfl⟩ := h
      rfl
  | cons item items ih =>
    cases item with
    | word text =>
      have hlen : (args (.word text :: items)).length = (args items).length + 1 := rfl
      change segment argc ret (.word text :: (items.flatMap Item.tokens ++ ts)) = _
      rw [segment, if_neg (by omega)]
      exact ih (argc + 1) (ret.addArg text) (by omega)
    | input file => exact ih argc (redircmd ret file LT) hargs
    | output file => exact ih argc (redircmd ret file GT) hargs

theorem items_of_segment {ret cmd : Cmd} {rest : List Token} (hargc : argc < MAXARGS)
    (h : segment argc ret ts = .ok (cmd, rest)) :
    ∃ items : List Item, ts = items.flatMap Item.tokens ++ rest ∧ AtEnd rest ∧
      argc + (args items).length < MAXARGS ∧ cmd = items.foldl Item.put ret := by
  fun_induction segment argc ret ts with
  | case1 argc ret =>
    cases h
    exact ⟨[], rfl, .inl rfl, hargc, rfl⟩
  | case2 argc ret ts =>
    cases h
    exact ⟨[], rfl, .inr ⟨ts, rfl⟩, hargc, rfl⟩
  | case3 argc ret text ts hmany => cases h
  | case4 argc ret text ts hmany ih =>
    obtain ⟨items, hts, hend, hargs, hcmd⟩ := ih (by omega) h
    refine ⟨.word text :: items, by rw [hts]; rfl, hend, ?_, hcmd⟩
    have hlen : (args (.word text :: items)).length = (args items).length + 1 := rfl
    omega
  | case5 argc ret file ts ih =>
    obtain ⟨items, hts, hend, hargs, hcmd⟩ := ih hargc h
    exact ⟨.input file :: items, by rw [hts]; rfl, hend, hargs, hcmd⟩
  | case6 argc ret file ts ih =>
    obtain ⟨items, hts, hend, hargs, hcmd⟩ := ih hargc h
    exact ⟨.output file :: items, by rw [hts]; rfl, hend, hargs, hcmd⟩
  | case7 => cases h
  | case8 => cases h

theorem error_of_segment {ret : Cmd} {e : Error}
    (h : segment argc ret ts = .error e) : e = .missingFile ∨ e = .tooManyArgs := by
  fun_induction segment argc ret ts with
  | case1 => cases h
  | case2 => cases h
  | case3 =>
    cases h
    exact .inr rfl
  | case4 argc ret text ts hmany ih => exact ih h
  | case5 argc ret file ts ih => exact ih h
  | case6 argc ret file ts ih => exact ih h
  | case7 =>
    cases h
    exact .inl rfl
  | case8 =>
    cases h
    exact .inl rfl

/-! ### The lines -/

theorem items_of_parseexec {cmd : Cmd} (h : parseexec s = .ok (cmd, r)) :
    ∃ items : List Item, tokens s = items.flatMap Item.tokens ++ tokens r ∧ AtEnd (tokens r) ∧
      (args items).length < MAXARGS ∧ cmd = tree items := by
  have hspec := parseexec_spec s
  rw [h] at hspec
  obtain ⟨items, hts, hend, hargs, hcmd⟩ := items_of_segment (by decide) hspec.symm
  rw [foldl_put_exec] at hcmd
  rw [Nat.zero_add] at hargs
  exact ⟨items, hts, hend, hargs, hcmd⟩

theorem parseexec_items (items : List Item) (ts : List Token)
    (hs : tokens s = items.flatMap Item.tokens ++ ts) (hts : AtEnd ts) (hargs : (args items).length < MAXARGS) :
    ∃ r, parseexec s = .ok (tree items, r) ∧ tokens r = ts := by
  have hspec := parseexec_spec s
  rw [hs, segment_items items 0 (.exec []) hts (by omega), foldl_put_exec] at hspec
  cases hrun : parseexec s with
  | error e =>
    rw [hrun] at hspec
    cases hspec
  | ok p =>
    rw [hrun] at hspec
    obtain ⟨cmd, r⟩ := p
    cases hspec
    exact ⟨r, rfl, rfl⟩

theorem error_of_parseexec {e : Error} (h : parseexec s = .error e) :
    e = .missingFile ∨ e = .tooManyArgs := by
  have hspec := parseexec_spec s
  rw [h] at hspec
  exact error_of_segment hspec.symm

theorem tokens_behind_bar (h : (peek s [BAR]).1 = true) :
    tokens s = .bar :: tokens (gettoken (peek s [BAR]).2).ps := by
  obtain ⟨ts, hts⟩ := (peek_bar_iff s).mp h
  rw [(gettoken_of_cons ((tokens_peek s _).trans hts)).2.1, hts]

theorem line_of_parsepipe {cmd : Cmd} (h : parsepipe s = .ok (cmd, r)) :
    tokens r = [] ∧ ∃ items rest, tokens s = lineTokens items rest ∧
      (∀ x ∈ items :: rest, (args x).length ≤ MAXARGS - 1) ∧ cmd = lineTree items rest := by
  fun_induction parsepipe s generalizing cmd r with
  | case1 s e hexec => cases h
  | case2 s left s₁ hexec hpeek ih =>
    obtain ⟨⟨right, s₂⟩, hright, hret⟩ := bind_eq_ok h
    cases hret
    obtain ⟨hr, items', rest', hs', hargs', hright'⟩ := ih hright
    obtain ⟨items, hs, -, hargs, hleft⟩ := items_of_parseexec hexec
    refine ⟨hr, items, items' :: rest', ?_, ?_, ?_⟩
    · rw [hs, tokens_behind_bar hpeek, hs']
      simp [lineTokens]
    · intro x hx
      cases List.mem_cons.mp hx with
      | inl h =>
        subst h
        omega
      | inr h => exact hargs' x h
    · rw [lineTree, hleft, hright']
  | case3 s left s₁ hexec hpeek =>
    cases h
    obtain ⟨items, hs, hend, hargs, hleft⟩ := items_of_parseexec hexec
    have hnil : tokens s₁ = [] := by
      cases hend with
      | inl h => exact h
      | inr h => exact absurd ((peek_bar_iff s₁).mpr h) hpeek
    refine ⟨(tokens_peek s₁ _).trans hnil, items, [], ?_, ?_, hleft⟩
    · rw [hs, hnil]
      simp [lineTokens]
    · intro x hx
      rw [List.mem_singleton.mp hx]
      omega

theorem parsepipe_line (items : List Item) (rest : List (List Item))
    (hs : tokens s = lineTokens items rest) (hargs : ∀ x ∈ items :: rest, (args x).length ≤ MAXARGS - 1) :
    ∃ r, parsepipe s = .ok (lineTree items rest, r) := by
  have hfirst : (args items).length < MAXARGS := Nat.lt_succ_of_le (hargs items List.mem_cons_self)
  induction rest generalizing items s with
  | nil =>
    obtain ⟨r, hexec, hr⟩ := parseexec_items items [] (by simpa [lineTokens] using hs) (.inl rfl) hfirst
    refine ⟨(peek r [BAR]).2, ?_⟩
    rw [parsepipe]
    split
    · next heq =>
        rw [hexec] at heq
        cases heq
    · next heq =>
        rw [hexec] at heq
        cases heq
        rw [dif_neg (by simp [peek_of_nil hr])]
        rfl
  | cons next rest ih =>
    obtain ⟨r, hexec, hr⟩ := parseexec_items items (.bar :: lineTokens next rest)
      (by simpa [lineTokens] using hs) (.inr ⟨_, rfl⟩) hfirst
    have hpeek : (peek r [BAR]).1 = true := (peek_bar_iff r).mpr ⟨_, hr⟩
    have hbehind := tokens_behind_bar hpeek
    rw [hr] at hbehind
    have hnext : (args next).length < MAXARGS :=
      Nat.lt_succ_of_le (hargs next (List.mem_cons_of_mem _ List.mem_cons_self))
    obtain ⟨r', hright⟩ := ih next (List.cons.inj hbehind).2.symm
      (fun x hx => hargs x (List.mem_cons_of_mem _ hx)) hnext
    refine ⟨r', ?_⟩
    rw [parsepipe]
    split
    · next heq =>
        rw [hexec] at heq
        cases heq
    · next heq =>
        rw [hexec] at heq
        cases heq
        rw [dif_pos hpeek, hright]
        rfl

theorem error_of_parsepipe {e : Error} (h : parsepipe s = .error e) :
    e = .missingFile ∨ e = .tooManyArgs := by
  fun_induction parsepipe s with
  | case1 s e' hexec =>
    cases h
    exact error_of_parseexec hexec
  | case2 s left s₁ hexec hpeek ih =>
    cases hright : parsepipe (gettoken (peek s₁ [BAR]).2).ps with
    | error e' =>
      rw [hright] at h
      cases h
      exact ih hright
    | ok p =>
      rw [hright] at h
      cases h
  | case3 s left s₁ hexec hpeek => cases h

theorem parsecmd_eq (s : List UInt8) : parsecmd s = (parsepipe (cstring s)).map Prod.fst := by
  unfold parsecmd parseline
  cases h : parsepipe (cstring s) with
  | error e => rfl
  | ok p =>
    obtain ⟨cmd, r⟩ := p
    have hr : skip r = [] := (tokens_eq_nil_iff r).mp (line_of_parsepipe h).1
    rw [ok_bind]
    dsimp only
    rw [peek_snd, hr, if_neg (by simp)]
    rfl

theorem cstring_of_no_zero (h : 0 ∉ s) : cstring s = s := by
  have happend := cstring_append h []
  rwa [List.append_nil, show cstring [] = [] from rfl, List.append_nil] at happend

/-- For every line without a zero byte: `parsecmd` returns a tree exactly when the tokens of the line are
segments of words and redirections between bars, with at most `MAXARGS - 1` words in each, and the tree is
that of the segments; and it never finds leftovers. -/
theorem parsecmd_iff (line : List UInt8) (hline : 0 ∉ line) :
    (∀ cmd, parsecmd line = .ok cmd ↔ ∃ items rest, tokens line = lineTokens items rest ∧
      (∀ x ∈ items :: rest, (args x).length ≤ MAXARGS - 1) ∧ cmd = lineTree items rest) ∧
    ∀ s, parsecmd line ≠ .error (.leftovers s) := by
  rw [parsecmd_eq, cstring_of_no_zero hline]
  refine ⟨fun cmd => ⟨fun h => ?_, fun h => ?_⟩, fun s h => ?_⟩
  · cases hrun : parsepipe line with
    | error e =>
      rw [hrun] at h
      cases h
    | ok p =>
      rw [hrun] at h
      cases h
      exact (line_of_parsepipe hrun).2
  · obtain ⟨items, rest, hs, hargs, rfl⟩ := h
    obtain ⟨r, hrun⟩ := parsepipe_line items rest hs hargs
    rw [hrun]
    rfl
  · cases hrun : parsepipe line with
    | error e =>
      rw [hrun] at h
      cases h
      cases error_of_parsepipe hrun with
      | inl h => cases h
      | inr h => cases h
    | ok p =>
      rw [hrun] at h
      cases h

def sample : List UInt8 := [97, 62, 98, 124, 99]

theorem tokens_sample : tokens sample = lineTokens [.word [97], .output [98]] [[.word [99]]] := by
  simp [sample, tokens, lineTokens, Item.tokens, whitespace, isWord, symbols, BAR, LT, GT]

theorem parsecmd_iff_sample :
    parsecmd sample = .ok (.pipe (.redir (.exec [[97]]) [98] .wronlyCreatTrunc 1) (.exec [[99]])) := by
  refine ((parsecmd_iff sample (by decide)).1 _).mpr ⟨_, _, tokens_sample, ?_, rfl⟩
  decide

end Laboratorio.Sh
