import Xv6.Shell.Parse

/-!
# The grammar of commands

    line  := pipe '&'* [';' line]
    pipe  := exec ['|' pipe]
    exec  := '(' line ')' redir* | redir* (word redir*)*
    redir := ('<' | '>' | '>>') word

over the tokens of a string (`lex`), with at most `MAXARGS - 1` words in an exec.
A derivation says which command its tokens stand for (`Derives`).

The parser is first looked at on tokens: the functions below are those of
`Xv6.Shell.Parse` with a list of tokens in place of the cursor.  On tokens the
parser and the grammar agree, both ways.

## Main definitions

* `Tok`, `lex` — tokens, and those of a string.
* `Derives` — the grammar.
* `lineToks`, `pipeToks`, `execToks`, `blockToks`, `redirsToks` — the parser on tokens.

## Main results

* `sound` — what the parser accepts, the grammar derives.
* `complete` — what the grammar derives, the parser accepts, and it returns the command of the
  derivation.
* `settles` — with rounds enough, the parser returns or panics.
-/

namespace Xv6.Shell

/-! ### Tokens -/

inductive Tok where
  | bar
  | lpar
  | rpar
  | semi
  | amp
  | lt
  | gt
  /-- `>>`. -/
  | append
  | word (w : Word)
  deriving DecidableEq

def isWhite (c : UInt8) : Bool := c ∈ whitespace

/-- Neither whitespace nor a symbol. -/
def isWord (c : UInt8) : Bool := c ∉ whitespace ∧ c ∉ symbols

/-- The first token of a string that does not start with whitespace, and what follows it. -/
def lexOne : Word → Option (Tok × Word)
  | [] => none
  | c :: cs =>
      if c = chr '|' then some (.bar, cs)
      else if c = chr '(' then some (.lpar, cs)
      else if c = chr ')' then some (.rpar, cs)
      else if c = chr ';' then some (.semi, cs)
      else if c = chr '&' then some (.amp, cs)
      else if c = chr '<' then some (.lt, cs)
      else if c = chr '>' then
        if cs.head? = some (chr '>') then some (.append, cs.tail) else some (.gt, cs)
      else some (.word (c :: cs.takeWhile isWord), cs.dropWhile isWord)

theorem lexOne_length {l rest : Word} {t : Tok} (h : lexOne l = some (t, rest)) :
    rest.length < l.length := by
  cases l with
  | nil => cases h
  | cons c cs =>
    have htail : cs.tail.length ≤ cs.length := by simp
    have hdrop : (cs.dropWhile isWord).length ≤ cs.length :=
      (List.dropWhile_suffix isWord).length_le
    rw [List.length_cons]
    simp only [lexOne] at h
    split_ifs at h <;> cases h <;> omega

/-- The tokens of a string. -/
def lex (l : Word) : List Tok :=
  match _h : lexOne (l.dropWhile isWhite) with
  | none => []
  | some (t, rest) => t :: lex rest
termination_by l.length
decreasing_by
  have := lexOne_length _h
  have : (l.dropWhile isWhite).length ≤ l.length := (List.dropWhile_suffix isWhite).length_le
  omega

/-! ### The grammar -/

/-- A redirection: the file, the mode of `open` and the descriptor. -/
structure Redir where
  file : Word
  mode : ℕ
  fd : ℕ

/-- The redirections around a command, the first one innermost. -/
def Cmd.wrap (c : Cmd) (rs : List Redir) : Cmd :=
  rs.foldl (fun c r => .redir c r.file r.mode r.fd) c

/-- `n` times in the background. -/
def Cmd.backs (c : Cmd) : ℕ → Cmd
  | 0 => c
  | n + 1 => .back (c.backs n)

/-- The mode and the descriptor of a redirection. -/
def Tok.redir? : Tok → Option (ℕ × ℕ)
  | .lt => some (O_RDONLY, 0)
  | .gt => some (O_WRONLY ||| O_CREATE ||| O_TRUNC, 1)
  | .append => some (O_WRONLY ||| O_CREATE, 1)
  | _ => none

/-- `redir*`. -/
inductive Redirs : List Tok → List Redir → Prop where
  | nil : Redirs [] []
  | cons {t : Tok} {w : Word} {mode fd : ℕ} {ts : List Tok} {rs : List Redir}
      (ht : t.redir? = some (mode, fd)) (h : Redirs ts rs) :
      Redirs (t :: .word w :: ts) (⟨w, mode, fd⟩ :: rs)

/-- `(word redir*)*`. -/
inductive Args : List Tok → List Word → List Redir → Prop where
  | nil : Args [] [] []
  | cons {w : Word} {ts ts' : List Tok} {ws : List Word} {rs rs' : List Redir}
      (h : Redirs ts rs) (h' : Args ts' ws rs') :
      Args (.word w :: (ts ++ ts')) (w :: ws) (rs ++ rs')

inductive Nonterminal where
  | line
  | pipe
  | exec

/-- The tokens are derived from a nonterminal, and stand for a command. -/
inductive Derives : Nonterminal → List Tok → Cmd → Prop where
  | line {ts : List Tok} {c : Cmd} {n : ℕ} (h : Derives .pipe ts c) :
      Derives .line (ts ++ List.replicate n .amp) (c.backs n)
  | list {ts ts' : List Tok} {c c' : Cmd} {n : ℕ} (h : Derives .pipe ts c)
      (h' : Derives .line ts' c') :
      Derives .line (ts ++ (List.replicate n .amp ++ .semi :: ts')) (.list (c.backs n) c')
  | single {ts : List Tok} {c : Cmd} (h : Derives .exec ts c) : Derives .pipe ts c
  | pipe {ts ts' : List Tok} {c c' : Cmd} (h : Derives .exec ts c) (h' : Derives .pipe ts' c') :
      Derives .pipe (ts ++ .bar :: ts') (.pipe c c')
  | block {ts ts' : List Tok} {c : Cmd} {rs : List Redir} (h : Derives .line ts c)
      (h' : Redirs ts' rs) : Derives .exec (.lpar :: (ts ++ .rpar :: ts')) (c.wrap rs)
  | simple {ts ts' : List Tok} {ws : List Word} {rs rs' : List Redir} (h : Redirs ts rs)
      (h' : Args ts' ws rs') (hargs : ws.length ≤ MAXARGS - 1) :
      Derives .exec (ts ++ ts') ((Cmd.exec ws).wrap (rs ++ rs'))

variable {rs : List Redir}

theorem Cmd.Standard.wrap {c : Cmd} (hc : c.Standard) (hrs : ∀ r ∈ rs, r.fd < 3) :
    (c.wrap rs).Standard := by
  induction rs generalizing c with
  | nil => exact hc
  | cons r rs ih =>
    have hfirst : Cmd.Standard (.redir c r.file r.mode r.fd) := ⟨hrs r List.mem_cons_self, hc⟩
    exact ih hfirst fun r' hr' => hrs r' (List.mem_cons_of_mem _ hr')

theorem Cmd.Standard.backs {c : Cmd} (hc : c.Standard) (n : ℕ) : (c.backs n).Standard := by
  induction n with
  | zero => exact hc
  | succ n ih => exact ih

variable {ts : List Tok}

theorem Redirs.standard (h : Redirs ts rs) : ∀ r ∈ rs, r.fd < 3 := by
  induction h with
  | nil => nofun
  | @cons t w mode fd ts rs ht h ih =>
    intro r hr
    rcases List.mem_cons.mp hr with rfl | hr
    · show fd < 3
      cases t <;> cases ht <;> decide
    · exact ih r hr

variable {ws : List Word}

theorem Args.standard (h : Args ts ws rs) : ∀ r ∈ rs, r.fd < 3 := by
  induction h with
  | nil => nofun
  | cons h _ ih =>
    intro r hr
    exact (List.mem_append.mp hr).elim (h.standard r) (ih r)

variable {N : Nonterminal}

theorem Derives.standard {c : Cmd} (h : Derives N ts c) : c.Standard := by
  induction h with
  | line _ ih => exact ih.backs _
  | list _ _ ih ih' => exact ⟨ih.backs _, ih'⟩
  | single _ ih => exact ih
  | pipe _ _ ih ih' => exact ⟨ih, ih'⟩
  | block _ h' ih => exact ih.wrap h'.standard
  | @simple ts ts' ws rs rs' h h' hargs =>
    have hc : (Cmd.exec ws).Standard := trivial
    exact hc.wrap fun r hr => (List.mem_append.mp hr).elim (h.standard r) (h'.standard r)

/-! ### The parser on tokens -/

/-- What `gettoken` returns. -/
def Tok.code : Tok → UInt8
  | .bar => chr '|'
  | .lpar => chr '('
  | .rpar => chr ')'
  | .semi => chr ';'
  | .amp => chr '&'
  | .lt => chr '<'
  | .gt => chr '>'
  | .append => chr '+'
  | .word _ => chr 'a'

/-- The byte `peek` looks at, or any that is not a symbol. -/
def Tok.first : Tok → UInt8
  | .append => chr '>'
  | t => t.code

/-- The bytes of a word. -/
def Tok.text : Tok → Word
  | .word w => w
  | _ => []

def peekToks (ts : List Tok) (toks : List UInt8) : Bool :=
  match ts with
  | [] => false
  | t :: _ => t.first ∈ toks

def Cmd.pushArg (w : Word) : Cmd → Cmd
  | .exec argv => .exec (argv ++ [w])
  | .redir cmd file mode fd => .redir (cmd.pushArg w) file mode fd
  | c => c

/-- What `gettoken` returns, and the bytes of the word. -/
def headTok : List Tok → UInt8 × Word
  | [] => (0, [])
  | t :: _ => (t.code, t.text)

def redirsToks : ℕ → Cmd → List Tok → P (Cmd × List Tok)
  | 0, _, _ => .error .rounds
  | n + 1, cmd, ts =>
      if peekToks ts [chr '<', chr '>'] then
        if (headTok ts.tail).1 ≠ chr 'a' then .error (.panic "missing file for redirection")
        else
          let cmd := match redirection (headTok ts).1 with
            | some (mode, fd) => .redir cmd (headTok ts.tail).2 mode fd
            | none => cmd
          redirsToks n cmd ts.tail.tail
      else .ok (cmd, ts)

def argsToks : ℕ → Cmd → ℕ → List Tok → P (Cmd × List Tok)
  | 0, _, _, _ => .error .rounds
  | n + 1, ret, argc, ts =>
      if peekToks ts [chr '|', chr ')', chr '&', chr ';'] then .ok (ret, ts)
      else if (headTok ts).1 = 0 then .ok (ret, ts.tail)
      else if (headTok ts).1 ≠ chr 'a' then .error (.panic "syntax")
      else if argc + 1 ≥ MAXARGS then .error (.panic "too many args")
      else do
        let (ret, ts) ← redirsToks n (ret.pushArg (headTok ts).2) ts.tail
        argsToks n ret (argc + 1) ts

def backToks : ℕ → Cmd → List Tok → P (Cmd × List Tok)
  | 0, _, _ => .error .rounds
  | n + 1, cmd, ts =>
      if peekToks ts [chr '&'] then backToks n (.back cmd) ts.tail else .ok (cmd, ts)

mutual

def lineToks : ℕ → List Tok → P (Cmd × List Tok)
  | 0, _ => .error .rounds
  | n + 1, ts => do
      let (cmd, ts) ← pipeToks n ts
      let (cmd, ts) ← backToks n cmd ts
      if peekToks ts [chr ';'] then
        let (right, ts) ← lineToks n ts.tail
        return (.list cmd right, ts)
      else return (cmd, ts)

def pipeToks : ℕ → List Tok → P (Cmd × List Tok)
  | 0, _ => .error .rounds
  | n + 1, ts => do
      let (cmd, ts) ← execToks n ts
      if peekToks ts [chr '|'] then
        let (right, ts) ← pipeToks n ts.tail
        return (.pipe cmd right, ts)
      else return (cmd, ts)

def execToks : ℕ → List Tok → P (Cmd × List Tok)
  | 0, _ => .error .rounds
  | n + 1, ts =>
      if peekToks ts [chr '('] then blockToks n ts
      else do
        let (ret, ts) ← redirsToks n (.exec []) ts
        argsToks n ret 0 ts

def blockToks : ℕ → List Tok → P (Cmd × List Tok)
  | 0, _ => .error .rounds
  | n + 1, ts =>
      if peekToks ts [chr '('] then do
        let (cmd, ts) ← lineToks n ts.tail
        if peekToks ts [chr ')'] then redirsToks n cmd ts.tail
        else .error (.panic "syntax - missing )")
      else .error (.panic "parseblock")

end

/-! ### Looking at the first token -/

variable {ts rest : List Tok} {n : ℕ} {c c' : Cmd}

theorem first_eq_code {t t' : Tok} (ht : t ∈ [Tok.bar, .lpar, .rpar, .semi, .amp]) :
    t'.first = t.code ↔ t' = t := by
  simp only [List.mem_cons, List.not_mem_nil, or_false] at ht
  cases t' with
  | word w =>
    have hw : (Tok.word w).first = chr 'a' := rfl
    rw [hw]
    rcases ht with rfl | rfl | rfl | rfl | rfl <;> exact iff_of_false (by decide) nofun
  | _ => rcases ht with rfl | rfl | rfl | rfl | rfl <;> decide

theorem peekToks_iff (t : Tok) (ht : t ∈ [Tok.bar, .lpar, .rpar, .semi, .amp]) :
    peekToks ts [t.code] = true ↔ ∃ ts', ts = t :: ts' := by
  cases ts with
  | nil => simp [peekToks]
  | cons t' ts => simp [peekToks, first_eq_code ht]

theorem peekToks_amp : peekToks ts [chr '&'] = true ↔ ∃ ts', ts = .amp :: ts' :=
  peekToks_iff .amp (by decide)

theorem peekToks_semi : peekToks ts [chr ';'] = true ↔ ∃ ts', ts = .semi :: ts' :=
  peekToks_iff .semi (by decide)

theorem peekToks_bar : peekToks ts [chr '|'] = true ↔ ∃ ts', ts = .bar :: ts' :=
  peekToks_iff .bar (by decide)

theorem peekToks_lpar : peekToks ts [chr '('] = true ↔ ∃ ts', ts = .lpar :: ts' :=
  peekToks_iff .lpar (by decide)

theorem peekToks_rpar : peekToks ts [chr ')'] = true ↔ ∃ ts', ts = .rpar :: ts' :=
  peekToks_iff .rpar (by decide)

theorem peekToks_redir :
    peekToks ts [chr '<', chr '>'] = true ↔ ∃ t ts' md, ts = t :: ts' ∧ t.redir? = some md := by
  cases ts with
  | nil => simp [peekToks]
  | cons t ts =>
    have hkind : t.first ∈ [chr '<', chr '>'] ↔ ∃ md, t.redir? = some md := by
      cases t with
      | word w => exact iff_of_false (by show chr 'a' ∉ _; decide) nofun
      | lt => exact iff_of_true (by decide) ⟨_, rfl⟩
      | gt => exact iff_of_true (by decide) ⟨_, rfl⟩
      | append => exact iff_of_true (by decide) ⟨_, rfl⟩
      | _ => exact iff_of_false (by decide) nofun
    rw [peekToks, decide_eq_true_iff, hkind]
    constructor
    · rintro ⟨md, hmd⟩
      exact ⟨t, ts, md, rfl, hmd⟩
    · rintro ⟨_, _, md, heq, hmd⟩
      cases heq
      exact ⟨md, hmd⟩

/-- The tokens at which `parseexec` stops. -/
def Tok.stops (t : Tok) : Bool := t ∈ [Tok.bar, .rpar, .amp, .semi]

theorem peekToks_stop :
    peekToks ts [chr '|', chr ')', chr '&', chr ';'] = true ↔ ∃ t ts', ts = t :: ts' ∧ t.stops := by
  cases ts with
  | nil => simp [peekToks]
  | cons t ts =>
    have hkind : t.first ∈ [chr '|', chr ')', chr '&', chr ';'] ↔ t.stops = true := by
      cases t with
      | word w => exact iff_of_false (by show chr 'a' ∉ _; decide) (by simp [Tok.stops])
      | _ => decide
    rw [peekToks, decide_eq_true_iff, hkind]
    constructor
    · intro hs
      exact ⟨t, ts, rfl, hs⟩
    · rintro ⟨_, _, heq, hs⟩
      cases heq
      exact hs

@[simp] theorem headTok_cons (t : Tok) (ts : List Tok) : headTok (t :: ts) = (t.code, t.text) := rfl

theorem headTok_zero : (headTok ts).1 = 0 ↔ ts = [] := by
  cases ts with
  | nil => exact iff_of_true rfl rfl
  | cons t ts =>
    rw [headTok_cons]
    cases t with
    | word w => exact iff_of_false (show chr 'a' ≠ 0 by decide) nofun
    | _ => exact iff_of_false (by decide) nofun

theorem headTok_word : (headTok ts).1 = chr 'a' ↔ ∃ w ts', ts = .word w :: ts' := by
  cases ts with
  | nil => exact iff_of_false (by decide) nofun
  | cons t ts =>
    rw [headTok_cons]
    cases t with
    | word w => exact iff_of_true rfl ⟨w, ts, rfl⟩
    | _ => exact iff_of_false (by decide) nofun

theorem redirection_code (t : Tok) : redirection t.code = t.redir? := by
  cases t with
  | word w => exact show redirection (chr 'a') = none by decide
  | _ => decide

/-! ### Redirections and arguments -/

theorem Cmd.wrap_append (c : Cmd) (rs rs' : List Redir) :
    c.wrap (rs ++ rs') = (c.wrap rs).wrap rs' := by
  unfold Cmd.wrap
  rw [List.foldl_append]

theorem Cmd.pushArg_wrap (ws : List Word) (rs : List Redir) (w : Word) :
    ((Cmd.exec ws).wrap rs).pushArg w = (Cmd.exec (ws ++ [w])).wrap rs := by
  induction rs using List.reverseRecOn with
  | nil => rfl
  | append_singleton rs r ih =>
    rw [Cmd.wrap_append, Cmd.wrap_append, ← ih]
    rfl

theorem redirsToks_cons {t : Tok} {w : Word} {mode fd : ℕ} (ht : t.redir? = some (mode, fd)) :
    redirsToks (n + 1) c (t :: .word w :: ts) = redirsToks n (.redir c w mode fd) ts := by
  rw [redirsToks, if_pos (peekToks_redir.mpr ⟨t, _, _, rfl, ht⟩)]
  have hcode : redirection (headTok (t :: .word w :: ts)).1 = some (mode, fd) :=
    (redirection_code t).trans ht
  rw [List.tail_cons, if_neg (not_not.mpr (headTok_word.mpr ⟨w, ts, rfl⟩)), hcode]
  rfl

theorem redirsToks_sound (h : redirsToks n c ts = .ok (c', rest)) :
    ∃ pre rs, ts = pre ++ rest ∧ Redirs pre rs ∧ c' = c.wrap rs := by
  induction n generalizing c ts with
  | zero => cases h
  | succ n ih =>
    by_cases hp : peekToks ts [chr '<', chr '>'] = true
    · obtain ⟨t, ts', ⟨mode, fd⟩, rfl, ht⟩ := peekToks_redir.mp hp
      by_cases hw : (headTok ts').1 = chr 'a'
      · obtain ⟨w, ts'', rfl⟩ := headTok_word.mp hw
        rw [redirsToks_cons ht] at h
        obtain ⟨pre, rs, rfl, hr, rfl⟩ := ih h
        exact ⟨_, _, rfl, .cons ht hr, rfl⟩
      · rw [redirsToks, if_pos hp, List.tail_cons, if_pos hw] at h
        cases h
    · rw [redirsToks, if_neg hp] at h
      cases h
      exact ⟨[], [], rfl, .nil, rfl⟩

variable {pre : List Tok}

theorem redirsToks_complete (h : Redirs pre rs)
    (hrest : peekToks rest [chr '<', chr '>'] = false) (hn : pre.length < n) :
    redirsToks n c (pre ++ rest) = .ok (c.wrap rs, rest) := by
  induction h generalizing c n with
  | nil =>
    obtain ⟨m, rfl⟩ : ∃ m, n = m + 1 := ⟨n - 1, by simp at hn; omega⟩
    rw [List.nil_append, redirsToks, if_neg (by rw [hrest]; exact Bool.false_ne_true)]
    rfl
  | @cons t w mode fd ts rs ht h ih =>
    simp only [List.length_cons] at hn
    obtain ⟨m, rfl⟩ : ∃ m, n = m + 1 := ⟨n - 1, by omega⟩
    rw [List.cons_append, List.cons_append, redirsToks_cons ht, ih (by omega)]
    rfl

variable {α β : Type}

theorem ok_bind (a : α) (f : α → P β) : ((.ok a : P α) >>= f) = f a := rfl

theorem ok_of_bind {x : P α} {f : α → P β} {b : β} (h : (x >>= f) = .ok b) :
    ∃ a, x = .ok a ∧ f a = .ok b := by
  cases x with
  | error e => cases h
  | ok a => exact ⟨a, rfl, h⟩

/-- One more argument. -/
theorem argsToks_word {w : Word} (hlen : ws.length + 1 < MAXARGS) :
    argsToks (n + 1) ((Cmd.exec ws).wrap rs) ws.length (.word w :: ts) =
      (redirsToks n ((Cmd.exec (ws ++ [w])).wrap rs) ts >>= fun r =>
        argsToks n r.1 (ws ++ [w]).length r.2) := by
  have hstop : peekToks (.word w :: ts) [chr '|', chr ')', chr '&', chr ';'] ≠ true :=
    show decide (chr 'a' ∈ [chr '|', chr ')', chr '&', chr ';']) ≠ true by decide
  have hzero : (headTok (.word w :: ts)).1 ≠ 0 := fun h => nomatch headTok_zero.mp h
  have hword : (headTok (.word w :: ts)).1 = chr 'a' := rfl
  rw [argsToks, if_neg hstop, if_neg hzero, if_neg (not_not.mpr hword), if_neg (by omega),
    List.length_append]
  have harg : (headTok (.word w :: ts)).2 = w := rfl
  rw [harg, Cmd.pushArg_wrap]
  rfl

theorem argsToks_sound (hws : ws.length < MAXARGS)
    (h : argsToks n ((Cmd.exec ws).wrap rs) ws.length ts = .ok (c', rest)) :
    ∃ pre ws' rs', ts = pre ++ rest ∧ Args pre ws' rs' ∧
      c' = (Cmd.exec (ws ++ ws')).wrap (rs ++ rs') ∧ (ws ++ ws').length < MAXARGS := by
  induction n generalizing ts ws rs with
  | zero => cases h
  | succ n ih =>
    by_cases hstop : peekToks ts [chr '|', chr ')', chr '&', chr ';'] = true
    · rw [argsToks, if_pos hstop] at h
      cases h
      exact ⟨[], [], [], rfl, .nil, by simp, by simpa using hws⟩
    by_cases hzero : (headTok ts).1 = 0
    · rw [argsToks, if_neg hstop, if_pos hzero] at h
      cases h
      rw [headTok_zero.mp hzero]
      exact ⟨[], [], [], rfl, .nil, by simp, by simpa using hws⟩
    by_cases hword : (headTok ts).1 = chr 'a'
    · obtain ⟨w, ts, rfl⟩ := headTok_word.mp hword
      by_cases hlen : ws.length + 1 < MAXARGS
      · rw [argsToks_word hlen] at h
        -- a word, the redirections behind it, and the rest
        obtain ⟨⟨c1, ts1⟩, h1, h2⟩ := ok_of_bind h
        obtain ⟨pre1, rs1, rfl, hr, rfl⟩ := redirsToks_sound h1
        rw [← Cmd.wrap_append] at h2
        obtain ⟨pre2, ws2, rs2, rfl, ha, rfl, hlt⟩ := ih (by simpa using hlen) h2
        refine ⟨.word w :: (pre1 ++ pre2), w :: ws2, rs1 ++ rs2, by simp, .cons hr ha, ?_, ?_⟩
        · rw [List.append_assoc, List.append_assoc]
          rfl
        · simpa using hlt
      · rw [argsToks, if_neg hstop, if_neg hzero, if_neg (not_not.mpr hword),
          if_pos (by omega)] at h
        cases h
    · rw [argsToks, if_neg hstop, if_neg hzero, if_pos hword] at h
      cases h

/-- The rest starts with none but these tokens. -/
def StartsIn (rest : List Tok) (allowed : List Tok) : Prop :=
  ∀ t ts, rest = t :: ts → t ∈ allowed

theorem StartsIn.not_redir {allowed : List Tok} (h : StartsIn rest allowed)
    (hall : ∀ t ∈ allowed, t.redir? = none) : peekToks rest [chr '<', chr '>'] = false := by
  by_contra hne
  obtain ⟨t, ts, md, rfl, ht⟩ := peekToks_redir.mp (Bool.eq_true_of_not_eq_false hne)
  rw [hall t (h t ts rfl)] at ht
  cases ht

theorem Args.not_redir (h : Args pre ws rs) (hrest : StartsIn rest [.bar, .rpar, .amp, .semi]) :
    peekToks (pre ++ rest) [chr '<', chr '>'] = false := by
  cases h with
  | nil => exact hrest.not_redir (by decide)
  | cons h h' => rfl

theorem argsToks_complete {ws ws' : List Word} {rs rs' : List Redir}
    (h : Args pre ws' rs') (hrest : StartsIn rest [.bar, .rpar, .amp, .semi])
    (hws : (ws ++ ws').length < MAXARGS) (hn : pre.length < n) :
    argsToks n ((Cmd.exec ws).wrap rs) ws.length (pre ++ rest) =
      .ok ((Cmd.exec (ws ++ ws')).wrap (rs ++ rs'), rest) := by
  induction h generalizing ws rs n with
  | nil =>
    obtain ⟨m, rfl⟩ : ∃ m, n = m + 1 := ⟨n - 1, by simp at hn; omega⟩
    rw [List.nil_append, List.append_nil, List.append_nil, argsToks]
    cases rest with
    | nil => rfl
    | cons t ts =>
      have hstop : peekToks (t :: ts) [chr '|', chr ')', chr '&', chr ';'] = true :=
        peekToks_stop.mpr ⟨t, ts, rfl, decide_eq_true (hrest t ts rfl)⟩
      rw [if_pos hstop]
  | @cons w ts ts' ws'' rs1 rs2 hr ha ih =>
    simp only [List.length_cons, List.length_append] at hn hws
    obtain ⟨m, rfl⟩ : ∃ m, n = m + 1 := ⟨n - 1, by omega⟩
    rw [List.cons_append, argsToks_word (by omega), List.append_assoc,
      redirsToks_complete hr (ha.not_redir hrest) (by omega)]
    show argsToks m ((((Cmd.exec (ws ++ [w])).wrap rs).wrap rs1)) (ws ++ [w]).length
      (ts' ++ rest) = _
    rw [← Cmd.wrap_append, ih (by simp; omega) (by omega)]
    simp

/-! ### Background commands -/

theorem backToks_sound (h : backToks n c ts = .ok (c', rest)) :
    ∃ k, ts = List.replicate k .amp ++ rest ∧
      ∀ (c0 : Cmd) (j : ℕ), c = c0.backs j → c' = c0.backs (k + j) := by
  induction n generalizing c ts with
  | zero => cases h
  | succ n ih =>
    by_cases hp : peekToks ts [chr '&'] = true
    · obtain ⟨ts', rfl⟩ := peekToks_amp.mp hp
      rw [backToks, if_pos hp] at h
      obtain ⟨k, hk, hback⟩ := ih h
      refine ⟨k + 1, ?_, fun c0 j hj => ?_⟩
      · rw [List.replicate_succ, List.cons_append, ← hk]
        simp only [List.tail_cons]
      · rw [hback c0 (j + 1) (by rw [hj]; rfl)]
        congr 1
        omega
    · rw [backToks, if_neg hp] at h
      cases h
      exact ⟨0, rfl, fun c0 j hj => by rw [hj, Nat.zero_add]⟩

theorem backToks_complete {a : Cmd} {j k : ℕ} (hrest : StartsIn rest [.rpar, .semi]) (hn : k < n) :
    backToks n (a.backs j) (List.replicate k .amp ++ rest) = .ok (a.backs (k + j), rest) := by
  induction k generalizing n j with
  | zero =>
    obtain ⟨m, rfl⟩ : ∃ m, n = m + 1 := ⟨n - 1, by omega⟩
    have hp : peekToks rest [chr '&'] ≠ true := by
      intro hp
      obtain ⟨ts, rfl⟩ := peekToks_amp.mp hp
      exact absurd (hrest _ _ rfl) (by decide)
    rw [List.replicate_zero, List.nil_append, backToks, if_neg hp, Nat.zero_add]
  | succ k ih =>
    obtain ⟨m, rfl⟩ : ∃ m, n = m + 1 := ⟨n - 1, by omega⟩
    rw [List.replicate_succ, List.cons_append, backToks, if_pos (peekToks_amp.mpr ⟨_, rfl⟩)]
    have hstep := ih (n := m) (j := j + 1) (by omega)
    rwa [show k + 1 + j = k + (j + 1) by omega]

/-! ### What is accepted is derived -/

/-- The parser of a nonterminal. -/
def parseToks : Nonterminal → ℕ → List Tok → P (Cmd × List Tok)
  | .line => lineToks
  | .pipe => pipeToks
  | .exec => execToks

/-- What the parser has accepted, the grammar derives. -/
def Sound (n : ℕ) : Prop :=
  ∀ N ts c rest, parseToks N n ts = .ok (c, rest) → ∃ pre, ts = pre ++ rest ∧ Derives N pre c

variable {n : ℕ}

theorem blockToks_sound (ih : Sound n) (h : blockToks (n + 1) ts = .ok (c, rest)) :
    ∃ pre, ts = pre ++ rest ∧ Derives .exec pre c := by
  by_cases hp : peekToks ts [chr '('] = true
  · obtain ⟨ts, rfl⟩ := peekToks_lpar.mp hp
    rw [blockToks, if_pos hp] at h
    obtain ⟨⟨c1, ts1⟩, h1, h2⟩ := ok_of_bind h
    obtain ⟨pre1, hts, hd⟩ := ih .line _ _ _ h1
    dsimp only at h2
    by_cases hq : peekToks ts1 [chr ')'] = true
    · obtain ⟨ts2, rfl⟩ := peekToks_rpar.mp hq
      rw [if_pos hq] at h2
      obtain ⟨pre2, rs, heq, hr, rfl⟩ := redirsToks_sound h2
      refine ⟨.lpar :: (pre1 ++ .rpar :: pre2), ?_, .block hd hr⟩
      rw [List.tail_cons] at hts heq
      rw [hts, heq]
      simp
    · rw [if_neg hq] at h2
      cases h2
  · rw [blockToks, if_neg hp] at h
    cases h

theorem sound_line (ih : Sound n) (h : lineToks (n + 1) ts = .ok (c, rest)) :
    ∃ pre, ts = pre ++ rest ∧ Derives .line pre c := by
  rw [lineToks] at h
  obtain ⟨⟨c1, ts1⟩, h1, h'⟩ := ok_of_bind h
  obtain ⟨⟨c2, ts2⟩, h2, h''⟩ := ok_of_bind h'
  obtain ⟨pre1, rfl, hd⟩ := ih .pipe _ _ _ h1
  obtain ⟨k, hk, hback⟩ := backToks_sound h2
  have hc2 : c2 = c1.backs k := hback c1 0 rfl
  dsimp only at h'' hk
  by_cases hp : peekToks ts2 [chr ';'] = true
  · obtain ⟨ts3, rfl⟩ := peekToks_semi.mp hp
    rw [if_pos hp] at h''
    obtain ⟨⟨c3, ts4⟩, h3, hret⟩ := ok_of_bind h''
    cases hret
    obtain ⟨pre3, hts, hd'⟩ := ih .line _ _ _ h3
    rw [List.tail_cons] at hts
    refine ⟨pre1 ++ (List.replicate k .amp ++ .semi :: pre3), ?_, ?_⟩
    · rw [hk, hts]
      simp
    · rw [hc2]
      exact .list hd hd'
  · rw [if_neg hp] at h''
    cases h''
    refine ⟨pre1 ++ List.replicate k .amp, ?_, ?_⟩
    · rw [hk, List.append_assoc]
    · rw [hc2]
      exact .line hd

theorem sound_pipe (ih : Sound n) (h : pipeToks (n + 1) ts = .ok (c, rest)) :
    ∃ pre, ts = pre ++ rest ∧ Derives .pipe pre c := by
  rw [pipeToks] at h
  obtain ⟨⟨c1, ts1⟩, h1, h'⟩ := ok_of_bind h
  obtain ⟨pre1, rfl, hd⟩ := ih .exec _ _ _ h1
  dsimp only at h'
  by_cases hp : peekToks ts1 [chr '|'] = true
  · obtain ⟨ts2, rfl⟩ := peekToks_bar.mp hp
    rw [if_pos hp] at h'
    obtain ⟨⟨c2, ts3⟩, h2, hret⟩ := ok_of_bind h'
    cases hret
    obtain ⟨pre2, hts, hd'⟩ := ih .pipe _ _ _ h2
    rw [List.tail_cons] at hts
    refine ⟨pre1 ++ .bar :: pre2, ?_, .pipe hd hd'⟩
    rw [hts]
    simp
  · rw [if_neg hp] at h'
    cases h'
    exact ⟨pre1, rfl, .single hd⟩

theorem sound_exec (ih : ∀ m < n + 1, Sound m) (h : execToks (n + 1) ts = .ok (c, rest)) :
    ∃ pre, ts = pre ++ rest ∧ Derives .exec pre c := by
  by_cases hp : peekToks ts [chr '('] = true
  · rw [execToks, if_pos hp] at h
    cases n with
    | zero => cases h
    | succ n => exact blockToks_sound (ih n (by omega)) h
  · rw [execToks, if_neg hp] at h
    obtain ⟨⟨c1, ts1⟩, h1, h2⟩ := ok_of_bind h
    obtain ⟨pre1, rs1, rfl, hr, rfl⟩ := redirsToks_sound h1
    have hnone : ([] : List Word).length < MAXARGS := by decide
    obtain ⟨pre2, ws, rs2, rfl, ha, rfl, hlen⟩ := argsToks_sound hnone h2
    exact ⟨pre1 ++ pre2, by rw [List.append_assoc], .simple hr ha (Nat.le_pred_of_lt hlen)⟩

/-- **What the parser accepts, the grammar derives**, as the command it returns. -/
theorem sound (n : ℕ) : Sound n := by
  -- on the rounds: a block comes back to lines two calls later
  induction n using Nat.strong_induction_on with
  | _ n ih =>
    cases n with
    | zero =>
      intro N ts c rest h
      cases N <;> cases h
    | succ n =>
      intro N ts c rest h
      cases N with
      | line => exact sound_line (ih n (by omega)) h
      | pipe => exact sound_pipe (ih n (by omega)) h
      | exec => exact sound_exec ih h

/-! ### What is derived is accepted -/

/-- What may follow a nonterminal. -/
def Nonterminal.follow : Nonterminal → List Tok
  | .line => [.rpar]
  | .pipe => [.rpar, .amp, .semi]
  | .exec => [.bar, .rpar, .amp, .semi]

/-- How many calls deep the parser of a nonterminal goes before it takes a token. -/
def Nonterminal.depth : Nonterminal → ℕ
  | .line => 4
  | .pipe => 3
  | .exec => 2

theorem StartsIn.mono {l l' : List Tok} (h : StartsIn rest l) (hl : ∀ t ∈ l, t ∈ l') :
    StartsIn rest l' := fun t ts heq => hl t (h t ts heq)

theorem startsIn_cons {t : Tok} {l : List Tok} (h : t ∈ l) : StartsIn (t :: ts) l := by
  intro t' ts' heq
  cases heq
  exact h

theorem startsIn_amps {k : ℕ} (h : StartsIn rest [.rpar, .semi]) :
    StartsIn (List.replicate k .amp ++ rest) [.rpar, .amp, .semi] := by
  cases k with
  | zero => exact h.mono (by decide)
  | succ k => exact startsIn_cons (by decide)

theorem not_lpar {ts ts' : List Tok} {rs rs' : List Redir} (h : Redirs ts rs)
    (h' : Args ts' ws rs') (hrest : StartsIn rest [.bar, .rpar, .amp, .semi]) :
    peekToks (ts ++ (ts' ++ rest)) [chr '('] ≠ true := by
  intro hp
  obtain ⟨more, heq⟩ := peekToks_lpar.mp hp
  cases h with
  | cons ht h =>
    cases heq
    cases ht
  | nil =>
    cases h' with
    | cons h h' => cases heq
    | nil => exact absurd (hrest _ _ heq) (by decide)

/-- **What the grammar derives, the parser accepts**, and it returns the command of the
derivation and leaves what follows. -/
theorem complete (h : Derives N pre c)
    (hrest : StartsIn rest N.follow) (hn : 4 * pre.length + N.depth ≤ n) :
    parseToks N n (pre ++ rest) = .ok (c, rest) := by
  -- on the derivation; what follows a command tells the parser to stop there
  induction h generalizing n rest with
  | @line ts c k h ih =>
    simp only [List.length_append, List.length_replicate, Nonterminal.depth] at hn ih
    obtain ⟨m, rfl⟩ : ∃ m, n = m + 1 := ⟨n - 1, by omega⟩
    have hafter : StartsIn rest [.rpar, .semi] := hrest.mono (by decide)
    have h1 := ih (n := m) (startsIn_amps (k := k) hafter) (by omega)
    have h2 := backToks_complete (a := c) (j := 0) (n := m) (k := k) hafter (by omega)
    have hsemi : peekToks rest [chr ';'] ≠ true := by
      intro hp
      obtain ⟨ts', rfl⟩ := peekToks_semi.mp hp
      exact absurd (hrest _ _ rfl) (by decide)
    show lineToks (m + 1) _ = _
    rw [lineToks, List.append_assoc, show pipeToks m (ts ++ _) = _ from h1]
    rw [ok_bind]
    dsimp only
    rw [show backToks m c _ = _ from h2]
    exact if_neg hsemi
  | @list ts ts' c c' k h h' ih ih' =>
    simp only [List.length_append, List.length_replicate, List.length_cons,
      Nonterminal.depth] at hn ih ih'
    obtain ⟨m, rfl⟩ : ∃ m, n = m + 1 := ⟨n - 1, by omega⟩
    have hafter : StartsIn (.semi :: (ts' ++ rest)) [.rpar, .semi] := startsIn_cons (by decide)
    have h1 := ih (n := m) (startsIn_amps (k := k) hafter) (by omega)
    have h2 := backToks_complete (a := c) (j := 0) (n := m) (k := k) hafter (by omega)
    have h3 := ih' (n := m) hrest (by omega)
    have hsemi : peekToks (.semi :: (ts' ++ rest)) [chr ';'] = true := peekToks_semi.mpr ⟨_, rfl⟩
    show lineToks (m + 1) _ = _
    rw [lineToks, List.append_assoc, List.append_assoc, List.cons_append, show pipeToks m
      (ts ++ (List.replicate k .amp ++ .semi :: (ts' ++ rest))) = .ok (c, _) from h1]
    rw [ok_bind]
    dsimp only
    rw [show backToks m c _ = _ from h2, ok_bind]
    dsimp only
    rw [if_pos hsemi, List.tail_cons, show lineToks m (ts' ++ rest) = .ok (c', rest) from h3]
    rfl
  | @single ts c h ih =>
    simp only [Nonterminal.depth] at hn ih
    obtain ⟨m, rfl⟩ : ∃ m, n = m + 1 := ⟨n - 1, by omega⟩
    have h1 := ih (n := m) (hrest.mono (by decide)) (by omega)
    have hbar : peekToks rest [chr '|'] ≠ true := by
      intro hp
      obtain ⟨ts', rfl⟩ := peekToks_bar.mp hp
      exact absurd (hrest _ _ rfl) (by decide)
    show pipeToks (m + 1) _ = _
    rw [pipeToks, show execToks m (ts ++ rest) = _ from h1]
    exact if_neg hbar
  | @pipe ts ts' c c' h h' ih ih' =>
    simp only [List.length_append, List.length_cons, Nonterminal.depth] at hn ih ih'
    obtain ⟨m, rfl⟩ : ∃ m, n = m + 1 := ⟨n - 1, by omega⟩
    have hbars : StartsIn (.bar :: (ts' ++ rest)) [.bar, .rpar, .amp, .semi] :=
      startsIn_cons (by decide)
    have h1 := ih (n := m) hbars (by omega)
    have h2 := ih' (n := m) hrest (by omega)
    have hbar : peekToks (.bar :: (ts' ++ rest)) [chr '|'] = true := peekToks_bar.mpr ⟨_, rfl⟩
    show pipeToks (m + 1) _ = _
    rw [pipeToks, List.append_assoc, List.cons_append, show execToks m (ts ++ _) = _ from h1]
    rw [ok_bind]
    dsimp only
    rw [if_pos hbar, List.tail_cons, show pipeToks m (ts' ++ rest) = .ok (c', rest) from h2]
    rfl
  | @block ts ts' c rs h h' ih =>
    simp only [List.length_append, List.length_cons, Nonterminal.depth] at hn ih
    obtain ⟨m, rfl⟩ : ∃ m, n = m + 1 + 1 := ⟨n - 2, by omega⟩
    have hclose : StartsIn (.rpar :: (ts' ++ rest)) [.rpar] := startsIn_cons (by decide)
    have h1 := ih (n := m) hclose (by omega)
    have h2 := redirsToks_complete (c := c) (n := m) h' (hrest.not_redir (by decide)) (by omega)
    have hlpar : ∀ ts, peekToks (.lpar :: ts) [chr '('] = true :=
      fun ts => peekToks_lpar.mpr ⟨_, rfl⟩
    have hrpar : peekToks (.rpar :: (ts' ++ rest)) [chr ')'] = true := peekToks_rpar.mpr ⟨_, rfl⟩
    rw [show parseToks .exec = execToks from rfl, List.cons_append, List.append_assoc,
      List.cons_append, execToks, if_pos (hlpar _),
      blockToks, if_pos (hlpar _), List.tail_cons, show lineToks m (ts ++ _) = _ from h1]
    rw [ok_bind]
    dsimp only
    rwa [if_pos hrpar]
  | @simple ts ts' ws rs rs' h h' hargs =>
    simp only [List.length_append, Nonterminal.depth] at hn
    obtain ⟨m, rfl⟩ : ∃ m, n = m + 1 := ⟨n - 1, by omega⟩
    have h1 := redirsToks_complete (c := .exec []) (n := m) h (h'.not_redir hrest) (by omega)
    have hlt : ([] ++ ws).length < MAXARGS := Nat.lt_of_le_pred (by decide) hargs
    have h2 : argsToks m ((Cmd.exec []).wrap rs) 0 (ts' ++ rest) = .ok (_, rest) :=
      argsToks_complete h' hrest hlt (by omega)
    show execToks (m + 1) _ = _
    rwa [List.append_assoc, execToks, if_neg (not_lpar h h' hrest), h1]

/-! ### The parser comes to an end -/

/-- The call returns or panics. -/
def Settles {α : Type} (r : P α) : Prop := ∀ e, r = .error e → ∃ msg, e = .panic msg

theorem settles_ok {α : Type} (a : α) : Settles (.ok a : P α) := nofun

theorem settles_panic {α : Type} (msg : String) : Settles (.error (.panic msg) : P α) := by
  intro e he
  cases he
  exact ⟨msg, rfl⟩

theorem Settles.bind {x : P α} {f : α → P β} (hx : Settles x)
    (hf : ∀ a, x = .ok a → Settles (f a)) : Settles (x >>= f) := by
  cases x with
  | error e =>
    intro e' he
    cases he
    exact hx e rfl
  | ok a => exact hf a rfl

theorem redirsToks_settles (hn : ts.length < n) : Settles (redirsToks n c ts) := by
  induction n generalizing c ts with
  | zero => exact absurd hn (Nat.not_lt_zero _)
  | succ n ih =>
    by_cases hp : peekToks ts [chr '<', chr '>'] = true
    · obtain ⟨t, ts', ⟨mode, fd⟩, rfl, ht⟩ := peekToks_redir.mp hp
      by_cases hw : (headTok ts').1 = chr 'a'
      · obtain ⟨w, ts'', rfl⟩ := headTok_word.mp hw
        rw [redirsToks_cons ht]
        simp only [List.length_cons] at hn
        exact ih (by omega)
      · rw [redirsToks, if_pos hp, List.tail_cons, if_pos hw]
        exact settles_panic _
    · rw [redirsToks, if_neg hp]
      exact settles_ok _

theorem argsToks_settles {argc : ℕ} (hn : ts.length < n) : Settles (argsToks n c argc ts) := by
  induction n generalizing c ts argc with
  | zero => exact absurd hn (Nat.not_lt_zero _)
  | succ n ih =>
    rw [argsToks]
    by_cases hstop : peekToks ts [chr '|', chr ')', chr '&', chr ';'] = true
    · rw [if_pos hstop]
      exact settles_ok _
    rw [if_neg hstop]
    by_cases hzero : (headTok ts).1 = 0
    · rw [if_pos hzero]
      exact settles_ok _
    rw [if_neg hzero]
    by_cases hword : (headTok ts).1 = chr 'a'
    · obtain ⟨w, ts, rfl⟩ := headTok_word.mp hword
      rw [if_neg (not_not.mpr hword)]
      split_ifs
      · exact settles_panic _
      · rw [List.length_cons] at hn
        refine (redirsToks_settles (by rw [List.tail_cons]; omega)).bind fun r hr => ih ?_
        obtain ⟨pre, rs, heq, -, -⟩ := redirsToks_sound hr
        have := congrArg List.length heq
        rw [List.tail_cons, List.length_append] at this
        omega
    · rw [if_pos hword]
      exact settles_panic _

theorem backToks_settles (hn : ts.length < n) : Settles (backToks n c ts) := by
  induction n generalizing c ts with
  | zero => exact absurd hn (Nat.not_lt_zero _)
  | succ n ih =>
    rw [backToks]
    by_cases hp : peekToks ts [chr '&'] = true
    · obtain ⟨ts', rfl⟩ := peekToks_amp.mp hp
      rw [if_pos hp]
      simp only [List.length_cons] at hn
      exact ih (by rw [List.tail_cons]; omega)
    · rw [if_neg hp]
      exact settles_ok _

theorem length_le_of_ok (h : parseToks N n ts = .ok (c, rest)) : rest.length ≤ ts.length := by
  obtain ⟨pre, rfl, -⟩ := sound n N ts c rest h
  rw [List.length_append]
  omega

theorem blockToks_settles {ts' : List Tok} (hline : Settles (lineToks n ts'))
    (hn : ts'.length < n) : Settles (blockToks (n + 1) (.lpar :: ts')) := by
  rw [blockToks, if_pos (peekToks_lpar.mpr ⟨_, rfl⟩), List.tail_cons]
  refine hline.bind fun r hr => ?_
  have hlen : r.2.length ≤ ts'.length := length_le_of_ok (N := .line) hr
  dsimp only
  by_cases hp : peekToks r.2 [chr ')'] = true
  · obtain ⟨ts2, hts⟩ := peekToks_rpar.mp hp
    rw [if_pos hp]
    refine redirsToks_settles ?_
    rw [hts, List.length_cons] at hlen
    rw [hts, List.tail_cons]
    omega
  · rw [if_neg hp]
    exact settles_panic _

/-- **With rounds enough, the parser returns or panics.** -/
theorem settles (hn : 4 * ts.length + N.depth ≤ n) : Settles (parseToks N n ts) := by
  -- a nonterminal calls a deeper one, or itself on fewer tokens
  induction n using Nat.strong_induction_on generalizing N ts with
  | _ n ih =>
    cases N with
    | line =>
      obtain ⟨m, rfl⟩ : ∃ m, n = m + 1 := ⟨n - 1, by simp only [Nonterminal.depth] at hn; omega⟩
      simp only [Nonterminal.depth] at hn
      show Settles (lineToks (m + 1) ts)
      rw [lineToks]
      refine (ih m (by omega) (N := .pipe) (by simp only [Nonterminal.depth]; omega)).bind
        fun r hr => ?_
      have hlen : r.2.length ≤ ts.length := length_le_of_ok (N := .pipe) hr
      refine (backToks_settles (by omega)).bind fun r2 hr2 => ?_
      obtain ⟨k, hk, -⟩ := backToks_sound hr2
      have hlen2 := congrArg List.length hk
      rw [List.length_append] at hlen2
      dsimp only
      by_cases hp : peekToks r2.2 [chr ';'] = true
      · obtain ⟨ts3, hts⟩ := peekToks_semi.mp hp
        rw [hts, List.length_cons] at hlen2
        rw [if_pos hp, hts, List.tail_cons]
        refine (ih m (by omega) (N := .line) (by simp only [Nonterminal.depth]; omega)).bind
          fun r3 _ => settles_ok _
      · rw [if_neg hp]
        exact settles_ok _
    | pipe =>
      obtain ⟨m, rfl⟩ : ∃ m, n = m + 1 := ⟨n - 1, by simp only [Nonterminal.depth] at hn; omega⟩
      simp only [Nonterminal.depth] at hn
      show Settles (pipeToks (m + 1) ts)
      rw [pipeToks]
      refine (ih m (by omega) (N := .exec) (by simp only [Nonterminal.depth]; omega)).bind
        fun r hr => ?_
      have hlen : r.2.length ≤ ts.length := length_le_of_ok (N := .exec) hr
      dsimp only
      by_cases hp : peekToks r.2 [chr '|'] = true
      · obtain ⟨ts2, hts⟩ := peekToks_bar.mp hp
        rw [hts, List.length_cons] at hlen
        rw [if_pos hp, hts, List.tail_cons]
        refine (ih m (by omega) (N := .pipe) (by simp only [Nonterminal.depth]; omega)).bind
          fun r3 _ => settles_ok _
      · rw [if_neg hp]
        exact settles_ok _
    | exec =>
      obtain ⟨m, rfl⟩ : ∃ m, n = m + 1 := ⟨n - 1, by simp only [Nonterminal.depth] at hn; omega⟩
      simp only [Nonterminal.depth] at hn
      show Settles (execToks (m + 1) ts)
      rw [execToks]
      by_cases hp : peekToks ts [chr '('] = true
      · obtain ⟨ts', rfl⟩ := peekToks_lpar.mp hp
        rw [if_pos hp]
        rw [List.length_cons] at hn
        obtain ⟨k, rfl⟩ : ∃ k, m = k + 1 := ⟨m - 1, by omega⟩
        refine blockToks_settles ?_ (by omega)
        exact ih k (by omega) (N := .line) (by simp only [Nonterminal.depth]; omega)
      · rw [if_neg hp]
        refine (redirsToks_settles (by omega)).bind fun r hr => ?_
        obtain ⟨pre, rs, heq, -, -⟩ := redirsToks_sound hr
        have hlen := congrArg List.length heq
        rw [List.length_append] at hlen
        exact argsToks_settles (by omega)

end Xv6.Shell
