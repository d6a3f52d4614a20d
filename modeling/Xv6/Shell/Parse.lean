import Xv6.Shell.Run

/-!
# Parsing commands

`gettoken`, `peek` and the parsing functions of `user/sh.c`, on indices into the
string.  Every byte is read through `load`, which faults outside the string and
its terminator; `syntax` errors panic.  The cursor `char **ps` that the functions
share is passed along, and so is a bound on the rounds of a loop and the depth of
calls where the source has none: a call that runs into it stops with `rounds`.

As in the source the words of a command are kept as pairs of pointers, the
start of the word and its end, and `nulterminate` makes them C strings once the
whole line has been parsed.

## Main definitions

* `load`, `gettoken`, `peek` — reading the string.
* `Tree` — commands whose words are still in the string.
* `parseline`, `parsepipe`, `parseexec`, `parseblock`, `parseredirs`, `nulterminate`,
  `parsecmd` — the functions of the source, under its names.
-/

namespace Xv6.Shell

/-! ### Reading the string -/

/-- Why a call does not return. -/
inductive Stop where
  | panic (msg : String)
  /-- It reads outside the string. -/
  | fault
  /-- It needs more rounds than it was given. -/
  | rounds
  deriving DecidableEq

/-- What a call gives. -/
abbrev P := Except Stop

def chr (c : Char) : UInt8 := c.toUInt8

def whitespace : List UInt8 := [chr ' ', chr '\t', chr '\r', chr '\n', 11]

def symbols : List UInt8 := [chr '<', chr '|', chr '>', chr '&', chr ';', chr '(', chr ')']

/-- `b` are the bytes before the terminator. -/
def load (b : Word) (i : ℕ) : P UInt8 :=
  match b[i]? with
  | some c => .ok c
  | none => if i = b.length then .ok 0 else .error .fault

/-- `strlen`, from index `i` on. -/
def strlenFrom (b : Word) : ℕ → ℕ → P ℕ
  | 0, _ => .error .rounds
  | n + 1, i => do
      if (← load b i) = 0 then return i
      strlenFrom b n (i + 1)

/-- `while(s < es && strchr(whitespace, *s)) s++`, where `n` is `es - s`. -/
def skipFrom (b : Word) : ℕ → ℕ → P ℕ
  | 0, s => return s
  | n + 1, s => do
      if (← load b s) ∈ whitespace then skipFrom b n (s + 1) else return s

/-- `while(s < es && !strchr(whitespace, *s) && !strchr(symbols, *s)) s++`. -/
def wordFrom (b : Word) : ℕ → ℕ → P ℕ
  | 0, s => return s
  | n + 1, s => do
      let c ← load b s
      if c ∉ whitespace ∧ c ∉ symbols then wordFrom b n (s + 1) else return s

/-- A token: its kind, where it starts and ends, and the cursor after it. -/
structure Token where
  ret : UInt8
  q : ℕ
  eq : ℕ
  s : ℕ

/-- The `switch` of `gettoken`: the kind of the token at `s` and its end. -/
def tokenAt (b : Word) (es s : ℕ) : P (UInt8 × ℕ) := do
  let c ← load b s
  if c = 0 then return (0, s)
  else if c ∈ [chr '|', chr '(', chr ')', chr ';', chr '&', chr '<'] then return (c, s + 1)
  else if c = chr '>' then
    if (← load b (s + 1)) = chr '>' then return (chr '+', s + 2)
    else return (c, s + 1)
  else return (chr 'a', ← wordFrom b (es - s) s)

def gettoken (b : Word) (es s : ℕ) : P Token := do
  let q ← skipFrom b (es - s) s
  let (ret, eq) ← tokenAt b es q
  let s ← skipFrom b (es - eq) eq
  return ⟨ret, q, eq, s⟩

/-- The cursor after the whitespace, and whether one of `toks` is there. -/
def peek (b : Word) (es s : ℕ) (toks : List UInt8) : P (ℕ × Bool) := do
  let s ← skipFrom b (es - s) s
  let c ← load b s
  return (s, c ≠ 0 ∧ c ∈ toks)

/-! ### Commands -/

/-- `struct cmd`, with the words as pointers to their start and end. -/
inductive Tree where
  | exec (argv : List (ℕ × ℕ))
  | redir (cmd : Tree) (file : ℕ × ℕ) (mode fd : ℕ)
  | pipe (left right : Tree)
  | list (left right : Tree)
  | back (cmd : Tree)
  deriving DecidableEq

abbrev MAXARGS : ℕ := 10

abbrev O_RDONLY : ℕ := 0x000
abbrev O_WRONLY : ℕ := 0x001
abbrev O_CREATE : ℕ := 0x200
abbrev O_TRUNC : ℕ := 0x400

/-- What the token of a redirection stands for: the mode of `open`, and the descriptor. -/
def redirection (tok : UInt8) : Option (ℕ × ℕ) :=
  if tok = chr '<' then some (O_RDONLY, 0)
  else if tok = chr '>' then some (O_WRONLY ||| O_CREATE ||| O_TRUNC, 1)
  else if tok = chr '+' then some (O_WRONLY ||| O_CREATE, 1)
  else none

/-- The loop of `parseredirs`. -/
def parseredirs (b : Word) (es : ℕ) : ℕ → Tree → ℕ → P (Tree × ℕ)
  | 0, _, _ => .error .rounds
  | n + 1, cmd, s => do
      let (s, more) ← peek b es s [chr '<', chr '>']
      if more then
        let tok ← gettoken b es s
        let file ← gettoken b es tok.s
        if file.ret ≠ chr 'a' then .error (.panic "missing file for redirection")
        else
          let cmd := match redirection tok.ret with
            | some (mode, fd) => .redir cmd (file.q, file.eq) mode fd
            | none => cmd
          parseredirs b es n cmd file.s
      else return (cmd, s)

/-- `cmd->argv[argc] = q`, where `cmd` is the `execcmd` inside the redirections. -/
def Tree.pushArg (w : ℕ × ℕ) : Tree → Tree
  | .exec argv => .exec (argv ++ [w])
  | .redir cmd file mode fd => .redir (cmd.pushArg w) file mode fd
  | t => t

/-- The loop of `parseexec`, with `argc` arguments so far. -/
def parseargs (b : Word) (es : ℕ) : ℕ → Tree → ℕ → ℕ → P (Tree × ℕ)
  | 0, _, _, _ => .error .rounds
  | n + 1, ret, argc, s => do
      let (s, stop) ← peek b es s [chr '|', chr ')', chr '&', chr ';']
      if stop then return (ret, s)
      else
        let tok ← gettoken b es s
        if tok.ret = 0 then return (ret, tok.s)
        else if tok.ret ≠ chr 'a' then .error (.panic "syntax")
        else if argc + 1 ≥ MAXARGS then .error (.panic "too many args")
        else
          let (ret, s) ← parseredirs b es n (ret.pushArg (tok.q, tok.eq)) tok.s
          parseargs b es n ret (argc + 1) s

/-- The loop of `parseline` over `&`. -/
def parseback (b : Word) (es : ℕ) : ℕ → Tree → ℕ → P (Tree × ℕ)
  | 0, _, _ => .error .rounds
  | n + 1, cmd, s => do
      let (s, more) ← peek b es s [chr '&']
      if more then
        let tok ← gettoken b es s
        parseback b es n (.back cmd) tok.s
      else return (cmd, s)

mutual

def parseline (b : Word) (es : ℕ) : ℕ → ℕ → P (Tree × ℕ)
  | 0, _ => .error .rounds
  | n + 1, s => do
      let (cmd, s) ← parsepipe b es n s
      let (cmd, s) ← parseback b es n cmd s
      let (s, more) ← peek b es s [chr ';']
      if more then
        let tok ← gettoken b es s
        let (right, s) ← parseline b es n tok.s
        return (.list cmd right, s)
      else return (cmd, s)

def parsepipe (b : Word) (es : ℕ) : ℕ → ℕ → P (Tree × ℕ)
  | 0, _ => .error .rounds
  | n + 1, s => do
      let (cmd, s) ← parseexec b es n s
      let (s, more) ← peek b es s [chr '|']
      if more then
        let tok ← gettoken b es s
        let (right, s) ← parsepipe b es n tok.s
        return (.pipe cmd right, s)
      else return (cmd, s)

def parseexec (b : Word) (es : ℕ) : ℕ → ℕ → P (Tree × ℕ)
  | 0, _ => .error .rounds
  | n + 1, s => do
      let (s, block) ← peek b es s [chr '(']
      if block then parseblock b es n s
      else
        let (ret, s) ← parseredirs b es n (.exec []) s
        parseargs b es n ret 0 s

def parseblock (b : Word) (es : ℕ) : ℕ → ℕ → P (Tree × ℕ)
  | 0, _ => .error .rounds
  | n + 1, s => do
      let (s, block) ← peek b es s [chr '(']
      if block then
        let tok ← gettoken b es s
        let (cmd, s) ← parseline b es n tok.s
        let (s, closed) ← peek b es s [chr ')']
        if closed then
          let tok ← gettoken b es s
          parseredirs b es n cmd tok.s
        else .error (.panic "syntax - missing )")
      else .error (.panic "parseblock")

end

/-- NUL-terminate all the counted strings, in the string and its terminator. -/
def nulterminate : Tree → List UInt8 → List UInt8
  | .exec argv, m => argv.foldl (fun m w => m.set w.2 0) m
  | .redir cmd file _ _, m => (nulterminate cmd m).set file.2 0
  | .pipe left right, m => nulterminate right (nulterminate left m)
  | .list left right, m => nulterminate right (nulterminate left m)
  | .back cmd, m => nulterminate cmd m

/-- The command, and the string and its terminator as they are left. -/
def parsecmd (n : ℕ) (b : Word) : P (Tree × List UInt8) := do
  let es ← strlenFrom b n 0
  let (cmd, s) ← parseline b es n 0
  let (s, _) ← peek b es s []
  if s ≠ es then .error (.panic "syntax")
  else return (cmd, nulterminate cmd (b ++ [0]))

/-- The C string at an address. -/
def cstr (m : List UInt8) (q : ℕ) : Word := (m.drop q).takeWhile (· ≠ 0)

/-- The command as `runcmd` finds it. -/
def Tree.read (m : List UInt8) : Tree → Cmd
  | .exec argv => .exec (argv.map fun w => cstr m w.1)
  | .redir cmd file mode fd => .redir (cmd.read m) (cstr m file.1) mode fd
  | .pipe left right => .pipe (left.read m) (right.read m)
  | .list left right => .list (left.read m) (right.read m)
  | .back cmd => .back (cmd.read m)

end Xv6.Shell
