import Xv6.Shell.Grammar
import Mathlib.Data.List.DropRight
import Mathlib.Data.List.Forall2

/-!
# The parser of the shell accepts the grammar

The functions of `Xv6.Shell.Parse` on a string do what those of
`Xv6.Shell.Grammar` do on its tokens: a cursor stands for the tokens that follow
it (`At`), and a command whose words are pointers for one whose words are the
bytes between them (`Spells`).  No byte outside the string is looked at, since
the cursor never passes its end.

`nulterminate` writes where words end, and no word has a byte there; so each of
them is left as a C string of its own.

## Main definitions

* `At`, `Span`, `Spells` — what cursors, words and commands stand for.
* `Agrees` — two calls come to the same.

## Main results

* `parse_agrees` — the parser on the string and on its tokens agree.
* `read_nulterminate` — the words of the command, once they are C strings.
* `parsecmd_accepts` — **`parsecmd` accepts the grammar**, and returns the command of the
  derivation.
* `words_of_parsecmd` — the words of a command point into the string.
-/

namespace Xv6.Shell

variable {b : Word} {s n : ℕ} {ts : List Tok}

/-! ### Bytes -/

theorem load_of_lt (h : s < b.length) : load b s = .ok b[s] := by
  unfold load
  rw [List.getElem?_eq_getElem h]

theorem load_end (b : Word) : load b b.length = .ok 0 := by
  unfold load
  rw [List.getElem?_eq_none le_rfl]
  exact if_pos rfl

theorem drop_cases (h : s ≤ b.length) :
    (s = b.length ∧ b.drop s = []) ∨ ∃ hs : s < b.length, b.drop s = b[s] :: b.drop (s + 1) := by
  rcases Nat.lt_or_eq_of_le h with hs | rfl
  · exact Or.inr ⟨hs, List.drop_eq_getElem_cons hs⟩
  · exact Or.inl ⟨rfl, List.drop_length⟩

theorem strlenFrom_eq (hb : 0 ∉ b) (hs : s ≤ b.length) (hn : b.length - s < n) :
    strlenFrom b n s = .ok b.length := by
  induction n generalizing s with
  | zero => exact absurd hn (Nat.not_lt_zero _)
  | succ n ih =>
    rcases drop_cases hs with ⟨rfl, -⟩ | ⟨hlt, -⟩
    · rw [strlenFrom, load_end, ok_bind]
      rfl
    · have hne : b[s] ≠ 0 := fun h => hb (h ▸ List.getElem_mem hlt)
      rw [strlenFrom, load_of_lt hlt, ok_bind, if_neg hne]
      exact ih (by omega) (by omega)

/-- Skipping whitespace. -/
theorem skipFrom_at (hs : s ≤ b.length) : ∃ s', skipFrom b (b.length - s) s = .ok s' ∧ s ≤ s' ∧
    s' ≤ b.length ∧ b.drop s' = (b.drop s).dropWhile isWhite := by
  -- on the number of bytes left
  induction hk : b.length - s generalizing s with
  | zero =>
    have heq : s = b.length := by omega
    subst heq
    exact ⟨b.length, rfl, le_rfl, le_rfl, by rw [List.drop_length]; rfl⟩
  | succ k ih =>
    rcases drop_cases hs with ⟨rfl, -⟩ | ⟨hlt, hdrop⟩
    · omega
    rw [skipFrom, load_of_lt hlt, ok_bind, hdrop]
    by_cases hw : b[s] ∈ whitespace
    · obtain ⟨s', hskip, hle, hle', heq⟩ := ih (s := s + 1) (by omega) (by omega)
      refine ⟨s', ?_, by omega, hle', ?_⟩
      · rwa [if_pos hw]
      · rw [heq, List.dropWhile_cons_of_pos (by simpa [isWhite] using hw)]
    · refine ⟨s, if_neg hw, le_rfl, hs, ?_⟩
      rw [List.dropWhile_cons_of_neg (by simpa [isWhite] using hw), hdrop]

/-- A maximal run of bytes that are neither whitespace nor symbols. -/
theorem wordFrom_at (hs : s ≤ b.length) : ∃ s', wordFrom b (b.length - s) s = .ok s' ∧
    s + ((b.drop s).takeWhile isWord).length = s' ∧ s' ≤ b.length ∧
    b.drop s' = (b.drop s).dropWhile isWord := by
  induction hk : b.length - s generalizing s with
  | zero =>
    have heq : s = b.length := by omega
    subst heq
    exact ⟨b.length, rfl, by rw [List.drop_length]; rfl, le_rfl, by rw [List.drop_length]; rfl⟩
  | succ k ih =>
    rcases drop_cases hs with ⟨rfl, -⟩ | ⟨hlt, hdrop⟩
    · omega
    rw [wordFrom, load_of_lt hlt, ok_bind, hdrop]
    by_cases hw : b[s] ∉ whitespace ∧ b[s] ∉ symbols
    · have hword : isWord b[s] = true := decide_eq_true hw
      obtain ⟨s', hskip, hlen, hle', heq⟩ := ih (s := s + 1) (by omega) (by omega)
      refine ⟨s', ?_, ?_, hle', ?_⟩
      · rwa [if_pos hw]
      · rw [List.takeWhile_cons_of_pos hword, List.length_cons]
        omega
      · rw [heq, List.dropWhile_cons_of_pos hword]
    · have hword : ¬isWord b[s] = true := fun h => hw (of_decide_eq_true h)
      refine ⟨s, if_neg hw, ?_, hs, ?_⟩
      · rw [List.takeWhile_cons_of_neg hword]
        rfl
      · rw [List.dropWhile_cons_of_neg hword, hdrop]

/-! ### Tokens -/

/-- The cursor `s` stands for the tokens `ts`. -/
structure At (b : Word) (s : ℕ) (ts : List Tok) : Prop where
  le : s ≤ b.length
  toks : lex (b.drop s) = ts

/-- The pointers are the start and the end of the word `w`. -/
structure Span (b : Word) (p : ℕ × ℕ) (w : Word) : Prop where
  len : p.1 + w.length = p.2
  le : p.2 ≤ b.length
  bytes : w <+: b.drop p.1
  word : ∀ c ∈ w, isWord c = true
  /-- The word does not go on. -/
  stop : ∀ c, b[p.2]? = some c → isWord c = false

theorem lex_eq (l : Word) : lex l = match lexOne (l.dropWhile isWhite) with
    | none => []
    | some (t, rest) => t :: lex rest := by
  rw [lex]
  split <;> rename_i h <;> rw [h]

theorem lex_dropWhile (l : Word) : lex (l.dropWhile isWhite) = lex l := by
  rw [lex_eq, lex_eq l, List.dropWhile_idempotent]

theorem lex_length (l : Word) : (lex l).length ≤ l.length := by
  induction hk : l.length using Nat.strong_induction_on generalizing l with
  | _ k ih =>
    rw [lex_eq]
    have hdrop : (l.dropWhile isWhite).length ≤ l.length :=
      (List.dropWhile_suffix isWhite).length_le
    cases h : lexOne (l.dropWhile isWhite) with
    | none => exact Nat.zero_le _
    | some r =>
      have hlt : r.2.length < (l.dropWhile isWhite).length := lexOne_length h
      have := ih r.2.length (by omega) r.2 rfl
      simp only [List.length_cons]
      omega

variable {c : UInt8}

theorem not_white_of_dropWhile {l cs : Word} (h : l.dropWhile isWhite = c :: cs) :
    isWhite c = false := by
  have := List.head_dropWhile_not isWhite (l := l) (by rw [h]; nofun)
  simpa [h] using this

theorem lexOne_symbol (cs : Word)
    (hc : c ∈ [chr '|', chr '(', chr ')', chr ';', chr '&', chr '<']) :
    ∃ t : Tok, lexOne (c :: cs) = some (t, cs) ∧ t.code = c ∧ t.first = c ∧ ∀ w, t ≠ .word w := by
  simp only [List.mem_cons, List.not_mem_nil, or_false] at hc
  rcases hc with rfl | rfl | rfl | rfl | rfl | rfl
  · exact ⟨.bar, rfl, rfl, rfl, nofun⟩
  · exact ⟨.lpar, rfl, rfl, rfl, nofun⟩
  · exact ⟨.rpar, rfl, rfl, rfl, nofun⟩
  · exact ⟨.semi, rfl, rfl, rfl, nofun⟩
  · exact ⟨.amp, rfl, rfl, rfl, nofun⟩
  · exact ⟨.lt, rfl, rfl, rfl, nofun⟩

theorem lexOne_word {cs : Word}
    (hc : c ∉ [chr '|', chr '(', chr ')', chr ';', chr '&', chr '<']) (hgt : c ≠ chr '>') :
    lexOne (c :: cs) = some (.word (c :: cs.takeWhile isWord), cs.dropWhile isWord) := by
  simp only [List.mem_cons, List.not_mem_nil, or_false, not_or] at hc
  obtain ⟨h1, h2, h3, h4, h5, h6⟩ := hc
  rw [lexOne, if_neg h1, if_neg h2, if_neg h3, if_neg h4, if_neg h5, if_neg h6, if_neg hgt]

theorem isWord_of_not (hwhite : isWhite c = false)
    (hc : c ∉ [chr '|', chr '(', chr ')', chr ';', chr '&', chr '<']) (hgt : c ≠ chr '>') :
    isWord c = true := by
  simp only [List.mem_cons, List.not_mem_nil, or_false, not_or] at hc
  obtain ⟨h1, h2, h3, h4, h5, h6⟩ := hc
  refine decide_eq_true ⟨of_decide_eq_false hwhite, ?_⟩
  simp only [symbols, List.mem_cons, List.not_mem_nil, or_false, not_or]
  exact ⟨h6, h1, hgt, h5, h4, h2, h3⟩

/-- The token at the cursor. -/
theorem tokenAt_at (hb : 0 ∉ b) {cs rest : Word} {t : Tok} (hdrop : b.drop s = c :: cs)
    (hwhite : isWhite c = false) (hlex : lexOne (c :: cs) = some (t, rest)) :
    ∃ e, tokenAt b b.length s = .ok (t.code, e) ∧ s < e ∧ e ≤ b.length ∧ b.drop e = rest ∧
      ∀ w, t = .word w → Span b (s, e) w := by
  have hs : s < b.length := by
    by_contra hge
    rw [List.drop_eq_nil_of_le (by omega)] at hdrop
    cases hdrop
  rw [List.drop_eq_getElem_cons hs] at hdrop
  obtain ⟨rfl, rfl⟩ := List.cons.inj hdrop
  have hzero : b[s] ≠ 0 := fun h => hb (h ▸ List.getElem_mem hs)
  rw [tokenAt, load_of_lt hs, ok_bind, if_neg hzero]
  by_cases hc : b[s] ∈ [chr '|', chr '(', chr ')', chr ';', chr '&', chr '<']
  · obtain ⟨t', ht', hcode, -, hno⟩ := lexOne_symbol (b.drop (s + 1)) hc
    rw [ht'] at hlex
    cases hlex
    rw [if_pos hc]
    exact ⟨s + 1, by rw [hcode]; rfl, by omega, hs, rfl, fun w hw => absurd hw (hno w)⟩
  rw [if_neg hc]
  by_cases hgt : b[s] = chr '>'
  · rw [if_pos hgt]
    rw [hgt] at hlex
    rcases drop_cases (s := s + 1) hs with ⟨hend, hnil⟩ | ⟨hs', hcons⟩
    · -- the last byte of the string
      rw [hnil] at hlex
      cases hlex
      rw [hend, load_end, ok_bind]
      refine ⟨s + 1, ?_, by omega, hs, hnil, nofun⟩
      rw [if_neg (by decide), hgt, hend]
      rfl
    · rw [load_of_lt hs', ok_bind]
      rw [hcons] at hlex
      by_cases hgt' : b[s + 1] = chr '>'
      · rw [hgt'] at hlex
        cases hlex
        rw [if_pos hgt']
        exact ⟨s + 2, rfl, by omega, hs', rfl, nofun⟩
      · rw [if_neg hgt']
        have hone : lexOne (chr '>' :: b[s + 1] :: b.drop (s + 1 + 1)) =
            some (.gt, b[s + 1] :: b.drop (s + 1 + 1)) :=
          if_neg (fun h => hgt' (Option.some.inj h))
        rw [hone] at hlex
        cases hlex
        exact ⟨s + 1, by rw [hgt]; rfl, by omega, hs, hcons, nofun⟩
  · rw [if_neg hgt]
    rw [lexOne_word hc hgt] at hlex
    cases hlex
    have hword := isWord_of_not hwhite hc hgt
    obtain ⟨e, he, hlen, hle, hrest⟩ := wordFrom_at (b := b) (s := s) (by omega)
    rw [List.drop_eq_getElem_cons hs, List.takeWhile_cons_of_pos hword, List.length_cons] at hlen
    rw [List.drop_eq_getElem_cons hs, List.dropWhile_cons_of_pos hword] at hrest
    refine ⟨e, by rw [he, ok_bind]; rfl, by omega, hle, hrest, fun w hw => ?_⟩
    cases hw
    refine ⟨?_, hle, ?_, ?_, fun c hc => ?_⟩
    · rw [List.length_cons]
      omega
    · rw [List.drop_eq_getElem_cons hs]
      exact List.cons_prefix_cons.mpr ⟨rfl, List.takeWhile_prefix _⟩
    · intro c hc
      rcases List.mem_cons.mp hc with rfl | hc
      · exact hword
      · exact List.mem_takeWhile_imp hc
    · -- the first byte after the run
      have he' : e < b.length := (List.getElem?_eq_some_iff.mp hc).1
      have hhead : b[e] = c := (List.getElem?_eq_some_iff.mp hc).2
      rw [List.drop_eq_getElem_cons he', hhead] at hrest
      have := List.head_dropWhile_not isWord (l := b.drop (s + 1)) (by rw [← hrest]; nofun)
      simpa [← hrest] using this

/-- Past the whitespace there is the end of the string, or the first token. -/
theorem At.front (h : At b s ts) : ∃ q, skipFrom b (b.length - s) s = .ok q ∧ At b q ts ∧
    ((q = b.length ∧ ts = []) ∨ ∃ c cs t rest, b.drop q = c :: cs ∧ isWhite c = false ∧
      lexOne (c :: cs) = some (t, rest) ∧ ts = t :: lex rest) := by
  obtain ⟨q, hq, -, hqle, hdrop⟩ := skipFrom_at h.le
  have hlex : lex (b.drop q) = ts := by rw [hdrop, lex_dropWhile, h.toks]
  refine ⟨q, hq, ⟨hqle, hlex⟩, ?_⟩
  rcases drop_cases hqle with ⟨hend, hnil⟩ | ⟨hlt, hcons⟩
  · rw [hnil, lex_eq] at hlex
    exact Or.inl ⟨hend, hlex.symm⟩
  · have hwhite : isWhite b[q] = false := not_white_of_dropWhile (hdrop.symm.trans hcons)
    have hself : (b[q] :: b.drop (q + 1)).dropWhile isWhite = b[q] :: b.drop (q + 1) :=
      List.dropWhile_cons_of_neg (by rw [hwhite]; exact Bool.false_ne_true)
    rw [hcons, lex_eq, hself] at hlex
    cases hone : lexOne (b[q] :: b.drop (q + 1)) with
    | none =>
      rw [lexOne] at hone
      split_ifs at hone
    | some r =>
      rw [hone] at hlex
      exact Or.inr ⟨_, _, r.1, r.2, hcons, hwhite, hone, hlex.symm⟩

/-- `gettoken` takes the first token. -/
theorem gettoken_at (hb : 0 ∉ b) (h : At b s ts) : ∃ tok, gettoken b b.length s = .ok tok ∧
    tok.ret = (headTok ts).1 ∧ At b tok.s ts.tail ∧
    ∀ w ts', ts = .word w :: ts' → Span b (tok.q, tok.eq) w := by
  obtain ⟨q, hq, hat, hfront⟩ := h.front
  rw [gettoken, hq, ok_bind]
  rcases hfront with ⟨rfl, rfl⟩ | ⟨c, cs, t, rest, hcs, hwhite, hone, rfl⟩
  · -- the end of the string
    refine ⟨⟨0, b.length, b.length, b.length⟩, ?_, rfl, hat, nofun⟩
    rw [tokenAt, load_end, ok_bind, if_pos rfl]
    show (skipFrom b (b.length - b.length) b.length >>= _) = _
    rw [Nat.sub_self]
    rfl
  · obtain ⟨e, he, -, hele, hrest, hspan⟩ := tokenAt_at hb hcs hwhite hone
    obtain ⟨s', hs', -, hle', hdrop'⟩ := skipFrom_at hele
    refine ⟨⟨t.code, q, e, s'⟩, ?_, rfl, ⟨hle', ?_⟩, fun w ts' heq => ?_⟩
    · rw [he, ok_bind]
      dsimp only
      rw [hs', ok_bind]
      rfl
    · rw [hdrop', lex_dropWhile, hrest]
      rfl
    · exact hspan w (List.cons.inj heq).1

/-- What `peek` sees of a token is its first byte. -/
theorem first_mem_iff {cs rest : Word} {t : Tok} {toks : List UInt8}
    (hwhite : isWhite c = false) (hlex : lexOne (c :: cs) = some (t, rest))
    (htoks : ∀ a ∈ toks, a ∈ symbols) : t.first ∈ toks ↔ c ∈ toks := by
  by_cases hc : c ∈ [chr '|', chr '(', chr ')', chr ';', chr '&', chr '<']
  · obtain ⟨t', ht', -, hfirst, -⟩ := lexOne_symbol cs hc
    rw [ht'] at hlex
    cases hlex
    rw [hfirst]
  by_cases hgt : c = chr '>'
  · subst hgt
    by_cases hcs : cs.head? = some (chr '>')
    · have hone : lexOne (chr '>' :: cs) = some (.append, cs.tail) := if_pos hcs
      rw [hone] at hlex
      cases hlex
      rfl
    · have hone : lexOne (chr '>' :: cs) = some (.gt, cs) := if_neg hcs
      rw [hone] at hlex
      cases hlex
      rfl
  · rw [lexOne_word hc hgt] at hlex
    cases hlex
    have hword : c ∉ symbols := (of_decide_eq_true (isWord_of_not hwhite hc hgt)).2
    refine iff_of_false (fun hm => ?_) fun hm => hword (htoks c hm)
    exact absurd (htoks _ hm) (show chr 'a' ∉ symbols by decide)

/-- `peek` looks at the first token. -/
theorem peek_at (hb : 0 ∉ b) (h : At b s ts) (toks : List UInt8) (htoks : toks.all (· ∈ symbols)) :
    ∃ s', peek b b.length s toks = .ok (s', peekToks ts toks) ∧ At b s' ts ∧
      (s' = b.length ↔ ts = []) := by
  obtain ⟨q, hq, hat, hfront⟩ := h.front
  refine ⟨q, ?_, hat, ?_⟩
  all_goals rcases hfront with ⟨rfl, rfl⟩ | ⟨c, cs, t, rest, hcs, hwhite, hone, rfl⟩
  · rw [peek, hq, ok_bind, load_end, ok_bind]
    rfl
  · rcases drop_cases hat.le with ⟨-, hnil⟩ | ⟨hlt, hcons⟩
    · rw [hnil] at hcs
      cases hcs
    obtain ⟨rfl, -⟩ := List.cons.inj (hcs.symm.trans hcons)
    have hzero : b[q] ≠ 0 := fun h => hb (h ▸ List.getElem_mem hlt)
    have hmem := first_mem_iff hwhite hone (by simpa using htoks)
    rw [peek, hq, ok_bind, load_of_lt hlt, ok_bind]
    simp [peekToks, hmem, hzero, pure, Except.pure]
  · exact iff_of_true rfl rfl
  · refine iff_of_false (fun hend => ?_) (by simp)
    rw [hend, List.drop_length] at hcs
    cases hcs

/-! ### Commands -/

/-- The words of the command are those the pointers delimit. -/
inductive Spells (b : Word) : Tree → Cmd → Prop where
  | exec {argv : List (ℕ × ℕ)} {ws : List Word} (h : List.Forall₂ (Span b) argv ws) :
      Spells b (.exec argv) (.exec ws)
  | redir {t : Tree} {c : Cmd} {p : ℕ × ℕ} {w : Word} {mode fd : ℕ} (h : Spells b t c)
      (hp : Span b p w) : Spells b (.redir t p mode fd) (.redir c w mode fd)
  | pipe {l r : Tree} {c d : Cmd} (hl : Spells b l c) (hr : Spells b r d) :
      Spells b (.pipe l r) (.pipe c d)
  | list {l r : Tree} {c d : Cmd} (hl : Spells b l c) (hr : Spells b r d) :
      Spells b (.list l r) (.list c d)
  | back {t : Tree} {c : Cmd} (h : Spells b t c) : Spells b (.back t) (.back c)

variable {p : ℕ × ℕ} {w : Word}

theorem Spells.pushArg {t : Tree} {c : Cmd} (h : Spells b t c)
    (hp : Span b p w) : Spells b (t.pushArg p) (c.pushArg w) := by
  induction h with
  | exec h => exact .exec (List.rel_append h (.cons hp .nil))
  | redir h hf ih => exact .redir ih hf
  | pipe hl hr => exact .pipe hl hr
  | list hl hr => exact .list hl hr
  | back h => exact .back h

/-- Both calls return, with results that are related, or both stop for the same reason. -/
def Agrees {α β : Type} (R : α → β → Prop) : P α → P β → Prop
  | .ok a, .ok a' => R a a'
  | .error e, .error e' => e = e'
  | _, _ => False

theorem Agrees.bind {α β γ δ : Type} {R : α → β → Prop} {R' : γ → δ → Prop} {x : P α} {y : P β}
    {f : α → P γ} {g : β → P δ} (h : Agrees R x y)
    (hf : ∀ a a', R a a' → Agrees R' (f a) (g a')) : Agrees R' (x >>= f) (y >>= g) := by
  cases x with
  | error e =>
    cases y with
    | error e' => exact h
    | ok a' => exact h.elim
  | ok a =>
    cases y with
    | error e' => exact h.elim
    | ok a' => exact hf a a' h

/-- A command and the cursor after it. -/
def Parsed (b : Word) (r : Tree × ℕ) (r' : Cmd × List Tok) : Prop :=
  Spells b r.1 r'.1 ∧ At b r.2 r'.2

variable {t : Tree} {c : Cmd}

section

variable (hb : 0 ∉ b) (ht : Spells b t c) (h : At b s ts)

include hb ht h

theorem parseredirs_agrees :
    Agrees (Parsed b) (parseredirs b b.length n t s) (redirsToks n c ts) := by
  induction n generalizing t c s ts with
  | zero => exact rfl
  | succ n ih =>
    obtain ⟨s1, hpeek, h1, -⟩ := peek_at hb h [chr '<', chr '>'] (by decide)
    rw [parseredirs, hpeek, ok_bind, redirsToks]
    dsimp only
    by_cases hp : peekToks ts [chr '<', chr '>'] = true
    · obtain ⟨tok, htok, hret, h2, -⟩ := gettoken_at hb h1
      obtain ⟨file, hfile, hret', h3, hspan⟩ := gettoken_at hb h2
      rw [if_pos hp, if_pos hp, htok, ok_bind, hfile, ok_bind, hret, hret']
      by_cases hw : (headTok ts.tail).1 = chr 'a'
      · rw [if_neg (not_not.mpr hw), if_neg (not_not.mpr hw)]
        obtain ⟨w, ts', hts⟩ := headTok_word.mp hw
        refine ih ?_ h3
        have hw' : (headTok ts.tail).2 = w := by rw [hts]; rfl
        rw [hw']
        cases redirection (headTok ts).1 with
        | none => exact ht
        | some md => exact .redir ht (hspan w ts' hts)
      · rw [if_pos hw, if_pos hw]
        exact rfl
    · rw [if_neg hp, if_neg hp]
      exact ⟨ht, h1⟩

theorem parseargs_agrees {argc : ℕ} :
    Agrees (Parsed b) (parseargs b b.length n t argc s) (argsToks n c argc ts) := by
  induction n generalizing t c s ts argc with
  | zero => exact rfl
  | succ n ih =>
    obtain ⟨s1, hpeek, h1, -⟩ :=
      peek_at hb h [chr '|', chr ')', chr '&', chr ';'] (by decide)
    obtain ⟨tok, htok, hret, h2, hspan⟩ := gettoken_at hb h1
    rw [parseargs, hpeek, ok_bind, argsToks]
    dsimp only
    by_cases hstop : peekToks ts [chr '|', chr ')', chr '&', chr ';'] = true
    · rw [if_pos hstop, if_pos hstop]
      exact ⟨ht, h1⟩
    rw [if_neg hstop, if_neg hstop, htok, ok_bind, hret]
    by_cases hzero : (headTok ts).1 = 0
    · rw [if_pos hzero, if_pos hzero]
      exact ⟨ht, h2⟩
    rw [if_neg hzero, if_neg hzero]
    by_cases hword : (headTok ts).1 = chr 'a'
    · obtain ⟨w, ts', rfl⟩ := headTok_word.mp hword
      rw [if_neg (not_not.mpr hword), if_neg (not_not.mpr hword)]
      by_cases hargc : argc + 1 ≥ MAXARGS
      · rw [if_pos hargc, if_pos hargc]
        exact rfl
      · rw [if_neg hargc, if_neg hargc]
        refine (parseredirs_agrees hb (ht.pushArg (hspan w ts' rfl)) h2).bind fun r r' hr => ?_
        exact ih hr.1 hr.2
    · rw [if_pos hword, if_pos hword]
      exact rfl

theorem parseback_agrees : Agrees (Parsed b) (parseback b b.length n t s) (backToks n c ts) := by
  induction n generalizing t c s ts with
  | zero => exact rfl
  | succ n ih =>
    obtain ⟨s1, hpeek, h1, -⟩ := peek_at hb h [chr '&'] (by decide)
    obtain ⟨tok, htok, -, h2, -⟩ := gettoken_at hb h1
    rw [parseback, hpeek, ok_bind, backToks]
    dsimp only
    by_cases hp : peekToks ts [chr '&'] = true
    · rw [if_pos hp, if_pos hp, htok, ok_bind]
      exact ih (.back ht) h2
    · rw [if_neg hp, if_neg hp]
      exact ⟨ht, h1⟩

end

/-- The parsers of the string and of the tokens agree, given some rounds. -/
structure ParseAgrees (b : Word) (n : ℕ) : Prop where
  line : ∀ s ts, At b s ts → Agrees (Parsed b) (parseline b b.length n s) (lineToks n ts)
  pipe : ∀ s ts, At b s ts → Agrees (Parsed b) (parsepipe b b.length n s) (pipeToks n ts)
  exec : ∀ s ts, At b s ts → Agrees (Parsed b) (parseexec b b.length n s) (execToks n ts)
  block : ∀ s ts, At b s ts → Agrees (Parsed b) (parseblock b b.length n s) (blockToks n ts)

theorem parseline_agrees (hb : 0 ∉ b) (ih : ParseAgrees b n) (h : At b s ts) :
    Agrees (Parsed b) (parseline b b.length (n + 1) s) (lineToks (n + 1) ts) := by
  rw [parseline, lineToks]
  refine (ih.pipe s ts h).bind fun r r' hr => ?_
  refine (parseback_agrees hb hr.1 hr.2).bind fun r1 r1' hr1 => ?_
  obtain ⟨s1, hpeek, h1, -⟩ := peek_at hb hr1.2 [chr ';'] (by decide)
  obtain ⟨tok, htok, -, h2, -⟩ := gettoken_at hb h1
  dsimp only
  rw [hpeek, ok_bind]
  dsimp only
  by_cases hp : peekToks r1'.2 [chr ';'] = true
  · rw [if_pos hp, if_pos hp, htok, ok_bind]
    exact (ih.line _ _ h2).bind fun r2 r2' hr2 => ⟨.list hr1.1 hr2.1, hr2.2⟩
  · rw [if_neg hp, if_neg hp]
    exact ⟨hr1.1, h1⟩

theorem parsepipe_agrees (hb : 0 ∉ b) (ih : ParseAgrees b n) (h : At b s ts) :
    Agrees (Parsed b) (parsepipe b b.length (n + 1) s) (pipeToks (n + 1) ts) := by
  rw [parsepipe, pipeToks]
  refine (ih.exec s ts h).bind fun r r' hr => ?_
  obtain ⟨s1, hpeek, h1, -⟩ := peek_at hb hr.2 [chr '|'] (by decide)
  obtain ⟨tok, htok, -, h2, -⟩ := gettoken_at hb h1
  dsimp only
  rw [hpeek, ok_bind]
  dsimp only
  by_cases hp : peekToks r'.2 [chr '|'] = true
  · rw [if_pos hp, if_pos hp, htok, ok_bind]
    exact (ih.pipe _ _ h2).bind fun r2 r2' hr2 => ⟨.pipe hr.1 hr2.1, hr2.2⟩
  · rw [if_neg hp, if_neg hp]
    exact ⟨hr.1, h1⟩

theorem parseexec_agrees (hb : 0 ∉ b) (ih : ParseAgrees b n) (h : At b s ts) :
    Agrees (Parsed b) (parseexec b b.length (n + 1) s) (execToks (n + 1) ts) := by
  obtain ⟨s1, hpeek, h1, -⟩ := peek_at hb h [chr '('] (by decide)
  rw [parseexec, hpeek, ok_bind, execToks]
  dsimp only
  by_cases hp : peekToks ts [chr '('] = true
  · rw [if_pos hp, if_pos hp]
    exact ih.block _ _ h1
  · rw [if_neg hp, if_neg hp]
    refine (parseredirs_agrees hb (.exec .nil) h1).bind fun r r' hr => ?_
    exact parseargs_agrees hb hr.1 hr.2

theorem parseblock_agrees (hb : 0 ∉ b) (ih : ParseAgrees b n) (h : At b s ts) :
    Agrees (Parsed b) (parseblock b b.length (n + 1) s) (blockToks (n + 1) ts) := by
  obtain ⟨s1, hpeek, h1, -⟩ := peek_at hb h [chr '('] (by decide)
  obtain ⟨tok, htok, -, h2, -⟩ := gettoken_at hb h1
  rw [parseblock, hpeek, ok_bind, blockToks]
  dsimp only
  by_cases hp : peekToks ts [chr '('] = true
  · rw [if_pos hp, if_pos hp, htok, ok_bind]
    refine (ih.line _ _ h2).bind fun r r' hr => ?_
    obtain ⟨s3, hpeek', h3, -⟩ := peek_at hb hr.2 [chr ')'] (by decide)
    obtain ⟨tok', htok', -, h4, -⟩ := gettoken_at hb h3
    rw [hpeek', ok_bind]
    dsimp only
    by_cases hq : peekToks r'.2 [chr ')'] = true
    · rw [if_pos hq, if_pos hq, htok', ok_bind]
      exact parseredirs_agrees hb hr.1 h4
    · rw [if_neg hq, if_neg hq]
      exact rfl
  · rw [if_neg hp, if_neg hp]
    exact rfl

/-- **The parser on the string does what the parser on its tokens does.** -/
theorem parse_agrees (hb : 0 ∉ b) (n : ℕ) : ParseAgrees b n := by
  induction n with
  | zero =>
    refine ⟨fun s ts _ => ?_, fun s ts _ => ?_, fun s ts _ => ?_, fun s ts _ => ?_⟩
    · rw [parseline, lineToks]; rfl
    · rw [parsepipe, pipeToks]; rfl
    · rw [parseexec, execToks]; rfl
    · rw [parseblock, blockToks]; rfl
  | succ n ih =>
    exact ⟨fun _ _ h => parseline_agrees hb ih h, fun _ _ h => parsepipe_agrees hb ih h,
      fun _ _ h => parseexec_agrees hb ih h, fun _ _ h => parseblock_agrees hb ih h⟩

/-! ### C strings -/

/-- The ends of the words of a command. -/
def Tree.ends : Tree → List ℕ
  | .exec argv => argv.map Prod.snd
  | .redir cmd file _ _ => cmd.ends ++ [file.2]
  | .pipe left right | .list left right => left.ends ++ right.ends
  | .back cmd => cmd.ends

/-- The pointers to the words of a command: the arguments and the file names. -/
def Tree.words : Tree → List (ℕ × ℕ)
  | .exec argv => argv
  | .redir cmd file _ _ => cmd.words ++ [file]
  | .pipe left right | .list left right => left.words ++ right.words
  | .back cmd => cmd.words

theorem Tree.ends_eq (t : Tree) : t.ends = t.words.map Prod.snd := by
  induction t with
  | exec argv => rfl
  | redir cmd file mode fd ih => simp [Tree.ends, Tree.words, ih]
  | pipe left right ihl ihr => simp [Tree.ends, Tree.words, ihl, ihr]
  | list left right ihl ihr => simp [Tree.ends, Tree.words, ihl, ihr]
  | back cmd ih => rw [Tree.ends, Tree.words, ih]

theorem nulterminate_eq (t : Tree) (m : List UInt8) :
    nulterminate t m = t.ends.foldl (fun m e => m.set e 0) m := by
  induction t generalizing m with
  | exec argv => rw [nulterminate, Tree.ends, List.foldl_map]
  | redir cmd file mode fd ih => rw [nulterminate, Tree.ends, List.foldl_append, ih]; rfl
  | pipe left right ihl ihr => rw [nulterminate, Tree.ends, List.foldl_append, ihl, ihr]
  | list left right ihl ihr => rw [nulterminate, Tree.ends, List.foldl_append, ihl, ihr]
  | back cmd ih => rw [nulterminate, Tree.ends, ih]

/-- Writing NULs at some places. -/
theorem getElem?_foldl_set (es : List ℕ) (m : List UInt8) (i : ℕ) :
    (es.foldl (fun m e => m.set e 0) m)[i]? = if i ∈ es then m[i]?.map (fun _ => 0) else m[i]? := by
  induction es generalizing m with
  | nil => rfl
  | cons e es ih =>
    rw [List.foldl_cons, ih, List.getElem?_set]
    by_cases hi : i ∈ es
    · rw [if_pos hi, if_pos (List.mem_cons_of_mem _ hi)]
      split_ifs with he hlt
      · rw [← he, List.getElem?_eq_getElem hlt]
        rfl
      · rw [← he, List.getElem?_eq_none (Nat.le_of_not_lt hlt)]
      · rfl
    · rw [if_neg hi]
      obtain rfl | he := eq_or_ne e i
      · rw [if_pos rfl, if_pos List.mem_cons_self]
        split_ifs with hlt
        · rw [List.getElem?_eq_getElem hlt]
          rfl
        · rw [List.getElem?_eq_none (Nat.le_of_not_lt hlt)]
          rfl
      · rw [if_neg he, if_neg (fun h => (List.mem_cons.mp h).elim (fun h => he h.symm) hi)]

variable {m : List UInt8}

/-- A C string is what stands before the first NUL. -/
theorem cstr_eq {q : ℕ} (hw : 0 ∉ w) (hbytes : ∀ k (hk : k < w.length), m[q + k]? = some w[k])
    (hend : m[q + w.length]? = some 0) : cstr m q = w := by
  induction w generalizing q with
  | nil =>
    have hend : m[q]? = some 0 := hend
    obtain ⟨hlt, hzero⟩ := List.getElem?_eq_some_iff.mp hend
    unfold cstr
    rw [List.drop_eq_getElem_cons hlt, List.takeWhile_cons_of_neg (by simp [hzero])]
  | cons c w ih =>
    have hfirst : m[q]? = some c := hbytes 0 (by simp)
    obtain ⟨hlt, hc⟩ := List.getElem?_eq_some_iff.mp hfirst
    have hne : c ≠ 0 := fun h => hw (h ▸ List.mem_cons_self)
    have hrest : cstr m (q + 1) = w := by
      refine ih (fun h => hw (List.mem_cons_of_mem _ h)) (fun k hk => ?_) ?_
      · have := hbytes (k + 1) (by simpa using hk)
        rwa [show q + (k + 1) = q + 1 + k by omega] at this
      · rwa [List.length_cons, show q + (w.length + 1) = q + 1 + w.length by omega] at hend
    unfold cstr at hrest ⊢
    rw [List.drop_eq_getElem_cons hlt, List.takeWhile_cons_of_pos (by simp [hc, hne]), hrest, hc]

theorem Span.not_end {p p' : ℕ × ℕ} {w w' : Word} (h : Span b p w) (h' : Span b p' w') {k : ℕ}
    (hk : k < w.length) : p.1 + k ≠ p'.2 := by
  intro heq
  have hlt : p.1 + k < b.length := by
    have := h.len
    have := h.le
    omega
  have hbyte : b[p.1 + k]? = some w[k] := by
    have hget := h.bytes.getElem hk
    rw [List.getElem_drop] at hget
    rw [List.getElem?_eq_getElem hlt, hget]
  rw [heq] at hbyte
  have := h'.stop _ hbyte
  rw [h.word _ (List.getElem_mem hk)] at this
  cases this

theorem exists_span {argv : List (ℕ × ℕ)} {ws : List Word} (h : List.Forall₂ (Span b) argv ws)
    (hp : p ∈ argv) : ∃ w, Span b p w := by
  induction h with
  | nil => cases hp
  | cons hspan _ ih =>
    rcases List.mem_cons.mp hp with rfl | hp
    · exact ⟨_, hspan⟩
    · exact ih hp

theorem Spells.words (h : Spells b t c) : ∀ p ∈ t.words, ∃ w, Span b p w := by
  induction h with
  | exec h => exact fun p hp => exists_span h hp
  | redir h hf ih =>
    intro p hp
    rcases List.mem_append.mp hp with hp | hp
    · exact ih p hp
    · rw [List.mem_singleton.mp hp]
      exact ⟨_, hf⟩
  | pipe hl hr ihl ihr => exact fun p hp => (List.mem_append.mp hp).elim (ihl p) (ihr p)
  | list hl hr ihl ihr => exact fun p hp => (List.mem_append.mp hp).elim (ihl p) (ihr p)
  | back h ih => exact ih

theorem Spells.kept (h : Spells b t c) (hspan : Span b p w) {i : ℕ} (hi : p.1 ≤ i)
    (hlt : i < p.2) : (nulterminate t (b ++ [0]))[i]? = (b ++ [0])[i]? := by
  have hlen := hspan.len
  have hnot : i ∉ t.ends := by
    intro hmem
    rw [t.ends_eq] at hmem
    obtain ⟨p', hp', heq⟩ := List.mem_map.mp hmem
    obtain ⟨w', hspan'⟩ := h.words p' hp'
    exact hspan.not_end hspan' (show i - p.1 < w.length by omega) (by omega)
  rw [nulterminate_eq, getElem?_foldl_set, if_neg hnot]

theorem nulterminate_end (hle : p.2 ≤ b.length) (hend : p.2 ∈ t.ends) :
    (nulterminate t (b ++ [0]))[p.2]? = some 0 := by
  have hlt : p.2 < (b ++ [0]).length := by
    rw [List.length_append, List.length_singleton]
    omega
  rw [nulterminate_eq, getElem?_foldl_set, if_pos hend, List.getElem?_eq_getElem hlt]
  rfl

theorem cstr_nulterminate (hb : 0 ∉ b) (h : Spells b t c)
    (hspan : Span b p w) (hend : p.2 ∈ t.ends) : cstr (nulterminate t (b ++ [0])) p.1 = w := by
  have hlen := hspan.len
  have hle := hspan.le
  refine cstr_eq (fun h0 => hb ?_) (fun k hk => ?_) ?_
  · exact List.mem_of_mem_drop (hspan.bytes.subset h0)
  · have hget := hspan.bytes.getElem hk
    rw [List.getElem_drop] at hget
    rw [h.kept hspan (by omega) (by omega), List.getElem?_append_left (by omega),
      List.getElem?_eq_getElem (by omega), hget]
  · rw [hlen]
    exact nulterminate_end hle hend

/-- The command, or a part of one, once its words are C strings. -/
theorem Spells.read (h : Spells b t c)
    (hm : ∀ p w, Span b p w → p.2 ∈ t.ends → cstr m p.1 = w) : t.read m = c := by
  induction h with
  | @exec argv ws h =>
    rw [Tree.read]
    congr 1
    induction h with
    | nil => rfl
    | @cons p w argv ws hspan h ih =>
      rw [List.map_cons, hm p w hspan List.mem_cons_self,
        ih fun p' w' hp' he => hm p' w' hp' (List.mem_cons_of_mem _ he)]
  | @redir t c p w mode fd h hf ih =>
    rw [Tree.read, hm p w hf (List.mem_append_right _ (List.mem_singleton.mpr rfl)),
      ih fun p' w' hp' he => hm p' w' hp' (List.mem_append_left _ he)]
  | pipe hl hr ihl ihr =>
    rw [Tree.read, ihl fun p w hp he => hm p w hp (List.mem_append_left _ he),
      ihr fun p w hp he => hm p w hp (List.mem_append_right _ he)]
  | list hl hr ihl ihr =>
    rw [Tree.read, ihl fun p w hp he => hm p w hp (List.mem_append_left _ he),
      ihr fun p w hp he => hm p w hp (List.mem_append_right _ he)]
  | back h ih => rw [Tree.read, ih hm]

theorem read_nulterminate (hb : 0 ∉ b) (h : Spells b t c) :
    t.read (nulterminate t (b ++ [0])) = c :=
  h.read fun _ _ hspan hend => cstr_nulterminate hb h hspan hend

/-! ### Lines -/

theorem parsecmd_agrees (hb : 0 ∉ b) (hn : b.length < n) :
    Agrees (fun r c => Spells b r.1 c ∧ r.2 = nulterminate r.1 (b ++ [0])) (parsecmd n b) (do
      let (c, rest) ← lineToks n (lex b)
      if rest = [] then return c else .error (.panic "syntax")) := by
  have hstart : At b 0 (lex b) := ⟨Nat.zero_le _, rfl⟩
  rw [parsecmd, strlenFrom_eq hb (Nat.zero_le _) (by omega), ok_bind]
  refine ((parse_agrees hb n).line 0 (lex b) hstart).bind fun r r' hr => ?_
  obtain ⟨s, hpeek, -, hend⟩ := peek_at hb hr.2 [] rfl
  dsimp only
  rw [hpeek, ok_bind]
  dsimp only
  by_cases hnil : r'.2 = []
  · rw [if_neg (not_not.mpr (hend.mpr hnil)), if_pos hnil]
    exact ⟨hr.1, rfl⟩
  · rw [if_pos (fun h => hnil (hend.mp h)), if_neg hnil]
    exact rfl

/-- `parsecmd` returns a command when the tokens of the line are all parsed. -/
theorem parsecmd_ok_iff (hb : 0 ∉ b) (hn : b.length < n) :
    (∃ t m, parsecmd n b = .ok (t, m) ∧ t.read m = c) ↔ lineToks n (lex b) = .ok (c, []) := by
  -- the two parsers agree, and reading undoes `nulterminate`
  have hagree := parsecmd_agrees hb hn
  constructor
  · rintro ⟨t, m, hp, hread⟩
    rw [hp] at hagree
    cases hl : lineToks n (lex b) with
    | error e =>
      rw [hl] at hagree
      exact hagree.elim
    | ok r =>
      obtain ⟨c', rest⟩ := r
      rw [hl, ok_bind] at hagree
      dsimp only at hagree
      by_cases hnil : rest = []
      · rw [if_pos hnil] at hagree
        obtain ⟨hspells, hm⟩ : Spells b t c' ∧ m = nulterminate t (b ++ [0]) := hagree
        rw [hnil, ← hread, hm, read_nulterminate hb hspells]
      · rw [if_neg hnil] at hagree
        exact hagree.elim
  · intro hl
    rw [hl, ok_bind] at hagree
    dsimp only at hagree
    rw [if_pos rfl] at hagree
    cases hp : parsecmd n b with
    | error e =>
      rw [hp] at hagree
      exact hagree.elim
    | ok r =>
      rw [hp] at hagree
      refine ⟨r.1, r.2, rfl, ?_⟩
      rw [hagree.2, read_nulterminate hb hagree.1]

theorem parsecmd_settles (hb : 0 ∉ b) (hn : 4 * b.length + 4 ≤ n) : Settles (parsecmd n b) := by
  have hagree := parsecmd_agrees hb (show b.length < n by omega)
  have hlen := lex_length b
  have hsettles : Settles (lineToks n (lex b)) :=
    settles (N := .line) (by simp only [Nonterminal.depth]; omega)
  intro e he
  rw [he] at hagree
  cases hl : lineToks n (lex b) with
  | error e' =>
    rw [hl] at hagree
    obtain ⟨msg, rfl⟩ := hsettles e' hl
    exact ⟨msg, hagree⟩
  | ok r =>
    rw [hl, ok_bind] at hagree
    dsimp only at hagree
    by_cases hnil : r.2 = []
    · rw [if_pos hnil] at hagree
      exact hagree.elim
    · rw [if_neg hnil] at hagree
      exact ⟨_, hagree⟩

theorem parsecmd_spells (hb : 0 ∉ b) (hn : b.length < n) (h : parsecmd n b = .ok (t, m)) :
    Spells b t (t.read m) ∧ m = nulterminate t (b ++ [0]) := by
  have hl := (parsecmd_ok_iff hb hn).mp ⟨t, m, h, rfl⟩
  have hagree := parsecmd_agrees hb hn
  rw [h, hl] at hagree
  exact hagree

/-- **The words of an accepted line are C strings.**  Each argument and each file name of the
command points to a whole word of the line, and the C string there is that word; the bytes that
`nulterminate` has changed are inside no word; and the words make up the command that the grammar
derives from the tokens of the line. -/
theorem words_of_parsecmd (hb : 0 ∉ b) (hn : b.length < n) (h : parsecmd n b = .ok (t, m)) :
    (∀ p ∈ t.words, ∃ w, Span b p w ∧ cstr m p.1 = w ∧ m[p.2]? = some 0) ∧
      (∀ i, m[i]? ≠ (b ++ [0])[i]? → ∀ p ∈ t.words, ¬(p.1 ≤ i ∧ i < p.2)) ∧
      Derives .line (lex b) (t.read m) := by
  obtain ⟨hspells, hm⟩ := parsecmd_spells hb hn h
  refine ⟨fun p hp => ?_, fun i hi p hp hin => ?_, ?_⟩
  · obtain ⟨w, hspan⟩ := hspells.words p hp
    have hend : p.2 ∈ t.ends := by
      rw [t.ends_eq]
      exact List.mem_map_of_mem hp
    rw [hm]
    exact ⟨w, hspan, cstr_nulterminate hb hspells hspan hend, nulterminate_end hspan.le hend⟩
  · obtain ⟨w, hspan⟩ := hspells.words p hp
    rw [hm] at hi
    exact hi (hspells.kept hspan hin.1 hin.2)
  · obtain ⟨pre, hpre, hd⟩ := sound n .line _ _ _ ((parsecmd_ok_iff hb hn).mp ⟨t, m, h, rfl⟩)
    rwa [hpre, List.append_nil]

/-- The line `a>b|c`, whose words stand next to operators. -/
theorem words_of_parsecmd_abut : ∃ t m, parsecmd 40 [97, 62, 98, 124, 99] = .ok (t, m) ∧
    t.words = [(0, 1), (2, 3), (4, 5)] ∧ m = [97, 0, 98, 0, 99, 0] ∧
    ∀ p ∈ t.words, ∃ w, Span [97, 62, 98, 124, 99] p w ∧ cstr m p.1 = w ∧ m[p.2]? = some 0 := by
  have hp : parsecmd 40 [97, 62, 98, 124, 99] =
      .ok (.pipe (.redir (.exec [(0, 1)]) (2, 3) 1537 1) (.exec [(4, 5)]), [97, 0, 98, 0, 99, 0]) :=
    by decide +kernel
  exact ⟨_, _, hp, by decide, rfl, (words_of_parsecmd (by decide) (by decide) hp).1⟩

theorem parsecmd_standard (hb : 0 ∉ b) (hn : b.length < n)
    (h : parsecmd n b = .ok (t, m)) : (t.read m).Standard := by
  have hl := (parsecmd_ok_iff hb hn).mp ⟨t, m, h, rfl⟩
  obtain ⟨pre, -, hd⟩ := sound n .line _ _ _ hl
  exact hd.standard

/-- **`parsecmd` accepts the grammar.**  On every string it comes to an end without reading
outside the string and its terminator, and it returns a command, instead of a panic, exactly
when the grammar derives the string; the command is the one of the derivation. -/
theorem parsecmd_accepts (hb : 0 ∉ b) (hn : 4 * b.length + 4 ≤ n) :
    Settles (parsecmd n b) ∧
      ∀ c, (∃ t m, parsecmd n b = .ok (t, m) ∧ t.read m = c) ↔ Derives .line (lex b) c := by
  refine ⟨parsecmd_settles hb hn, fun c => ?_⟩
  have hlen := lex_length b
  rw [parsecmd_ok_iff hb (by omega)]
  constructor
  · intro hl
    obtain ⟨pre, hpre, hd⟩ := sound n .line _ _ _ hl
    rwa [hpre, List.append_nil]
  · intro hd
    have hl : parseToks .line n (lex b ++ []) = .ok (c, []) :=
      complete hd nofun (by simp only [Nonterminal.depth]; omega)
    rwa [List.append_nil] at hl

/-- The line `a|b`, whose words are C strings after the parse. -/
theorem parsecmd_accepts_pipe :
    parsecmd 16 [97, 124, 98] = .ok (.pipe (.exec [(0, 1)]) (.exec [(2, 3)]), [97, 0, 98, 0]) ∧
      Derives .line (lex [97, 124, 98]) (.pipe (.exec [[97]]) (.exec [[98]])) := by
  have hp : parsecmd 16 [97, 124, 98] =
      .ok (.pipe (.exec [(0, 1)]) (.exec [(2, 3)]), [97, 0, 98, 0]) := by decide +kernel
  have hb : (0 : UInt8) ∉ [97, 124, 98] := by decide
  exact ⟨hp, ((parsecmd_accepts hb (by decide)).2 _).mp ⟨_, _, hp, by decide⟩⟩

end Xv6.Shell
