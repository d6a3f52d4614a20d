import Xv6.Shell.Scan

/-!
# The descriptors of the processes of a command

Every process that enters `runcmd` has exactly the descriptors 0, 1 and 2 open.
From there its calls are known up to the next `runcmd`, and so are the slots
they use: a pipe takes 3 and 4, and a `dup` or `open` after a `close` takes the
slot just freed.  What a process may hold depends on where it is in the command
tree: the write end of a pipe belongs to the left subtree of its node and the
read end to the right one, and other processes hold an end only as long as they
run the node itself and have calls of `close` before them.

Both are properties of one process at a time, carried by `Ok`: the rest of its
calls, made from its table, keep to them.

## Main definitions

* `Belongs` — a file may be held by the processes of a subtree.
* `Ok` — a process that has some code before it is fine, and stays so.

## Main results

* `ok_runcmd` — **the code of every command is fine** from a standard table.
* `Inv.step` — a step of one process keeps all processes fine.
* `descriptors_of_commands`, `programs_of_line` — descriptors of every process of a command.
-/

namespace Xv6.Shell

/-! ### Who may hold what -/

/-- The subtree that keeps an end of a pipe. -/
def side (write : Bool) : Branch := if write then .left else .right

/-- The file may be held by the processes of the subtree `home`. -/
def Belongs (pipes : List Pos) (home : Pos) : File → Prop
  | .pipe n w => ∃ q, pipes[n]? = some q ∧ q ++ [side w] <+: home
  | .other => True

/-- One of the ends of a pipe made for `node`. -/
def EndAt (pipes : List Pos) (node : Pos) (f : File) : Prop :=
  ∃ n w, f = .pipe n w ∧ pipes[n]? = some node

/-- What holds of the table of a process all the time. -/
structure Fine (pipes : List Pos) (node home : Pos) (closing : Bool) (o : Ofile) : Prop where
  few : o.countP (·.isSome) ≤ 5
  held : ∀ f, some f ∈ o → Belongs pipes home f ∨ closing = true ∧ EndAt pipes node f

/-- Descriptors 0, 1 and 2 are open, on files that belong to `home`, and no others. -/
def Standard (pipes : List Pos) (home : Pos) (o : Ofile) : Prop :=
  ∃ f0 f1 f2, o = standard f0 f1 f2 ∧
    Belongs pipes home f0 ∧ Belongs pipes home f1 ∧ Belongs pipes home f2

/-- The process that runs `node` is fine, and so it will be after each of its calls. -/
def Ok (node : Pos) : Code → List Pos → Pos → Ofile → ℕ × ℕ → Prop
  | .close a k, pipes, home, o, p =>
      Fine pipes node home true o ∧ Ok node k pipes home (close o (a.fd p)) p
  | .dup a meant k, pipes, home, o, p =>
      Fine pipes node home k.closing o ∧
        ∃ o', dup o (a.fd p) = some (meant, o') ∧ Ok node k pipes home o' p
  | .openFile _ _ meant k, pipes, home, o, p =>
      Fine pipes node home k.closing o ∧
        ∃ o', fdalloc o .other = some (meant, o') ∧ Ok node k pipes home o' p
  -- other processes may make pipes before
  | .pipe k, pipes, home, o, _ =>
      Fine pipes node home k.closing o ∧ ∀ pipes', pipes <+: pipes' →
        ∃ p o', pipe o pipes'.length = some (p, o') ∧ Ok node k (pipes' ++ [node]) home o' p
  | .fork b child k, pipes, home, o, p =>
      Fine pipes node home k.closing o ∧ Ok node child pipes (node ++ [b]) o p ∧
        Ok node k pipes home o p
  | .wait k, pipes, home, o, p => Fine pipes node home k.closing o ∧ Ok node k pipes home o p
  | .exec _ k, pipes, home, o, p =>
      Fine pipes node home k.closing o ∧ Standard pipes home o ∧ Ok node k pipes home o p
  | .exit, pipes, home, o, _ => Fine pipes node home false o
  | .runcmd cmd b, pipes, home, o, _ =>
      Fine pipes node home false o ∧ cmd.Standard ∧ Standard pipes (node ++ [b]) o

/-! ### More pipes and smaller subtrees -/

variable {pipes pipes' : List Pos} {node home home' : Pos} {o : Ofile} {p : ℕ × ℕ} {c : Bool}

theorem getElem?_mono {n : ℕ} {q : Pos} (hp : pipes <+: pipes') (h : pipes[n]? = some q) :
    pipes'[n]? = some q := by
  obtain ⟨more, rfl⟩ := hp
  have hn : n < pipes.length := (List.getElem?_eq_some_iff.mp h).1
  rwa [List.getElem?_append_left hn]

variable {f : File}

theorem Belongs.mono (h : Belongs pipes home f) (hp : pipes <+: pipes')
    (hh : home <+: home') : Belongs pipes' home' f := by
  cases f with
  | pipe n w =>
    obtain ⟨q, hq, hin⟩ := h
    exact ⟨q, getElem?_mono hp hq, hin.trans hh⟩
  | other => trivial

theorem EndAt.mono (h : EndAt pipes node f) (hp : pipes <+: pipes') : EndAt pipes' node f := by
  obtain ⟨n, w, rfl, hn⟩ := h
  exact ⟨n, w, rfl, getElem?_mono hp hn⟩

theorem Fine.mono (h : Fine pipes node home c o) (hp : pipes <+: pipes') :
    Fine pipes' node home c o := by
  refine ⟨h.few, fun f hf => ?_⟩
  rcases h.held f hf with hb | ⟨hc, he⟩
  · exact Or.inl (hb.mono hp List.prefix_rfl)
  · exact Or.inr ⟨hc, he.mono hp⟩

theorem Standard.mono (h : Standard pipes home o) (hp : pipes <+: pipes') (hh : home <+: home') :
    Standard pipes' home' o := by
  obtain ⟨f0, f1, f2, rfl, h0, h1, h2⟩ := h
  exact ⟨f0, f1, f2, rfl, h0.mono hp hh, h1.mono hp hh, h2.mono hp hh⟩

variable {code : Code}

/-- Pipes that others make do not matter. -/
theorem Ok.mono (h : Ok node code pipes home o p) (hp : pipes <+: pipes') :
    Ok node code pipes' home o p := by
  induction code generalizing home o p with
  | close a k ih => exact ⟨h.1.mono hp, ih h.2⟩
  | dup a meant k ih =>
    obtain ⟨hf, o', hd, hk⟩ := h
    exact ⟨hf.mono hp, o', hd, ih hk⟩
  | openFile file mode meant k ih =>
    obtain ⟨hf, o', hd, hk⟩ := h
    exact ⟨hf.mono hp, o', hd, ih hk⟩
  | pipe k ih => exact ⟨h.1.mono hp, fun pipes'' hp' => h.2 pipes'' (hp.trans hp')⟩
  | fork b child k ihc ihk => exact ⟨h.1.mono hp, ihc h.2.1, ihk h.2.2⟩
  | wait k ih => exact ⟨h.1.mono hp, ih h.2⟩
  | exec argv k ih => exact ⟨h.1.mono hp, h.2.1.mono hp List.prefix_rfl, ih h.2.2⟩
  | exit => exact Fine.mono h hp
  | runcmd cmd b => exact ⟨h.1.mono hp, h.2.1, h.2.2.mono hp List.prefix_rfl⟩

theorem Ok.fine (h : Ok node code pipes home o p) : Fine pipes node home code.closing o := by
  cases code with
  | exit => exact h
  | _ => exact h.1

/-! ### Tables -/

/-- A table where only the first five slots may be in use. -/
def slots (x0 x1 x2 x3 x4 : Option File) : Ofile :=
  x0 :: x1 :: x2 :: x3 :: x4 :: List.replicate (NOFILE - 5) none

theorem count_slots (x0 x1 x2 x3 x4 : Option File) :
    (slots x0 x1 x2 x3 x4).countP (·.isSome) ≤ 5 := by
  have hone : ∀ x : Option File, (if x.isSome = true then 1 else 0) ≤ 1 := by
    intro x
    split <;> decide
  have h0 := hone x0
  have h1 := hone x1
  have h2 := hone x2
  have h3 := hone x3
  have h4 := hone x4
  unfold slots
  simp only [List.countP_cons, List.countP_replicate, Option.isSome_none, Bool.false_eq_true,
    if_false]
  omega

variable {x0 x1 x2 x3 x4 : Option File}

theorem mem_slots :
    some f ∈ slots x0 x1 x2 x3 x4 ↔
      x0 = some f ∨ x1 = some f ∨ x2 = some f ∨ x3 = some f ∨ x4 = some f := by
  unfold slots
  simp [eq_comm]

theorem fine_slots
    (h : ∀ x ∈ [x0, x1, x2, x3, x4], ∀ f, x = some f →
      Belongs pipes home f ∨ c = true ∧ EndAt pipes node f) :
    Fine pipes node home c (slots x0 x1 x2 x3 x4) := by
  refine ⟨count_slots .., fun f hf => ?_⟩
  rcases mem_slots.mp hf with hx | hx | hx | hx | hx
  all_goals exact h _ (by simp) f hx

/-! ### The code of a command -/

variable {f0 f1 f2 : File}

theorem fine_standard (h0 : Belongs pipes home f0) (h1 : Belongs pipes home f1)
    (h2 : Belongs pipes home f2) : Fine pipes node home c (standard f0 f1 f2) := by
  show Fine pipes node home c (slots (some f0) (some f1) (some f2) none none)
  refine fine_slots fun x hx f hf => ?_
  left
  simp only [List.mem_cons, List.not_mem_nil, or_false] at hx
  rcases hx with rfl | rfl | rfl | rfl | rfl
  · cases hf; exact h0
  · cases hf; exact h1
  · cases hf; exact h2
  · cases hf
  · cases hf

theorem fine_closing {n : ℕ} (h0 : Belongs pipes home f0)
    (h1 : Belongs pipes home f1) (h2 : Belongs pipes home f2) (hn : pipes[n]? = some node)
    (hx : ∀ x ∈ [x0, x1, x2, x3, x4],
      x ∈ [none, some f0, some f1, some f2, some (.pipe n false), some (.pipe n true)]) :
    Fine pipes node home true (slots x0 x1 x2 x3 x4) := by
  refine fine_slots fun x hmem f hf => ?_
  have hx := hx x hmem
  subst hf
  simp only [List.mem_cons, List.not_mem_nil, or_false, Option.some.injEq, reduceCtorEq,
    false_or] at hx
  rcases hx with rfl | rfl | rfl | rfl | rfl
  · exact Or.inl h0
  · exact Or.inl h1
  · exact Or.inl h2
  · exact Or.inr ⟨rfl, n, false, rfl, hn⟩
  · exact Or.inr ⟨rfl, n, true, rfl, hn⟩

variable {cmd : Cmd}

/-- A redirection replaces one of the standard descriptors. -/
theorem ok_redir {file : Word} {mode fd : ℕ} (hfd : fd < 3) (hc : cmd.Standard)
    (h0 : Belongs pipes node f0) (h1 : Belongs pipes node f1) (h2 : Belongs pipes node f2) :
    Ok node (runcmd (.redir cmd file mode fd)) pipes node (standard f0 f1 f2) p := by
  have hsub : node <+: node ++ [.sub] := List.prefix_append _ _
  have up : ∀ {f}, Belongs pipes node f → Belongs pipes (node ++ [.sub]) f :=
    fun h => h.mono List.prefix_rfl hsub
  have hfine : ∀ {g0 g1 g2}, Belongs pipes node g0 → Belongs pipes node g1 →
      Belongs pipes node g2 → Ok node (.runcmd cmd .sub) pipes node (standard g0 g1 g2) p :=
    fun b0 b1 b2 => ⟨fine_standard b0 b1 b2, hc, _, _, _, rfl, up b0, up b1, up b2⟩
  -- with one of the three closed
  have hgap : ∀ {x0 x1 x2 : Option File}, (x0 = none ∨ x0 = some f0) → (x1 = none ∨ x1 = some f1) →
      (x2 = none ∨ x2 = some f2) → Fine pipes node node false (slots x0 x1 x2 none none) := by
    intro x0 x1 x2 e0 e1 e2
    refine fine_slots fun x hx f hf => Or.inl ?_
    simp only [List.mem_cons, List.not_mem_nil, or_false] at hx
    rcases hx with rfl | rfl | rfl | rfl | rfl
    · rcases e0 with e | e <;> rw [e] at hf <;> cases hf
      exact h0
    · rcases e1 with e | e <;> rw [e] at hf <;> cases hf
      exact h1
    · rcases e2 with e | e <;> rw [e] at hf <;> cases hf
      exact h2
    · cases hf
    · cases hf
  refine ⟨fine_standard h0 h1 h2, ?_⟩
  obtain rfl | rfl | rfl : fd = 0 ∨ fd = 1 ∨ fd = 2 := by omega
  · exact ⟨hgap (Or.inl rfl) (Or.inr rfl) (Or.inr rfl), _, rfl, hfine trivial h1 h2⟩
  · exact ⟨hgap (Or.inr rfl) (Or.inl rfl) (Or.inr rfl), _, rfl, hfine h0 trivial h2⟩
  · exact ⟨hgap (Or.inr rfl) (Or.inr rfl) (Or.inl rfl), _, rfl, hfine h0 h1 trivial⟩

/-- A pipe takes descriptors 3 and 4; each child moves its end to a standard descriptor, and
everybody closes the two. -/
theorem ok_pipe {left right : Cmd} (hl : left.Standard) (hr : right.Standard)
    (h0 : Belongs pipes node f0) (h1 : Belongs pipes node f1) (h2 : Belongs pipes node f2) :
    Ok node (runcmd (.pipe left right)) pipes node (standard f0 f1 f2) p := by
  refine ⟨fine_standard h0 h1 h2, fun pipes' hp => ⟨(3, 4), _, rfl, ?_⟩⟩
  have hp' : pipes <+: pipes' ++ [node] := hp.trans (List.prefix_append _ _)
  have hn : (pipes' ++ [node])[pipes'.length]? = some node := by simp
  generalize pipes' ++ [node] = made at hp' hn
  generalize pipes'.length = n at hn
  -- the standard files belong to the node and to every subtree of it
  have up : ∀ {f b}, Belongs pipes node f → Belongs made (node ++ [b]) f :=
    fun h => h.mono hp' (List.prefix_append _ _)
  have here : ∀ {f}, Belongs pipes node f → Belongs made node f :=
    fun h => h.mono hp' List.prefix_rfl
  have hw : Belongs made (node ++ [.left]) (.pipe n true) := ⟨node, hn, List.prefix_rfl⟩
  have hrd : Belongs made (node ++ [.right]) (.pipe n false) := ⟨node, hn, List.prefix_rfl⟩
  -- the table of a process of a child's subtree, or of the node itself, while it closes
  have child : ∀ {b x0 x1 x2 x3 x4}, (∀ x ∈ [x0, x1, x2, x3, x4],
      x ∈ [none, some f0, some f1, some f2, some (File.pipe n false), some (File.pipe n true)]) →
      Fine made node (node ++ [b]) true (slots x0 x1 x2 x3 x4) :=
    fun hx => fine_closing (up h0) (up h1) (up h2) hn hx
  have parent : ∀ {x0 x1 x2 x3 x4}, (∀ x ∈ [x0, x1, x2, x3, x4],
      x ∈ [none, some f0, some f1, some f2, some (File.pipe n false), some (File.pipe n true)]) →
      Fine made node node true (slots x0 x1 x2 x3 x4) :=
    fun hx => fine_closing (here h0) (here h1) (here h2) hn hx
  have hparent : Fine made node node false (standard f0 f1 f2) :=
    fine_standard (here h0) (here h1) (here h2)
  refine ⟨parent (by simp), ?_, parent (by simp), ?_, ?_⟩
  · -- close(1); dup(p[1]); close(p[0]); close(p[1]); runcmd(left)
    refine ⟨child (by simp), child (by simp), _, rfl, child (by simp), child (by simp), ?_⟩
    exact ⟨fine_standard (up h0) hw (up h2), hl, _, _, _, rfl, up h0, hw, up h2⟩
  · -- close(0); dup(p[0]); close(p[0]); close(p[1]); runcmd(right)
    refine ⟨child (by simp), child (by simp), _, rfl, child (by simp), child (by simp), ?_⟩
    exact ⟨fine_standard hrd (up h1) (up h2), hr, _, _, _, rfl, hrd, up h1, up h2⟩
  · exact ⟨parent (by simp), parent (by simp), hparent, hparent, hparent⟩

/-- **The code of every command is fine** from a standard table. -/
theorem ok_runcmd (hc : cmd.Standard) (ho : Standard pipes node o) :
    Ok node (runcmd cmd) pipes node o p := by
  obtain ⟨f0, f1, f2, rfl, h0, h1, h2⟩ := ho
  have hfine : ∀ c, Fine pipes node node c (standard f0 f1 f2) := fun c => fine_standard h0 h1 h2
  have up : ∀ {f b}, Belongs pipes node f → Belongs pipes (node ++ [b]) f :=
    fun h => h.mono List.prefix_rfl (List.prefix_append _ _)
  have hchild : ∀ b c, Fine pipes node (node ++ [b]) c (standard f0 f1 f2) :=
    fun b c => fine_standard (up h0) (up h1) (up h2)
  have hstd : ∀ b, Standard pipes (node ++ [b]) (standard f0 f1 f2) :=
    fun b => ⟨f0, f1, f2, rfl, up h0, up h1, up h2⟩
  cases cmd with
  | exec argv =>
    rw [runcmd]
    split_ifs
    · exact hfine false
    · exact ⟨hfine _, ⟨f0, f1, f2, rfl, h0, h1, h2⟩, hfine false⟩
  | redir cmd file mode fd => exact ok_redir hc.1 hc.2 h0 h1 h2
  | pipe left right => exact ok_pipe hc.1 hc.2 h0 h1 h2
  | list left right =>
    exact ⟨hfine _, ⟨hchild _ _, hc.1, hstd _⟩, hfine _, hfine _, hc.2, hstd _⟩
  | back cmd => exact ⟨hfine _, ⟨hchild _ _, hc, hstd _⟩, hfine _⟩

/-! ### All processes -/

/-- The process is fine. -/
def Proc.Ok (pipes : List Pos) (pr : Proc) : Prop :=
  match pr.image with
  | .shell code => Shell.Ok pr.node code pipes pr.home pr.ofile pr.p
  | .program => ∀ f, some f ∈ pr.ofile → Belongs pipes pr.home f
  | .zombie => ∀ f, some f ∉ pr.ofile

/-- All processes are fine. -/
def Inv (s : State) : Prop := ∀ x pr, s.proc x = some pr → pr.Ok s.pipes

variable {s s' : State} {x : ℕ} {pr : Proc}

theorem Proc.Ok.mono (h : pr.Ok pipes) (hp : pipes <+: pipes') : pr.Ok pipes' := by
  obtain ⟨parent, ofile, p, node, home, image⟩ := pr
  cases image with
  | shell code => exact Shell.Ok.mono h hp
  | program => exact fun f hf => (h f hf).mono hp List.prefix_rfl
  | zombie => exact h

theorem Inv.shell (h : Inv s) (hx : s.proc x = some pr)
    (hi : pr.image = .shell code) : Ok pr.node code s.pipes pr.home pr.ofile pr.p := by
  have := h x pr hx
  unfold Proc.Ok at this
  rwa [hi] at this

theorem Inv.set (h : Inv s) (x : ℕ) {q : Option Proc} (hq : ∀ pr, q = some pr → pr.Ok s.pipes) :
    Inv (s.set x q) := by
  intro y pr hy
  obtain rfl | hyx := eq_or_ne y x
  · rw [State.set_self] at hy
    exact hq pr hy
  · rw [State.set_of_ne _ hyx] at hy
    exact h y pr hy

theorem Inv.addPipe (h : Inv s) (q : Pos) : Inv (s.addPipe q) :=
  fun x pr hx => (h x pr hx).mono (List.prefix_append _ _)

theorem Inv.goes (h : Inv s) (x : ℕ) {pr : Proc} (hi : pr.image = .shell code)
    (hok : Ok pr.node code s.pipes pr.home pr.ofile pr.p) : Inv (s.set x (some pr)) := by
  refine h.set x fun pr' hpr => ?_
  cases hpr
  unfold Proc.Ok
  rwa [hi]

theorem Inv.exit (h : Inv s) (x : ℕ) (pr : Proc) : Inv (s.exit x pr) := by
  intro y q hy
  obtain rfl | hyx := eq_or_ne y x
  · rw [State.exit_self] at hy
    cases hy
    intro f hf
    cases List.eq_of_mem_replicate hf
  · rw [State.exit_of_ne _ hyx] at hy
    obtain ⟨q', hq', rfl⟩ := Option.map_eq_some_iff.mp hy
    -- what a process holds does not depend on its parent
    have hok := h y q' hq'
    unfold Proc.reparent
    split_ifs
    · exact hok
    · exact hok

/-- **A step of one process keeps all processes fine.** -/
theorem Inv.step (h : Inv s) (hs : Step s s') : Inv s' := by
  -- `Ok` of the code of the shell says what its next step needs and what is left
  cases hs with
  | close hx hi => exact h.goes _ rfl (h.shell hx hi).2
  | @dup x pr a meant fd o k hx hi hd =>
    obtain ⟨-, o', hd', hk⟩ := h.shell hx hi
    rw [hd] at hd'
    cases hd'
    exact h.goes _ rfl hk
  | dup_fails hx hi hd =>
    obtain ⟨-, o', hd', -⟩ := h.shell hx hi
    rw [hd] at hd'
    cases hd'
  | openFile hx hi hd =>
    obtain ⟨-, o', hd', hk⟩ := h.shell hx hi
    rw [hd] at hd'
    cases hd'
    exact h.goes _ rfl hk
  | openFile_fails hx hi hd =>
    obtain ⟨-, o', hd', -⟩ := h.shell hx hi
    rw [hd] at hd'
    cases hd'
  | @pipe x pr p o k hx hi hd =>
    obtain ⟨-, hk⟩ := h.shell hx hi
    obtain ⟨p', o', hd', hk⟩ := hk s.pipes List.prefix_rfl
    rw [hd] at hd'
    cases hd'
    exact (h.addPipe pr.node).goes x rfl hk
  | pipe_fails hx hi hd =>
    obtain ⟨-, hk⟩ := h.shell hx hi
    obtain ⟨p', o', hd', -⟩ := hk s.pipes List.prefix_rfl
    rw [hd] at hd'
    cases hd'
  | @fork x y pr b child k hx hy hi =>
    obtain ⟨-, hchild, hk⟩ := h.shell hx hi
    have hparent : Inv (s.set x (some { pr with image := .shell k })) := h.goes x rfl hk
    exact hparent.goes y rfl hchild
  | @wait x y pr q k hx hi hy hp hz =>
    have hgone : Inv (s.set y none) := h.set y nofun
    exact hgone.goes x rfl (h.shell hx hi).2
  | wait_fails hx hi hc => exact h.goes _ rfl (h.shell hx hi).2
  | @exec x pr argv k hx hi =>
    obtain ⟨-, hstd, -⟩ := h.shell hx hi
    refine h.set x fun pr' hpr => ?_
    cases hpr
    obtain ⟨f0, f1, f2, ho, h0, h1, h2⟩ := hstd
    intro f hf
    rw [ho] at hf
    have hf : some f ∈ slots (some f0) (some f1) (some f2) none none := hf
    rcases mem_slots.mp hf with e | e | e | e | e <;> cases e
    · exact h0
    · exact h1
    · exact h2
  | exec_fails hx hi => exact h.goes _ rfl (h.shell hx hi).2.2
  | exit hx hi => exact h.exit _ _
  | runcmd p hx hi =>
    obtain ⟨-, hc, hstd⟩ := h.shell hx hi
    exact h.goes _ rfl (ok_runcmd hc hstd)
  | @program x pr o hx hi ho =>
    refine h.set x fun pr' hpr => ?_
    cases hpr
    have hok := h x pr hx
    unfold Proc.Ok at hok ⊢
    rw [hi] at hok
    rw [hi]
    intro f hf
    rcases ho f hf with hf | rfl
    · exact hok f hf
    · trivial
  | @program_fork x y pr hx hi hy =>
    refine h.set y fun pr' hpr => ?_
    cases hpr
    exact h x pr hx
  | program_exit hx hi => exact h.exit _ _
  | @reap y q hy hz => exact h.set y nofun

theorem Inv.of_reachable (hc : cmd.Standard) (h : Reachable cmd s) : Inv s := by
  induction h with
  | start x p =>
    have hnone : Inv ⟨fun _ => none, []⟩ := nofun
    exact hnone.goes x rfl (ok_runcmd hc ⟨_, _, _, rfl, trivial, trivial, trivial⟩)
  | step _ hs ih => exact ih.step hs

/-! ### The descriptors of a command -/

/-- Descriptor `fd` is open. -/
def Proc.isOpen (pr : Proc) (fd : ℕ) : Prop := ∃ f, pr.ofile[fd]? = some (some f)

/-- The process that runs the node `q`, and those it has made for it, have no calls of `close`
before them. -/
def Settled (s : State) (q : Pos) : Prop :=
  ∀ x pr code, s.proc x = some pr → pr.node = q → pr.image = .shell code → code.closing = false

theorem Standard.isOpen_iff {home : Pos} (h : Standard pipes home pr.ofile) (fd : ℕ) :
    pr.isOpen fd ↔ fd < 3 := by
  obtain ⟨f0, f1, f2, ho, -⟩ := h
  unfold Proc.isOpen
  rw [ho]
  constructor
  · rintro ⟨f, hf⟩
    by_contra hge
    obtain ⟨k, rfl⟩ : ∃ k, fd = k + 3 := ⟨fd - 3, by omega⟩
    simp only [standard, List.getElem?_cons_succ] at hf
    cases List.eq_of_mem_replicate (List.mem_of_getElem? hf)
  · intro hlt
    obtain rfl | rfl | rfl : fd = 0 ∨ fd = 1 ∨ fd = 2 := by omega
    · exact ⟨f0, rfl⟩
    · exact ⟨f1, rfl⟩
    · exact ⟨f2, rfl⟩

/-- What a process holds once its node is settled belongs to its subtree. -/
theorem Inv.belongs (h : Inv s) {n : ℕ} {w : Bool} {q : Pos} (hq : s.pipes[n]? = some q)
    (hset : Settled s q) (hx : s.proc x = some pr) (hf : some (.pipe n w) ∈ pr.ofile) :
    q ++ [side w] <+: pr.home := by
  have hbel : Belongs s.pipes pr.home (.pipe n w) := by
    have hok := h x pr hx
    unfold Proc.Ok at hok
    cases hi : pr.image with
    | shell code =>
      rw [hi] at hok
      rcases (Ok.fine hok).held _ hf with hb | ⟨hc, n', w', heq, hn⟩
      · exact hb
      · -- it would still have calls of close before it
        cases heq
        rw [hq] at hn
        rw [hset x pr code hx (Option.some.inj hn).symm hi] at hc
        cases hc
    | program =>
      rw [hi] at hok
      exact hok _ hf
    | zombie =>
      rw [hi] at hok
      exact absurd hf (hok _)
  obtain ⟨q', hq', hin⟩ := hbel
  rw [hq] at hq'
  cases hq'
  exact hin

/-- **The descriptors of the processes of a command.**  At every call of `runcmd`, and where a
program is started, exactly descriptors 0, 1 and 2 are open; every `dup` and `open` gives the
descriptor it is meant for; no process of the shell ever has more than five open; and once the
process that runs the node of a pipe and its children have made their calls of `close`, only
processes of the left subtree hold the write end, and only processes of the right one the read
end. -/
theorem descriptors_of_commands {cmd : Cmd} (hc : cmd.Standard) (h : Reachable cmd s) :
    (∀ x pr c b, s.proc x = some pr → pr.image = .shell (.runcmd c b) →
        ∀ fd, pr.isOpen fd ↔ fd < 3) ∧
      (∀ x pr argv k, s.proc x = some pr → pr.image = .shell (.exec argv k) →
        ∀ fd, pr.isOpen fd ↔ fd < 3) ∧
      (∀ x pr a meant k, s.proc x = some pr → pr.image = .shell (.dup a meant k) →
        ∃ o, dup pr.ofile (a.fd pr.p) = some (meant, o)) ∧
      (∀ x pr file mode meant k, s.proc x = some pr →
        pr.image = .shell (.openFile file mode meant k) →
        ∃ o, fdalloc pr.ofile .other = some (meant, o)) ∧
      (∀ x pr code, s.proc x = some pr → pr.image = .shell code →
        pr.ofile.countP (·.isSome) ≤ 5) ∧
      ∀ n q, s.pipes[n]? = some q → Settled s q → ∀ x pr, s.proc x = some pr →
        (some (.pipe n true) ∈ pr.ofile → q ++ [.left] <+: pr.home) ∧
          (some (.pipe n false) ∈ pr.ofile → q ++ [.right] <+: pr.home) := by
  have hI := Inv.of_reachable hc h
  refine ⟨fun x pr c b hx hi => ?_, fun x pr argv k hx hi => ?_, fun x pr a meant k hx hi => ?_,
    fun x pr file mode meant k hx hi => ?_, fun x pr code hx hi => ?_,
    fun n q hq hset x pr hx => ⟨fun hf => ?_, fun hf => ?_⟩⟩
  · exact (hI.shell hx hi).2.2.isOpen_iff
  · exact (hI.shell hx hi).2.1.isOpen_iff
  · obtain ⟨-, o, hd, -⟩ := hI.shell hx hi
    exact ⟨o, hd⟩
  · obtain ⟨-, o, hd, -⟩ := hI.shell hx hi
    exact ⟨o, hd⟩
  · exact (Ok.fine (hI.shell hx hi)).few
  · exact hI.belongs hq hset hx hf
  · exact hI.belongs hq hset hx hf

/-- The pipeline `a | b` when both programs are about to start: all calls of `close` are made. -/
theorem exists_piped : ∃ s l r, Reachable (.pipe (.exec [[97]]) (.exec [[98]])) s ∧
    s.pipes = [[]] ∧ Settled s [] ∧
    (s.proc 2 = some l ∧ l.image = .shell (.exec [[97]] .exit) ∧ some (.pipe 0 true) ∈ l.ofile) ∧
    s.proc 3 = some r ∧ r.image = .shell (.exec [[98]] .exit) ∧ some (.pipe 0 false) ∈ r.ofile := by
  have hstart : Reachable (.pipe (.exec [[97]]) (.exec [[98]])) (start _ 1 (0, 0)) :=
    .start 1 (0, 0)
  have hforks := ((hstart.step (.pipe (x := 1) rfl rfl rfl)).step
    (.fork (x := 1) (y := 2) rfl rfl rfl)).step (.fork (x := 1) (y := 3) rfl rfl rfl)
  have hleft := ((((hforks.step (.close (x := 2) rfl rfl)).step (.dup (x := 2) rfl rfl rfl)).step
    (.close (x := 2) rfl rfl)).step (.close (x := 2) rfl rfl)).step
    (.runcmd (x := 2) (0, 0) rfl rfl)
  have hright := ((((hleft.step (.close (x := 3) rfl rfl)).step (.dup (x := 3) rfl rfl rfl)).step
    (.close (x := 3) rfl rfl)).step (.close (x := 3) rfl rfl)).step
    (.runcmd (x := 3) (0, 0) rfl rfl)
  have hclosed := (hright.step (.close (x := 1) rfl rfl)).step (.close (x := 1) rfl rfl)
  refine ⟨_, _, _, hclosed, rfl, fun x pr code hx hq hi => ?_, ⟨rfl, rfl, ?_⟩, rfl, rfl, ?_⟩
  · -- only the first process runs the node of the pipe, and it waits
    obtain rfl | rfl | rfl | hne : x = 1 ∨ x = 2 ∨ x = 3 ∨ (x ≠ 1 ∧ x ≠ 2 ∧ x ≠ 3) := by omega
    · cases hx; cases hi; rfl
    · cases hx; cases hq
    · cases hx; cases hq
    · simp [State.set_of_ne, State.addPipe, start, hne] at hx
  · decide
  · decide

theorem descriptors_of_pipeline : ∃ s l r, Reachable (.pipe (.exec [[97]]) (.exec [[98]])) s ∧
    s.proc 2 = some l ∧ s.proc 3 = some r ∧
    (some (.pipe 0 true) ∈ l.ofile ∧ some (.pipe 0 true) ∉ r.ofile) ∧
    (some (.pipe 0 false) ∈ r.ofile ∧ some (.pipe 0 false) ∉ l.ofile) ∧
    ∀ fd, l.isOpen fd ↔ fd < 3 := by
  obtain ⟨s, l, r, hr, hpipes, hset, ⟨hl, hli, hlf⟩, hr', hri, hrf⟩ := exists_piped
  have hc : Cmd.Standard (.pipe (.exec [[97]]) (.exec [[98]])) := ⟨trivial, trivial⟩
  obtain ⟨-, hexec, -, -, -, hends⟩ := descriptors_of_commands hc hr
  have hq : s.pipes[0]? = some [] := by rw [hpipes]; rfl
  obtain ⟨u, hu⟩ := (hends 0 [] hq hset 2 l hl).1 hlf
  obtain ⟨v, hv⟩ := (hends 0 [] hq hset 3 r hr').2 hrf
  refine ⟨s, l, r, hr, hl, hr', ⟨hlf, fun hc => ?_⟩, ⟨hrf, fun hc => ?_⟩, hexec 2 l _ _ hl hli⟩
  · obtain ⟨w, hw⟩ := (hends 0 [] hq hset 3 r hr').1 hc
    cases hw.trans hv.symm
  · obtain ⟨w, hw⟩ := (hends 0 [] hq hset 2 l hl).2 hc
    cases hw.trans hu.symm

/-- **The programs of a line** `parsecmd` accepts start with exactly descriptors 0, 1 and 2 open,
and hold of a pipe at most their side's end. -/
theorem programs_of_line {b m : Word} {t : Tree} {n : ℕ} {argv : List Word} (hb : 0 ∉ b)
    (hn : b.length < n) (h : parsecmd n b = .ok (t, m)) (hr : Reachable (t.read m) s)
    (hx : s.proc x = some pr) (hi : pr.image = .shell (.exec argv code)) :
    (∀ fd, pr.isOpen fd ↔ fd < 3) ∧ ∀ f, some f ∈ pr.ofile → Belongs s.pipes pr.home f := by
  have hI := Inv.of_reachable (parsecmd_standard hb hn h) hr
  obtain ⟨-, hstd, -⟩ := hI.shell hx hi
  refine ⟨hstd.isOpen_iff, fun f hf => ?_⟩
  obtain ⟨f0, f1, f2, ho, h0, h1, h2⟩ := hstd
  have hfine : Fine s.pipes [] pr.home false _ := fine_standard h0 h1 h2
  rw [ho] at hf
  exact (hfine.held f hf).resolve_right (by simp)

/-- The second program of `a|b`. -/
theorem programs_of_line_pipe : ∃ t m s pr, parsecmd 9 [97, 124, 98] = .ok (t, m) ∧
    Reachable (t.read m) s ∧ s.proc 3 = some pr ∧ pr.image = .shell (.exec [[98]] .exit) ∧
    some (.pipe 0 false) ∈ pr.ofile ∧ (∀ fd, pr.isOpen fd ↔ fd < 3) ∧
    Belongs s.pipes pr.home (.pipe 0 false) := by
  have hp : parsecmd 9 [97, 124, 98] =
      .ok (.pipe (.exec [(0, 1)]) (.exec [(2, 3)]), [97, 0, 98, 0]) := by
    decide +kernel
  have hread : Tree.read [97, 0, 98, 0] (.pipe (.exec [(0, 1)]) (.exec [(2, 3)])) =
      .pipe (.exec [[97]]) (.exec [[98]]) := by
    decide +kernel
  obtain ⟨s, -, r, hs, -, -, -, hr, hri, hrf⟩ := exists_piped
  rw [← hread] at hs
  obtain ⟨hopen, hbel⟩ := programs_of_line (by decide) (by decide) hp hs hr hri
  exact ⟨_, _, s, r, hp, hs, hr, hri, hrf, hopen, hbel _ hrf⟩

end Xv6.Shell
