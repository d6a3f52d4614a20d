import Xv6.Fs.Blocks
import Xv6.Fs.File
import Xv6.Lib.Amid
import Mathlib.Data.Set.Basic

/-!
# Writers that share an open file

Processes that got a `struct file` by `fork` or `dup` share its offset.  Any number
of calls of `filewrite` on one such file interleave here, step by step, with a rest
of the system that may do whatever leaves the file alone: it uses blocks of its own,
allocates and frees them, changes other inodes and open files, and locks the file's
inode to look at it.

Beside the state there is a record that no step reads: which blocks belong to the
others, which calls were made and what they returned, and the chunks, that is, every
change of the offset with the part of the caller's buffer that it stands for.

## Main definitions

* `Call`, `Chunk`, `Book`, `note` — the record of a run.
* `Elsewhere`, `sharing` — what the others do, and the machine.
* `Sound`, `Placed`, `Recorded` — the blocks of the file, and the file against the record.

## Main results

* `Sound.elsewhere`, `Recorded.kept` — both survive what leaves the file alone.
* `Placed.split` — every chunk lies where those before it end.
-/

namespace Xv6.Fs.Shared

open Conc

/-! ### The record of a run -/

/-- A call of `filewrite`. -/
structure Call where
  src : ℕ → Option UInt8
  n : ℤ

/-- What one round of the loop of a call has written. -/
structure Chunk where
  proc : Fin NPROC
  /-- Which of the calls of that process. -/
  call : ℕ
  /-- Where it starts in the buffer of the call. -/
  pos : ℕ
  /-- Where it starts in the file. -/
  start : ℕ
  len : ℕ

/-- The bytes of some chunks. -/
def total (l : List Chunk) : ℕ := (l.map Chunk.len).sum

/-- The bytes of those that one call wrote. -/
def written (l : List Chunk) (t : Fin NPROC) (k : ℕ) : ℕ :=
  total (l.filter fun ch => ch.proc = t ∧ ch.call = k)

/-- What is kept beside the state. -/
structure Book where
  /-- The blocks of the others. -/
  others : Set ℕ
  calls : Fin NPROC → List Call
  /-- What the calls returned. -/
  rets : Fin NPROC → List ℤ
  /-- The chunks, the latest one first. -/
  chunks : List Chunk

/-- The state and the record. -/
abbrev World := State × Book

/-- A change of the offset of `f` is a chunk of the call that the process is in. -/
def note (f : Fin NFILE) (t : Fin NPROC) (s s' : State) (b : Book) : Book :=
  if (s'.file f).off = (s.file f).off then b
  else
    let k := (b.calls t).length - 1
    { b with chunks := ⟨t, k, written b.chunks t k, (s.file f).off,
        (s'.file f).off - (s.file f).off⟩ :: b.chunks }

/-- A call begins. -/
def Book.enter (b : Book) (t : Fin NPROC) (c : Call) : Book :=
  { b with calls := Function.update b.calls t (b.calls t ++ [c]) }

/-- A call returns. -/
def Book.leave (b : Book) (t : Fin NPROC) (r : ℤ) : Book :=
  { b with rets := Function.update b.rets t (b.rets t ++ [r]) }

/-! ### The contents of a file -/

/-- The inode as `ilock` finds it. -/
def cached (s : State) (e : Fin NINODE) : Dinode :=
  if (s.inode e).valid then (s.inode e).toDinode else s.dinode (s.inode e).inum

/-- The addresses of its blocks. -/
def slots (s : State) (e : Fin NINODE) : Slot → ℕ := (cached s e).map s.block

/-- A byte of its contents. -/
def byteAt (s : State) (e : Fin NINODE) (o : ℕ) : UInt8 :=
  s.block (slots s e (.data (o / BSIZE))) (o % BSIZE)

/-! ### The machine -/

/-- What the others leave alone: the offset of the file, the size and the blocks of its
inode, and every block in use that is not theirs. -/
structure Elsewhere (f : Fin NFILE) (e : Fin NINODE) (x x' : World) : Prop where
  sb : x'.1.sb = x.1.sb
  type : (x'.1.file f).type = (x.1.file f).type
  ip : (x'.1.file f).ip = (x.1.file f).ip
  off : (x'.1.file f).off = (x.1.file f).off
  ref : 0 < (x'.1.inode e).ref
  valid : (x'.1.inode e).valid = (x.1.inode e).valid
  kind : (cached x'.1 e).type = (cached x.1 e).type
  size : (cached x'.1 e).size = (cached x.1 e).size
  addrs : (cached x'.1 e).addrs = (cached x.1 e).addrs
  blocks : ∀ b, x.1.bit b = true → b ∉ x.2.others →
    x'.1.bit b = true ∧ b ∉ x'.2.others ∧ x'.1.block b = x.1.block b
  theirs : ∀ b ∈ x'.2.others, x'.1.bit b = true

/-- A step of the others.  One that is not in a call may lock the inode. -/
structure OthersStep (f : Fin NFILE) (e : Fin NINODE) (c c' : Pool (Fin NPROC) World) : Prop where
  code : c'.code = c.code
  halted : c'.halted = c.halted
  state : Elsewhere f e c.st c'.st
  book : c'.st.2 = { c.st.2 with others := c'.st.2.others }
  lock : (c'.st.1.inode e).lock = (c.st.1.inode e).lock ∨
    ∃ u, c.code u = .ret () ∧
      ((c.st.1.inode e).lock = none ∧ (c'.st.1.inode e).lock = some u ∨
        (c.st.1.inode e).lock = some u ∧ (c'.st.1.inode e).lock = none)

/-- A call, with its beginning and its end in the record. -/
def write (f : Fin NFILE) (c : Call) : Prog (Fin NPROC) World Unit := do
  .act fun t x => (x.1, x.2.enter t c)
  let r ← (filewrite f c.src c.n).watch (note f)
  .act fun t x => (x.1, x.2.leave t r)

/-- The machine at the start: nobody is in a call. -/
def start (s : State) (others : Set ℕ) : Pool (Fin NPROC) World :=
  ⟨(s, ⟨others, fun _ => [], fun _ => [], []⟩), fun _ => .ret (), none⟩

/-- Any process calls `filewrite` on `f` at any time. -/
def sharing (f : Fin NFILE) (s0 : State) (others : Set ℕ) : System (Fin NPROC) World where
  init c := c = start s0 others
  call _ _ p := ∃ c, p = write f c
  env := OthersStep f (s0.file f).ip

/-! ### Chunks -/

variable {l : List Chunk} {ch : Chunk} {t u : Fin NPROC} {k : ℕ}

@[simp] theorem total_nil : total [] = 0 := rfl

@[simp] theorem total_cons : total (ch :: l) = ch.len + total l := by simp [total]

theorem written_cons_self :
    written (ch :: l) ch.proc ch.call = ch.len + written l ch.proc ch.call := by
  simp [written]

theorem written_cons_of_ne (h : ch.proc ≠ t ∨ ch.call ≠ k) :
    written (ch :: l) t k = written l t k := by
  have hf : ¬ (ch.proc = t ∧ ch.call = k) := by tauto
  simp [written, hf]

theorem written_eq_zero (h : ∀ ch ∈ l, ch.proc = t → ch.call ≠ k) : written l t k = 0 := by
  have hf : l.filter (fun ch => ch.proc = t ∧ ch.call = k) = [] := by
    rw [List.filter_eq_nil_iff]
    intro ch hch
    simpa using h ch hch
  rw [written, hf, total_nil]

variable {off0 : ℕ} {calls calls' : Fin NPROC → List Call} {byte byte' : ℕ → UInt8}

/-- A chunk against those before it: it starts where they end, it is the next part of
the buffer of its call, and the file holds its bytes. -/
structure Placed.One (off0 : ℕ) (calls : Fin NPROC → List Call) (byte : ℕ → UInt8) (ch : Chunk)
    (l : List Chunk) : Prop where
  start : ch.start = off0 + total l
  pos : ch.pos = written l ch.proc ch.call
  holds : ∃ c, (calls ch.proc)[ch.call]? = some c ∧
    ∀ j < ch.len, c.src (ch.pos + j) = some (byte (ch.start + j))

/-- All chunks are in their places. -/
def Placed (off0 : ℕ) (calls : Fin NPROC → List Call) (byte : ℕ → UInt8) : List Chunk → Prop
  | [] => True
  | ch :: l => Placed.One off0 calls byte ch l ∧ Placed off0 calls byte l

theorem Placed.split {later : List Chunk} (h : Placed off0 calls byte (later ++ ch :: l)) :
    Placed.One off0 calls byte ch l := by
  induction later with
  | nil => exact h.1
  | cons ch' later ih => exact ih h.2

theorem Placed.mono (hcalls : ∀ t (k : ℕ) c, (calls t)[k]? = some c → (calls' t)[k]? = some c) :
    ∀ {l : List Chunk}, (∀ o, off0 ≤ o → o < off0 + total l → byte' o = byte o) →
      Placed off0 calls byte l → Placed off0 calls' byte' l
  | [], _, _ => trivial
  | ch :: l, hbyte, h => by
    have hstart := h.1.start
    rw [total_cons] at hbyte
    refine ⟨⟨hstart, h.1.pos, ?_⟩, Placed.mono hcalls (fun o h1 h2 => hbyte o h1 (by omega)) h.2⟩
    obtain ⟨c, hc, hj⟩ := h.1.holds
    refine ⟨c, hcalls _ _ _ hc, fun j hlt => ?_⟩
    rw [hj j hlt, hbyte _ (by omega) (by omega)]

theorem Placed.call_lt : ∀ {l : List Chunk}, Placed off0 calls byte l →
    ∀ ch ∈ l, ch.call < (calls ch.proc).length
  | ch :: l, h, ch', hmem => by
    rcases List.mem_cons.mp hmem with rfl | hmem
    · obtain ⟨c, hc, -⟩ := h.1.holds
      exact (List.getElem?_eq_some_iff.mp hc).1
    · exact Placed.call_lt h.2 ch' hmem

/-! ### The blocks of the file -/

variable {f : Fin NFILE} {e : Fin NINODE} {x x' x'' : World} {lim : ℕ}

/-- A regular file that is in use, whose blocks are its own. -/
structure Sound (e : Fin NINODE) (x : World) : Prop where
  ref : 0 < (x.1.inode e).ref
  regular : (cached x.1 e).type = .T_FILE
  small : x.1.sb.size ≤ 2 ^ 32
  boot : x.1.bit 0 = true ∧ 0 ∉ x.2.others
  used : ∀ σ, slots x.1 e σ ≠ 0 → x.1.bit (slots x.1 e σ) = true ∧ slots x.1 e σ ∉ x.2.others
  one : ∀ σ σ', slots x.1 e σ ≠ 0 → slots x.1 e σ' = slots x.1 e σ → σ' = σ
  theirs : ∀ b ∈ x.2.others, x.1.bit b = true

theorem cached_of_valid {s : State} (h : (s.inode e).valid = true) :
    cached s e = (s.inode e).toDinode := if_pos h

theorem slots_congr {s s' : State} (ha : (cached s' e).addrs = (cached s e).addrs)
    (hb : slots s e .ind ≠ 0 → s'.block (slots s e .ind) = s.block (slots s e .ind)) :
    slots s' e = slots s e := by
  have hmap : (cached s' e).map s'.block = (cached s e).map s'.block :=
    Dinode.map_congr fun k _ => congrFun ha k
  unfold slots
  rw [hmap]
  funext σ
  cases σ with
  | ind => rfl
  | data bn =>
    rw [Dinode.map, Dinode.map]
    by_cases h0 : (cached s e).addrs NDIRECT = 0
    · simp only [h0, ne_eq, not_true_eq_false, and_false, if_false]
    · have hb : s'.block ((cached s e).addrs NDIRECT) = s.block ((cached s e).addrs NDIRECT) :=
        hb h0
      rw [hb]

theorem Elsewhere.slots (h : Elsewhere f e x x') (hx : Sound e x) : slots x'.1 e = slots x.1 e :=
  slots_congr h.addrs fun h0 =>
    have hu := hx.used .ind h0
    (h.blocks _ hu.1 hu.2).2.2

theorem Elsewhere.byteAt (h : Elsewhere f e x x') (hx : Sound e x) {o : ℕ}
    (ho : Shared.slots x.1 e (.data (o / BSIZE)) ≠ 0) : byteAt x'.1 e o = byteAt x.1 e o := by
  have hu := hx.used _ ho
  unfold Shared.byteAt
  rw [h.slots hx, (h.blocks _ hu.1 hu.2).2.2]

theorem Sound.elsewhere (hx : Sound e x) (h : Elsewhere f e x x') : Sound e x' where
  ref := h.ref
  regular := h.kind.trans hx.regular
  small := by rw [h.sb]; exact hx.small
  boot := ⟨(h.blocks 0 hx.boot.1 hx.boot.2).1, (h.blocks 0 hx.boot.1 hx.boot.2).2.1⟩
  used σ := by
    rw [h.slots hx]
    intro h0
    have hu := hx.used σ h0
    exact ⟨(h.blocks _ hu.1 hu.2).1, (h.blocks _ hu.1 hu.2).2.1⟩
  one := by rw [h.slots hx]; exact hx.one
  theirs := h.theirs

theorem Elsewhere.trans (h : Elsewhere f e x x') (h' : Elsewhere f e x' x'') :
    Elsewhere f e x x'' where
  sb := h'.sb.trans h.sb
  type := h'.type.trans h.type
  ip := h'.ip.trans h.ip
  off := h'.off.trans h.off
  ref := h'.ref
  valid := h'.valid.trans h.valid
  kind := h'.kind.trans h.kind
  size := h'.size.trans h.size
  addrs := h'.addrs.trans h.addrs
  blocks b hb hn := by
    obtain ⟨h1, h2, h3⟩ := h.blocks b hb hn
    obtain ⟨h4, h5, h6⟩ := h'.blocks b h1 h2
    exact ⟨h4, h5, h6.trans h3⟩
  theirs := h'.theirs

theorem Sound.elsewhere_of_eq (hx : Sound e x) (hs : x'.1 = x.1) (hb : x'.2.others = x.2.others) :
    Elsewhere f e x x' := by
  obtain ⟨s, b⟩ := x
  obtain ⟨s', b'⟩ := x'
  cases hs
  exact {
    sb := rfl
    type := rfl
    ip := rfl
    off := rfl
    ref := hx.ref
    valid := rfl
    kind := rfl
    size := rfl
    addrs := rfl
    blocks := fun b hb' hn => ⟨hb', by rw [hb]; exact hn, rfl⟩
    theirs := by rw [hb]; exact hx.theirs }

/-! ### The file against the record -/

/-- What a process may count on while it writes behind `lim`. -/
structure Kept (f : Fin NFILE) (e : Fin NINODE) (lim : ℕ) (x x' : World) : Prop where
  type : (x'.1.file f).type = (x.1.file f).type
  ip : (x'.1.file f).ip = (x.1.file f).ip
  off : (x'.1.file f).off = (x.1.file f).off
  valid : (x.1.inode e).valid = true → (x'.1.inode e).valid = true
  size : (cached x.1 e).size ≤ (cached x'.1 e).size
  map : ∀ σ, slots x.1 e σ ≠ 0 → slots x'.1 e σ = slots x.1 e σ
  bytes : ∀ o < lim, slots x.1 e (.data (o / BSIZE)) ≠ 0 → byteAt x'.1 e o = byteAt x.1 e o

theorem Elsewhere.kept (h : Elsewhere f e x x') (hx : Sound e x) : Kept f e lim x x' where
  type := h.type
  ip := h.ip
  off := h.off
  valid hv := h.valid.trans hv
  size := h.size.ge
  map σ _ := by rw [h.slots hx]
  bytes _ _ ho := h.byteAt hx ho

theorem Kept.refl :
    Kept f e lim x x := ⟨rfl, rfl, rfl, id, le_rfl, fun _ _ => rfl, fun _ _ _ => rfl⟩

theorem Kept.trans (h : Kept f e lim x x') (h' : Kept f e lim x' x'') : Kept f e lim x x'' where
  type := h'.type.trans h.type
  ip := h'.ip.trans h.ip
  off := h'.off.trans h.off
  valid hv := h'.valid (h.valid hv)
  size := h.size.trans h'.size
  map σ h0 := by
    have hs := h.map σ h0
    rw [h'.map σ (by rwa [hs]), hs]
  bytes o ho h0 := by
    have hs := h.map _ h0
    rw [h'.bytes o ho (by rwa [hs]), h.bytes o ho h0]

theorem Kept.mono {lim' : ℕ} (h : Kept f e lim x x') (hl : lim' ≤ lim) : Kept f e lim' x x' :=
  { h with bytes := fun o ho => h.bytes o (lt_of_lt_of_le ho hl) }

/-- The file is as the record says. -/
structure Recorded (f : Fin NFILE) (e : Fin NINODE) (off0 : ℕ) (x : World) : Prop where
  type : (x.1.file f).type = .FD_INODE
  ip : (x.1.file f).ip = e
  off : (x.1.file f).off = off0 + total x.2.chunks
  lt : (x.1.file f).off < 2 ^ 32
  placed : Placed off0 x.2.calls (byteAt x.1 e) x.2.chunks
  mapped : ∀ o, off0 ≤ o → o < (x.1.file f).off → slots x.1 e (.data (o / BSIZE)) ≠ 0
  size : x.2.chunks ≠ [] → (x.1.file f).off ≤ (cached x.1 e).size
  /-- A call that reports success has written all its bytes. -/
  returned : ∀ t (k : ℕ) c, (x.2.calls t)[k]? = some c → (x.2.rets t)[k]? = some c.n →
    written x.2.chunks t k = c.n.toNat

/-- The record of the bytes holds while nothing before the offset is overwritten. -/
theorem Recorded.kept (h : Recorded f e off0 x) (hk : Kept f e (x.1.file f).off x x')
    (hch : x'.2.chunks = x.2.chunks)
    (hcalls : ∀ t (k : ℕ) c, (x.2.calls t)[k]? = some c → (x'.2.calls t)[k]? = some c)
    (hret : ∀ t (k : ℕ) c, (x'.2.calls t)[k]? = some c → (x'.2.rets t)[k]? = some c.n →
      written x.2.chunks t k = c.n.toNat) : Recorded f e off0 x' where
  type := hk.type.trans h.type
  ip := hk.ip.trans h.ip
  off := by rw [hk.off, hch, h.off]
  lt := by rw [hk.off]; exact h.lt
  placed := by
    rw [hch]
    refine Placed.mono hcalls (fun o h1 h2 => ?_) h.placed
    rw [← h.off] at h2
    exact hk.bytes o h2 (h.mapped o h1 h2)
  mapped o h1 h2 := by
    rw [hk.off] at h2
    have h0 := h.mapped o h1 h2
    rwa [hk.map _ h0]
  size hne := by
    rw [hch] at hne
    rw [hk.off]
    exact (h.size hne).trans hk.size
  returned := by rw [hch]; exact hret

theorem Recorded.same (h : Recorded f e off0 x) (hk : Kept f e (x.1.file f).off x x')
    (hch : x'.2.chunks = x.2.chunks) (hcalls : x'.2.calls = x.2.calls)
    (hrets : x'.2.rets = x.2.rets) :
    Recorded f e off0 x' :=
  h.kept hk hch (fun t k c hc => by rwa [hcalls]) fun t k c hc hr => by
    rw [hcalls] at hc
    rw [hrets] at hr
    exact h.returned t k c hc hr

end Xv6.Fs.Shared
