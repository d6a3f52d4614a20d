import Xv6.Fs.Shared
import Xv6.Fs.Write

/-!
# One writer of a shared file

What `writei` does for a process that holds the lock of the file's inode, while the
rest of the system goes on: the bytes it reports are in the file behind the offset,
and what lies before the offset stays as it was.  The offset and the blocks of the
file are the lock holder's alone; the free map is not, so that `balloc` may find a
different block each time.

## Main definitions

* `Ok`, `Work` — the file is in order, and who works on it.
* `Rely`, `Grants`, `Does` — what the lock holder counts on, what it grants, and its
  programs.
* `Going`, `Still`, `Fresh` — what is kept while it works, and a block it allocated.
* `Wrote` — bytes of the buffer that are in the file.

## Main results

* `does_balloc`, `does_bmap` — blocks are found or allocated.
* `does_writei` — **the bytes that `writei` reports are behind the offset.**
-/

namespace Xv6.Fs.Shared

open Conc Function

variable {f : Fin NFILE} {e : Fin NINODE} {off0 : ℕ} {t : Fin NPROC} {x x0 x1 x' x'' : World}
  {α β ρ : Type} {lim a b k bn : ℕ} {σ : Slot}

/-! ### The lock holder -/

/-- The file and its record are in order. -/
structure Ok (f : Fin NFILE) (e : Fin NINODE) (off0 : ℕ) (x : World) : Prop where
  sound : Sound e x
  recorded : Recorded f e off0 x

/-- They are in order, and `t` has the lock. -/
structure Work (f : Fin NFILE) (e : Fin NINODE) (off0 : ℕ) (t : Fin NPROC) (x : World) :
    Prop extends
    Ok f e off0 x where
  lock : (x.1.inode e).lock = some t

/-- What the lock holder that left `x0` behind finds. -/
structure Rely (f : Fin NFILE) (e : Fin NINODE) (off0 : ℕ) (t : Fin NPROC) (x0 x : World) :
    Prop extends
    Work f e off0 t x where
  state : Elsewhere f e x0 x
  chunks : x.2.chunks = x0.2.chunks
  calls : x.2.calls t = x0.2.calls t
  rets : x.2.rets t = x0.2.rets t

/-- A step of the lock holder. -/
def Grants (f : Fin NFILE) (e : Fin NINODE) (off0 : ℕ) (t : Fin NPROC) (x x' : World) : Prop :=
  x'.2 = note f t x.1 x'.1 x.2 ∧ Work f e off0 t x'

/-- The lock holder runs `p`, from `x`, and `Q` holds at the end. -/
abbrev Does (f : Fin NFILE) (e : Fin NINODE) (off0 : ℕ) (t : Fin NPROC) (p : FsM α) (x : World)
    (Q : α → World → Prop) : Prop :=
  Amid (fun _ => False) (Rely f e off0 t) (Grants f e off0 t) t (p.watch (note f)) x Q

@[simp] theorem note_self (s : State) (b : Book) : note f t s s b = b := if_pos rfl

theorem note_of_eq {s s' : State} {b : Book} (h : s'.file f = s.file f) : note f t s s' b = b :=
  if_pos (by rw [h])

variable {s : State}

@[simp] theorem note_setInode {ip : Inode} {b : Book} :
    note f t s (s.setInode e ip) b = b := if_pos rfl

theorem Does.bind {p : FsM α} {q : α → FsM β} {P : α → World → Prop} {Q : β → World → Prop}
    (h : Does f e off0 t p x P) (hq : ∀ a x', P a x' → Does f e off0 t (q a) x' Q) :
    Does f e off0 t (p >>= q) x Q := by
  unfold Does
  rw [Prog.watch_bind]
  exact Amid.bind h hq

theorem does_look {g : State → ρ} {Q : ρ → World → Prop}
    (h : ∀ x1, Rely f e off0 t x x1 → Q (g x1.1) x1) : Does f e off0 t (Prog.look g) x Q := by
  refine amid_watch_atomic fun x1 hx => ?_
  dsimp only
  rw [note_self]
  exact ⟨⟨(note_self ..).symm, hx.toWork⟩, h x1 hx⟩

theorem does_look_bind {g : State → ρ} {q : ρ → FsM α} {Q : α → World → Prop}
    (h : ∀ x1, Rely f e off0 t x x1 → Does f e off0 t (q (g x1.1)) x1 Q) :
    Does f e off0 t (Prog.look g >>= q) x Q :=
  (does_look (Q := fun r x1 => Does f e off0 t (q r) x1 Q) h).bind fun _ _ h => h

/-- What the lock holder may do to the state. -/
structure Edit (f : Fin NFILE) (e : Fin NINODE) (t : Fin NPROC) (x : World) (s' : State) :
    Prop where
  file : s'.file f = x.1.file f
  lock : (s'.inode e).lock = some t
  sound : Sound e (s', x.2)
  kept : Kept f e (x.1.file f).off x (s', x.2)

variable {s' : State}

theorem Work.edit (h : Work f e off0 t x) (he : Edit f e t x s') : Work f e off0 t (s', x.2) :=
  ⟨⟨he.sound, h.recorded.same he.kept rfl rfl rfl⟩, he.lock⟩

theorem does_act {g : Fin NPROC → State → State} {Q : Unit → World → Prop}
    (h : ∀ x1, Rely f e off0 t x x1 → Edit f e t x1 (g t x1.1) ∧
      (Work f e off0 t (g t x1.1, x1.2) → Q () (g t x1.1, x1.2))) :
    Does f e off0 t (Prog.act g) x Q := by
  refine amid_watch_atomic fun x1 hx => ?_
  obtain ⟨he, hQ⟩ := h x1 hx
  dsimp only
  rw [note_of_eq he.file]
  have hw := hx.toWork.edit he
  exact ⟨⟨(note_of_eq he.file).symm, hw⟩, hQ hw⟩

/-! ### What is kept -/

/-- What is kept of the file and of the record while `t` works behind `lim`. -/
structure Going (f : Fin NFILE) (e : Fin NINODE) (t : Fin NPROC) (lim : ℕ) (x x' : World) :
    Prop extends
    Kept f e lim x x' where
  chunks : x'.2.chunks = x.2.chunks
  calls : x'.2.calls t = x.2.calls t
  rets : x'.2.rets t = x.2.rets t

/-- The map of the inode does not change either. -/
structure Still (f : Fin NFILE) (e : Fin NINODE) (t : Fin NPROC) (x x' : World) : Prop where
  going : ∀ lim, Going f e t lim x x'
  slots : slots x'.1 e = slots x.1 e
  addrs : (cached x'.1 e).addrs = (cached x.1 e).addrs

theorem Going.trans (h : Going f e t lim x x') (h' : Going f e t lim x' x'') :
    Going f e t lim x x'' :=
  ⟨h.toKept.trans h'.toKept, h'.chunks.trans h.chunks, h'.calls.trans h.calls, h'.rets.trans h.rets⟩

theorem Going.mono {lim' : ℕ} (h : Going f e t lim x x') (hl : lim' ≤ lim) :
    Going f e t lim' x x' :=
  { h with toKept := h.toKept.mono hl }

theorem Going.refl : Going f e t lim x x := ⟨Kept.refl, rfl, rfl, rfl⟩

theorem Kept.going (h : Kept f e lim x (s', x.2)) : Going f e t lim x (s', x.2) :=
  ⟨h, rfl, rfl, rfl⟩

theorem Still.refl : Still f e t x x := ⟨fun _ => Going.refl, rfl, rfl⟩

theorem Still.trans (h : Still f e t x x') (h' : Still f e t x' x'') : Still f e t x x'' :=
  ⟨fun lim => (h.going lim).trans (h'.going lim), h'.slots.trans h.slots, h'.addrs.trans h.addrs⟩

theorem Rely.still (h : Rely f e off0 t x0 x) (hx : Sound e x0) : Still f e t x0 x :=
  ⟨fun _ => ⟨h.state.kept hx, h.chunks, h.calls, h.rets⟩, h.state.slots hx, h.state.addrs⟩

theorem Rely.going (h : Rely f e off0 t x0 x) (hx : Sound e x0) : Going f e t lim x0 x :=
  (h.still hx).going lim

/-! ### Blocks that were allocated -/

/-- A block that `t` has allocated and not put anywhere. -/
structure Fresh (e : Fin NINODE) (a : ℕ) (x : World) : Prop where
  ne : a ≠ 0
  lt : a < 2 ^ 32
  bit : x.1.bit a = true
  mine : a ∉ x.2.others
  new : ∀ σ, slots x.1 e σ ≠ a

theorem Fresh.rely (h : Fresh e a x) (hr : Rely f e off0 t x x') (hx : Sound e x) :
    Fresh e a x' ∧ x'.1.block a = x.1.block a := by
  obtain ⟨hb, hn, hblk⟩ := hr.state.blocks a h.bit h.mine
  refine ⟨⟨h.ne, h.lt, hb, hn, fun σ => ?_⟩, hblk⟩
  rw [hr.state.slots hx]
  exact h.new σ

theorem slots_setBlock {d : Block} (h : slots s e .ind = 0 ∨ slots s e .ind ≠ b) :
    slots (s.setBlock b d) e = slots s e :=
  Dinode.map_setBlock h

theorem Sound.of_slots (hx : Sound e x) (hs : slots s' e = slots x.1 e)
    (hbit : ∀ b, x.1.bit b = true → s'.bit b = true) (hsb : s'.sb = x.1.sb)
    (href : (s'.inode e).ref = (x.1.inode e).ref)
    (hkind : (cached s' e).type = (cached x.1 e).type) :
    Sound e (s', x.2) where
  ref := href ▸ hx.ref
  regular := hkind.trans hx.regular
  small := hsb ▸ hx.small
  boot := ⟨hbit 0 hx.boot.1, hx.boot.2⟩
  used σ h0 := by
    rw [hs] at h0 ⊢
    exact ⟨hbit _ (hx.used σ h0).1, (hx.used σ h0).2⟩
  one := by rw [hs]; exact hx.one
  theirs b hb := hbit b (hx.theirs b hb)

/-- A block is put into an empty slot. -/
theorem Sound.attach (hx : Sound e x) (ha : Fresh e a x)
    (hs : slots s' e = update (slots x.1 e) σ a) (hbit : s'.bit = x.1.bit)
    (hsb : s'.sb = x.1.sb) (href : (s'.inode e).ref = (x.1.inode e).ref)
    (hkind : (cached s' e).type = (cached x.1 e).type) : Sound e (s', x.2) where
  ref := href ▸ hx.ref
  regular := hkind.trans hx.regular
  small := hsb ▸ hx.small
  boot := by rw [hbit]; exact hx.boot
  used τ h0 := by
    rw [hs, hbit] at *
    by_cases hτ : τ = σ
    · rw [hτ, update_self]
      exact ⟨ha.bit, ha.mine⟩
    · rw [update_of_ne hτ] at h0 ⊢
      exact hx.used τ h0
  one τ τ' h0 heq := by
    rw [hs] at h0 heq
    by_cases hτ : τ = σ
    · by_cases hτ' : τ' = σ
      · rw [hτ, hτ']
      · rw [hτ, update_self, update_of_ne hτ'] at heq
        exact absurd heq (ha.new τ')
    · rw [update_of_ne hτ] at h0 heq
      by_cases hτ' : τ' = σ
      · rw [hτ', update_self] at heq
        exact absurd heq.symm (ha.new τ)
      · rw [update_of_ne hτ'] at heq
        exact hx.one τ τ' h0 heq
  theirs b hb := by rw [hbit]; exact hx.theirs b hb

theorem kept_attach (h0 : slots x.1 e σ = 0)
    (hs : slots s' e = update (slots x.1 e) σ a) (hfile : s'.file f = x.1.file f)
    (hvalid : (s'.inode e).valid = (x.1.inode e).valid)
    (hsize : (cached s' e).size = (cached x.1 e).size)
    (hblk : ∀ bn, slots x.1 e (.data bn) ≠ 0 →
      s'.block (slots x.1 e (.data bn)) = x.1.block (slots x.1 e (.data bn))) :
    Kept f e lim x (s', x.2) := by
  have hmap : ∀ τ, slots x.1 e τ ≠ 0 → slots s' e τ = slots x.1 e τ := by
    intro τ hτ
    rw [hs, update_of_ne]
    rintro rfl
    exact hτ h0
  refine ⟨by rw [hfile], by rw [hfile], by rw [hfile], by rw [hvalid]; exact id, hsize.ge, hmap,
    fun o _ ho => ?_⟩
  unfold byteAt
  rw [hmap _ ho, hblk _ ho]

theorem kept_of_addrs (hfile : s.file f = x.1.file f) (hblk : s.block = x.1.block)
    (hvalid : (x.1.inode e).valid = true → (s.inode e).valid = true)
    (haddrs : (cached s e).addrs = (cached x.1 e).addrs)
    (hsize : (cached x.1 e).size ≤ (cached s e).size) :
    slots s e = slots x.1 e ∧ ∀ lim, Kept f e lim x (s, x.2) := by
  have hslots : slots s e = slots x.1 e := slots_congr haddrs fun _ => by rw [hblk]
  refine ⟨hslots, fun lim => ⟨by rw [hfile], by rw [hfile], by rw [hfile], hvalid, hsize,
    fun σ _ => by rw [hslots], fun o _ _ => ?_⟩⟩
  unfold byteAt
  rw [hslots, hblk]

theorem edit_setBlock {d : Block} (h : Work f e off0 t x) (ha : Fresh e a x) :
    Edit f e t x (x.1.setBlock a d) ∧ Still f e t x (x.1.setBlock a d, x.2) := by
  have hs : slots (x.1.setBlock a d) e = slots x.1 e := slots_setBlock (Or.inr (ha.new .ind))
  have hkept : ∀ lim, Kept f e lim x (x.1.setBlock a d, x.2) := by
    intro lim
    refine ⟨rfl, rfl, rfl, id, le_rfl, fun σ _ => by rw [hs], fun o _ _ => ?_⟩
    unfold byteAt
    rw [hs]
    exact congrFun (update_of_ne (ha.new _) _ _) _
  exact ⟨⟨rfl, h.lock, h.sound.of_slots hs (fun _ hb => hb) rfl rfl rfl, hkept _⟩,
    fun lim => (hkept lim).going, hs, rfl⟩

/-- A free block is marked. -/
theorem edit_setBit (h : Work f e off0 t x) (hb : x.1.bit a = false) (hlt : a < x.1.sb.size) :
    Edit f e t x (x.1.setBit a true) ∧ Still f e t x (x.1.setBit a true, x.2) ∧
      Fresh e a (x.1.setBit a true, x.2) := by
  have hkept : ∀ lim, Kept f e lim x (x.1.setBit a true, x.2) := fun lim =>
    ⟨rfl, rfl, rfl, id, le_rfl, fun _ _ => rfl, fun _ _ _ => rfl⟩
  have hup : ∀ y, x.1.bit y = true → (x.1.setBit a true).bit y = true := by
    intro y hy
    show update x.1.bit a true y = true
    by_cases hya : y = a
    · rw [hya, update_self]
    · rwa [update_of_ne hya]
  refine ⟨⟨rfl, h.lock, h.sound.of_slots rfl hup rfl rfl rfl, hkept _⟩,
    ⟨fun lim => (hkept lim).going, rfl, rfl⟩, ?_⟩
  have hne : a ≠ 0 := by
    rintro rfl
    rw [h.sound.boot.1] at hb
    cases hb
  refine ⟨hne, hlt.trans_le h.sound.small, update_self .., fun hc => ?_, fun σ hc => ?_⟩
  · have := h.sound.theirs a hc
    rw [hb] at this
    cases this
  · have hc : slots x.1 e σ = a := hc
    have := (h.sound.used σ (by rwa [hc])).1
    rw [hc, hb] at this
    cases this

/-- What `balloc` returns: a block of zeros, or 0. -/
def Alloced (f : Fin NFILE) (e : Fin NINODE) (off0 : ℕ) (t : Fin NPROC) (x : World) (a : ℕ)
    (x' : World) : Prop :=
  Work f e off0 t x' ∧ Still f e t x x' ∧ (a ≠ 0 → Fresh e a x' ∧ x'.1.block a = fun _ => 0)

theorem does_ballocFrom (n : ℕ) : ∀ b x, Work f e off0 t x →
    Does f e off0 t (ballocFrom n b) x (Alloced f e off0 t x) := by
  induction n with
  | zero => exact fun b x hw => ⟨hw, Still.refl, fun hc => absurd rfl hc⟩
  | succ n ih =>
    intro b x hw
    rw [ballocFrom]
    -- the search of one block of the free map, which is one step
    have hin : Does f e off0 t (ballocIn b) x fun r x' => Work f e off0 t x' ∧ Still f e t x x' ∧
        ∀ a, r = some a → Fresh e a x' := by
      refine amid_watch_atomic fun x1 hx => ?_
      have hstill := hx.still hw.sound
      cases hfree : x1.1.firstFree b with
      | none =>
        dsimp only
        rw [note_self]
        exact ⟨⟨(note_self ..).symm, hx.toWork⟩, hx.toWork, hstill, by simp⟩
      | some a =>
        obtain ⟨hbit, hlt, -⟩ := firstFree_some hfree
        obtain ⟨he, hs, hf⟩ := edit_setBit hx.toWork hbit hlt
        have hnote : note f t x1.1 (x1.1.setBit a true) x1.2 = x1.2 := note_of_eq rfl
        have hw' := hx.toWork.edit he
        dsimp only
        rw [hnote]
        exact ⟨⟨hnote.symm, hw'⟩, hw', hstill.trans hs, fun a' ha' => by cases ha'; exact hf⟩
    refine hin.bind fun r x' hr => ?_
    obtain ⟨hw', hs, hf⟩ := hr
    cases r with
    | none =>
      refine (ih _ x' hw').mono fun a x'' ha => ?_
      exact ⟨ha.1, hs.trans ha.2.1, ha.2.2⟩
    | some a =>
      have hf := hf a rfl
      have hz : Does f e off0 t (bzero a) x' fun _ x'' => Alloced f e off0 t x a x'' := by
        refine does_act fun x1 hx => ?_
        obtain ⟨hf1, -⟩ := hf.rely hx hw'.sound
        obtain ⟨he, hs1⟩ := edit_setBlock (d := fun _ => 0) hx.toWork hf1
        refine ⟨he, fun hw1 => ⟨hw1, (hs.trans (hx.still hw'.sound)).trans hs1, fun _ => ?_⟩⟩
        refine ⟨⟨hf1.ne, hf1.lt, hf1.bit, hf1.mine, fun σ => ?_⟩, update_self ..⟩
        rw [hs1.slots]
        exact hf1.new σ
      exact hz.bind fun _ x'' h => h

theorem does_balloc (hw : Work f e off0 t x) : Does f e off0 t balloc x (Alloced f e off0 t x) := by
  unfold balloc
  refine does_look_bind fun x1 hx => ?_
  refine (does_ballocFrom _ 0 x1 hx.toWork).mono fun a x' ha => ?_
  exact ⟨ha.1, (hx.still hw.sound).trans ha.2.1, ha.2.2⟩

/-! ### Addresses -/

theorem slots_of_valid (h : (s.inode e).valid = true) : slots s e = (s.inode e).map s.block := by
  unfold slots
  rw [cached_of_valid h]

/-- What a function that finds a block has done; 0 if there was none. -/
def Found (f : Fin NFILE) (e : Fin NINODE) (off0 : ℕ) (t : Fin NPROC) (x : World) (σ : Slot) (a : ℕ)
    (x' : World) : Prop :=
  Work f e off0 t x' ∧ (∀ lim, Going f e t lim x x') ∧ (a ≠ 0 → slots x'.1 e σ = a)

/-- The slot of an address in the inode. -/
def slotOf (k : ℕ) : Slot := if k = NDIRECT then .ind else .data k

theorem slots_slotOf (hk : k ≤ NDIRECT) : slots s e (slotOf k) = (cached s e).addrs k := by
  unfold slotOf
  by_cases h : k = NDIRECT
  · rw [if_pos h, h]
    rfl
  · rw [if_neg h]
    exact Dinode.map_direct (lt_of_le_of_ne hk h)

theorem slots_setAddr (hv : (s.inode e).valid = true) (hk : k ≤ NDIRECT)
    (h0 : (cached s e).addrs k = 0) (hz : s.block a = fun _ => 0) :
    slots (s.setInode e { s.inode e with addrs := update (s.inode e).addrs k a }) e =
      update (slots s e) (slotOf k) a := by
  have hin : (s.setInode e { s.inode e with addrs := update (s.inode e).addrs k a }).inode e =
      { s.inode e with addrs := update (s.inode e).addrs k a } := update_self ..
  rw [slots_of_valid (by rw [hin]; exact hv), slots_of_valid hv, hin]
  rw [cached_of_valid hv] at h0
  unfold slotOf
  obtain rfl | h := eq_or_ne k NDIRECT
  · rw [if_pos rfl]
    exact Dinode.map_setInd rfl h0 hz
  · rw [if_neg h]
    exact Dinode.map_setDirect rfl (lt_of_le_of_ne hk h)

/-- An address is stored in the inode. -/
theorem edit_setAddr (h : Work f e off0 t x) (hv : (x.1.inode e).valid = true) (hk : k ≤ NDIRECT)
    (h0 : (cached x.1 e).addrs k = 0) (ha : Fresh e a x) (hz : x.1.block a = fun _ => 0)
    (hs' : s' = x.1.setInode e { x.1.inode e with addrs := update (x.1.inode e).addrs k a }) :
    Edit f e t x s' ∧ (∀ lim, Going f e t lim x (s', x.2)) ∧ slots s' e (slotOf k) = a := by
  have hin : s'.inode e = { x.1.inode e with addrs := update (x.1.inode e).addrs k a } := by
    rw [hs']
    exact update_self ..
  have hslots : slots s' e = update (slots x.1 e) (slotOf k) a := by
    rw [hs']
    exact slots_setAddr hv hk h0 hz
  have hc : cached s' e =
      { (x.1.inode e).toDinode with addrs := update (x.1.inode e).addrs k a } := by
    rw [cached_of_valid (by rw [hin]; exact hv), hin]
  have hc0 := cached_of_valid hv
  have hkept : ∀ lim, Kept f e lim x (s', x.2) := fun lim =>
    kept_attach (by rw [slots_slotOf hk, h0]) hslots (by rw [hs']; rfl) (by rw [hin])
      (by rw [hc, hc0])
      fun _ _ => by rw [hs']; rfl
  refine ⟨⟨by rw [hs']; rfl, by rw [hin]; exact h.lock, ?_, hkept _⟩, fun lim => (hkept lim).going,
    ?_⟩
  · exact h.sound.attach ha hslots (by rw [hs']; rfl) (by rw [hs']; rfl) (by rw [hin])
      (by rw [hc, hc0])
  · rw [hslots, update_self]

theorem does_addrOf (hw : Work f e off0 t x) (hv : (x.1.inode e).valid = true) (hk : k ≤ NDIRECT) :
    Does f e off0 t (addrOf e k) x (Found f e off0 t x (slotOf k)) := by
  unfold addrOf getInode
  refine does_look_bind fun x1 hx => ?_
  have hgo : ∀ lim, Going f e t lim x x1 := fun lim => hx.going hw.sound
  have hv1 := hx.state.valid.trans hv
  have hc1 := cached_of_valid hv1
  by_cases h0 : (x1.1.inode e).addrs k = 0
  · rw [if_pos h0]
    refine (does_balloc hx.toWork).bind fun a x2 ha => ?_
    obtain ⟨hw2, hs2, hf2⟩ := ha
    have hgo2 : ∀ lim, Going f e t lim x x2 := fun lim => (hgo lim).trans (hs2.going lim)
    by_cases ha0 : a = 0
    · rw [if_pos ha0]
      exact ⟨hw2, hgo2, fun hc => absurd rfl hc⟩
    · rw [if_neg ha0]
      obtain ⟨hf2, hz2⟩ := hf2 ha0
      -- the others may have run since; the slot is still empty, for the inode is locked
      have hset : Does f e off0 t
          (modifyInode e fun ip => { ip with addrs := update ip.addrs k a }) x2
          fun _ x' => Found f e off0 t x (slotOf k) a x' := by
        refine does_act fun x3 hx3 => ?_
        obtain ⟨hf3, hz3⟩ := hf2.rely hx3 hw2.sound
        have hs3 := hs2.trans (hx3.still hw2.sound)
        have h03 : (cached x3.1 e).addrs k = 0 := by rw [hs3.addrs, hc1]; exact h0
        have hv3 := (hs3.going 0).valid hv1
        obtain ⟨he, hg, hslot⟩ := edit_setAddr hx3.toWork hv3 hk h03 hf3 (hz3.trans hz2) rfl
        exact ⟨he, fun hw' => ⟨hw', fun lim => ((hgo lim).trans (hs3.going lim)).trans (hg lim),
          fun _ => hslot⟩⟩
      exact hset.bind fun _ x' h => h
  · rw [if_neg h0]
    refine ⟨hx.toWork, hgo, fun _ => ?_⟩
    rw [slots_slotOf hk, hc1]

/-- An entry of the indirect block is set. -/
theorem edit_setEntry {j : ℕ} (h : Work f e off0 t x) (hind : slots x.1 e .ind ≠ 0)
    (hj : j < NINDIRECT)
    (h0 : slots x.1 e (.data (NDIRECT + j)) = 0) (ha : Fresh e a x)
    (hs' : s' = x.1.setBlock (slots x.1 e .ind)
      (Bytes.set 4 (x.1.block (slots x.1 e .ind)) (4 * j) a)) :
    Edit f e t x s' ∧ (∀ lim, Going f e t lim x (s', x.2)) ∧
      slots s' e (.data (NDIRECT + j)) = a := by
  have hslots : slots s' e = update (slots x.1 e) (.data (NDIRECT + j)) a := by
    rw [hs']
    exact Dinode.map_setEntry hind hj ha.lt
  have hkept : ∀ lim, Kept f e lim x (s', x.2) := by
    intro lim
    refine kept_attach h0 hslots (by rw [hs']; rfl) (by rw [hs']; rfl) (by rw [hs']; rfl)
      fun bn hbn => ?_
    rw [hs']
    exact update_of_ne (fun hc => by cases h.sound.one _ _ hind hc) _ _
  refine ⟨⟨by rw [hs']; rfl, by rw [hs']; exact h.lock, ?_, hkept _⟩, fun lim => (hkept lim).going,
    ?_⟩
  · exact h.sound.attach ha hslots (by rw [hs']; rfl) (by rw [hs']; rfl) (by rw [hs']; rfl)
      (by rw [hs']; rfl)
  · rw [hslots, update_self]

/-- **A block of the file is found or allocated.** -/
theorem does_bmap (hw : Work f e off0 t x) (hv : (x.1.inode e).valid = true) (hbn : bn < MAXFILE) :
    Does f e off0 t (bmap e bn) x (Found f e off0 t x (.data bn)) := by
  unfold bmap
  by_cases hd : bn < NDIRECT
  · have hslot : slotOf bn = .data bn := if_neg hd.ne
    rw [if_pos hd, ← hslot]
    exact does_addrOf hw hv hd.le
  obtain ⟨j, rfl⟩ := Nat.exists_eq_add_of_le (not_lt.mp hd)
  have hj : j < NINDIRECT := Nat.lt_of_add_lt_add_left hbn
  rw [if_neg hd, Nat.add_sub_cancel_left, if_pos hj]
  refine (does_addrOf hw hv le_rfl).bind fun ind x1 hi => ?_
  obtain ⟨hw1, hg1, hind⟩ := hi
  have hind : ind ≠ 0 → slots x1.1 e .ind = ind := hind
  by_cases hi0 : ind = 0
  · rw [if_pos hi0]
    exact ⟨hw1, hg1, fun hc => absurd rfl hc⟩
  rw [if_neg hi0]
  refine does_look_bind fun x2 hx2 => ?_
  have hs2 := hx2.still hw1.sound
  have hg2 : ∀ lim, Going f e t lim x x2 := fun lim => (hg1 lim).trans (hs2.going lim)
  have hind2 : slots x2.1 e .ind = ind := by rw [hs2.slots, hind hi0]
  -- the entry that is read is the address of the block
  have hentry : entry (x2.1.block ind) j = slots x2.1 e (.data (NDIRECT + j)) := by
    have h0 : (cached x2.1 e).addrs NDIRECT ≠ 0 := by
      show slots x2.1 e .ind ≠ 0
      rwa [hind2]
    have hm : slots x2.1 e (.data (NDIRECT + j)) =
        entry (x2.1.block ((cached x2.1 e).addrs NDIRECT)) (NDIRECT + j - NDIRECT) :=
      Dinode.map_indirect (Nat.le_add_right NDIRECT j) hbn h0
    rw [Nat.add_sub_cancel_left] at hm
    have ha : (cached x2.1 e).addrs NDIRECT = ind := hind2
    rw [ha] at hm
    exact hm.symm
  by_cases h0 : entry (x2.1.block ind) j = 0
  · rw [if_pos h0]
    refine (does_balloc hx2.toWork).bind fun a x3 ha => ?_
    obtain ⟨hw3, hs3, hf3⟩ := ha
    by_cases ha0 : a = 0
    · rw [if_pos ha0]
      exact ⟨hw3, fun lim => (hg2 lim).trans (hs3.going lim), fun hc => absurd rfl hc⟩
    · rw [if_neg ha0]
      -- the entry is still empty when it is stored
      have hset : Does f e off0 t (Prog.act fun _ s => s.setBlock ind
        (Bytes.set 4 (s.block ind) (4 * j) a))
          x3 fun _ x' => Found f e off0 t x (.data (NDIRECT + j)) a x' := by
        refine does_act fun x4 hx4 => ?_
        obtain ⟨hf4, -⟩ := (hf3 ha0).1.rely hx4 hw3.sound
        have hs4 := hs3.trans (hx4.still hw3.sound)
        have hind4 : slots x4.1 e .ind = ind := by rw [hs4.slots, hind2]
        obtain ⟨he, hg, hslot⟩ := edit_setEntry (j := j) hx4.toWork (by rwa [hind4]) hj
          (by rw [hs4.slots, ← hentry, h0]) hf4 rfl
        rw [hind4] at he hg hslot
        exact ⟨he, fun hw' => ⟨hw', fun lim => ((hg2 lim).trans (hs4.going lim)).trans (hg lim),
          fun _ => hslot⟩⟩
      exact hset.bind fun _ x' h => h
  · rw [if_neg h0]
    exact ⟨hx2.toWork, hg2, fun _ => hentry.symm⟩

/-! ### Bytes -/

variable {src : ℕ → Option UInt8} {off n tot m : ℕ}

/-- The first bytes of the buffer are in the file. -/
def Wrote (e : Fin NINODE) (src : ℕ → Option UInt8) (off tot : ℕ) (x : World) : Prop :=
  ∀ a < tot, slots x.1 e (.data ((off + a) / BSIZE)) ≠ 0 ∧ src a = some (byteAt x.1 e (off + a))

theorem Wrote.kept (h : Wrote e src off tot x) (hk : Kept f e (off + tot) x x') :
    Wrote e src off tot x' := by
  intro a ha
  obtain ⟨h0, hb⟩ := h a ha
  rw [hk.map _ h0, hk.bytes _ (by omega) h0]
  exact ⟨h0, hb⟩

/-- Bytes are stored in one block of the file. -/
theorem edit_write {o : ℕ} {d : List UInt8} (h : Work f e off0 t x) (ho : (x.1.file f).off ≤ o)
    (h0 : slots x.1 e (.data (o / BSIZE)) ≠ 0)
    (hs' : s' = x.1.setBlock (slots x.1 e (.data (o / BSIZE)))
      (Bytes.write (x.1.block (slots x.1 e (.data (o / BSIZE)))) (o % BSIZE) d)) :
    Edit f e t x s' ∧ Going f e t o x (s', x.2) ∧ slots s' e = slots x.1 e ∧
      ∀ i < d.length, o % BSIZE + i < BSIZE → byteAt s' e (o + i) = d.getD i 0 := by
  have hslots : slots s' e = slots x.1 e := by
    rw [hs']
    refine slots_setBlock ?_
    by_cases hi : slots x.1 e .ind = 0
    · exact Or.inl hi
    · exact Or.inr fun hc => by cases h.sound.one _ _ hi hc.symm
  have hkept : Kept f e o x (s', x.2) := by
    refine ⟨by rw [hs']; rfl, by rw [hs']; rfl, by rw [hs']; rfl, by rw [hs']; exact id,
      by rw [hs']; exact le_rfl, fun σ _ => by rw [hslots], fun p hp hp0 => ?_⟩
    show s'.block (slots s' e (.data (p / BSIZE))) (p % BSIZE) = byteAt x.1 e p
    rw [hslots, hs']
    show update x.1.block _ _ _ _ = byteAt x.1 e p
    by_cases hb : slots x.1 e (.data (p / BSIZE)) = slots x.1 e (.data (o / BSIZE))
    · -- the same block: the byte lies before those that are stored
      have hdiv := h.sound.one _ _ h0 hb
      rw [Slot.data.injEq] at hdiv
      have hlt : p % BSIZE < o % BSIZE := by
        have hdiv : p / 1024 = o / 1024 := hdiv
        show p % 1024 < o % 1024
        omega
      rw [hb, update_self, Bytes.write, if_neg (by omega), byteAt, hb]
    · rw [update_of_ne hb]
      rfl
  refine ⟨⟨by rw [hs']; rfl, by rw [hs']; exact h.lock, ?_, hkept.mono ho⟩, hkept.going, hslots, ?_⟩
  · exact h.sound.of_slots hslots (by rw [hs']; exact fun _ hb => hb) (by rw [hs']; rfl)
      (by rw [hs']; rfl)
      (by rw [hs']; rfl)
  · intro i hi hlt
    have hdiv : (o + i) / BSIZE = o / BSIZE := by
      have hlt : o % 1024 + i < 1024 := hlt
      show (o + i) / 1024 = o / 1024
      omega
    have hmod : (o + i) % BSIZE = o % BSIZE + i := by
      have hlt : o % 1024 + i < 1024 := hlt
      show (o + i) % 1024 = o % 1024 + i
      omega
    rw [byteAt, hslots, hdiv, hmod, hs']
    show update x.1.block _ _ _ _ = _
    rw [update_self, Bytes.write, if_pos (by omega), Nat.add_sub_cancel_left]

/-- The loop of `writei`; the induction is on the rounds that are left. -/
theorem does_writeFrom (hmax : off + n ≤ MAXFILE * BSIZE) (k : ℕ) : ∀ tot x, Work f e off0 t x →
    (x.1.inode e).valid = true → (x.1.file f).off = off → Wrote e src off tot x → tot ≤ n →
    Does f e off0 t (writeFrom e src off n k tot) x fun r x' => Work f e off0 t x' ∧
      Going f e t off x x' ∧ Wrote e src off r x' ∧ r ≤ n := by
  induction k with
  | zero => exact fun tot x hw _ _ hwr hle => ⟨hw, Going.refl, hwr, hle⟩
  | succ k ih =>
    intro tot x hw hv hoff hwr hle
    rw [writeFrom]
    by_cases hlt : tot < n
    · rw [if_pos hlt]
      obtain ⟨o, ho⟩ : ∃ o, o = off + tot := ⟨_, rfl⟩
      obtain ⟨m, hm⟩ : ∃ m, m = min (n - tot) (BSIZE - o % BSIZE) := ⟨_, rfl⟩
      have hmod : o % BSIZE < BSIZE := Nat.mod_lt _ (by decide)
      dsimp only
      rw [← ho, ← hm]
      have hbn : o / BSIZE < MAXFILE := Nat.div_lt_of_lt_mul (by rw [Nat.mul_comm]; omega)
      refine (does_bmap hw hv hbn).bind fun a x1 ha => ?_
      obtain ⟨hw1, hg1, hslot⟩ := ha
      by_cases ha0 : a = 0
      · rw [if_pos ha0]
        exact ⟨hw1, hg1 _, hwr.kept (hg1 _).toKept, hle⟩
      rw [if_neg ha0]
      have hlen : (fetch src tot m).length ≤ m := length_fetch_le m
      -- the write comes later than `bmap`, but the block is still the file's
      have hput : Does f e off0 t (Prog.act fun _ s => s.setBlock a
          (Bytes.write (s.block a) (o % BSIZE) (fetch src tot m))) x1 fun _ x' =>
          Work f e off0 t x' ∧ Going f e t o x x' ∧ slots x'.1 e (.data (o / BSIZE)) ≠ 0 ∧
          ∀ i < (fetch src tot m).length, byteAt x'.1 e (o + i) = (fetch src tot m).getD i 0 := by
        refine does_act fun x2 hx2 => ?_
        have hg2 : Going f e t o x x2 := (hg1 o).trans (hx2.going hw1.sound)
        have hslot2 : slots x2.1 e (.data (o / BSIZE)) = a := by
          rw [hx2.state.slots hw1.sound, hslot ha0]
        obtain ⟨he, hg, hs, hbytes⟩ := edit_write (o := o) (d := fetch src tot m) hx2.toWork
          (by rw [hg2.off]; omega) (by rwa [hslot2]) rfl
        rw [hslot2] at he hg hs hbytes
        refine ⟨he, fun hw' => ⟨hw', hg2.trans hg, ?_, fun i hi => hbytes i hi (by omega)⟩⟩
        rwa [hs, hslot2]
      refine hput.bind fun _ x' hr => ?_
      obtain ⟨hw', hg', hmap, hbytes⟩ := hr
      have hwr' : Wrote e src off tot x' := hwr.kept (by rw [← ho]; exact hg'.toKept)
      by_cases hall : (fetch src tot m).length = m
      · rw [if_pos hall]
        have hwrote : Wrote e src off (tot + m) x' := by
          intro b hb
          by_cases hbt : b < tot
          · exact hwr' b hbt
          -- a byte of this round
          obtain ⟨i, rfl⟩ := Nat.exists_eq_add_of_le (not_lt.mp hbt)
          have hi : i < (fetch src tot m).length := by omega
          have hdiv : (off + (tot + i)) / BSIZE = o / BSIZE := by
            have hlt : o % 1024 + i < 1024 := by
              have hmod : o % 1024 < 1024 := hmod
              have hm : m = min (n - tot) (1024 - o % 1024) := hm
              omega
            rw [← Nat.add_assoc, ← ho]
            show (o + i) / 1024 = o / 1024
            omega
          refine ⟨by rwa [hdiv], ?_⟩
          rw [← Nat.add_assoc off, ← ho, hbytes i hi, List.getD_eq_getElem _ _ hi]
          exact fetch_getElem? m (List.getElem?_eq_getElem hi)
        refine (ih (tot + m) x' hw' (hg'.valid hv) (by rw [hg'.off, hoff]) hwrote (by omega)).mono
          ?_
        intro r x'' hr
        exact ⟨hr.1, (hg'.mono (by omega)).trans hr.2.1, hr.2.2⟩
      · rw [if_neg hall]
        exact ⟨hw', hg'.mono (by omega), hwr', hle⟩
    · rw [if_neg hlt]
      exact ⟨hw, Going.refl, hwr, hle⟩

/-- What `writei` has done: nothing, or the bytes it reports. -/
structure Written (f : Fin NFILE) (e : Fin NINODE) (off0 : ℕ) (t : Fin NPROC)
    (src : ℕ → Option UInt8)
    (off : ℕ) (x : World) (r : ℤ) (x' : World) : Prop where
  work : Work f e off0 t x'
  going : Going f e t off x x'
  wrote : Wrote e src off r.toNat x'
  size : 0 < r.toNat → off + r.toNat ≤ (cached x'.1 e).size
  max : 0 < r.toNat → off + r.toNat ≤ MAXFILE * BSIZE

/-- An inode gets a new size. -/
theorem edit_setSize {size : ℕ} (h : Work f e off0 t x) (hv : (x.1.inode e).valid = true)
    (hsize : (x.1.inode e).size ≤ size)
    (hs' : s' = x.1.setInode e { x.1.inode e with size := size }) :
    Edit f e t x s' ∧ (∀ lim, Going f e t lim x (s', x.2)) ∧ (cached s' e).size = size := by
  have hin : s'.inode e = { x.1.inode e with size := size } := by
    rw [hs']
    exact update_self ..
  have hc : cached s' e = { (x.1.inode e).toDinode with size := size } := by
    rw [cached_of_valid (by rw [hin]; exact hv), hin]
  have hc0 := cached_of_valid hv
  obtain ⟨hslots, hkept⟩ := kept_of_addrs (f := f) (e := e) (x := x) (s := s') (by rw [hs']; rfl)
    (by rw [hs']; rfl)
    (by rw [hin]; exact id) (by rw [hc, hc0]) (by rw [hc, hc0]; exact hsize)
  refine ⟨⟨by rw [hs']; rfl, by rw [hin]; exact h.lock, ?_, hkept _⟩,
    fun lim => (hkept lim).going, by rw [hc]⟩
  exact h.sound.of_slots hslots (by rw [hs']; exact fun _ hb => hb) (by rw [hs']; rfl) (by rw [hin])
    (by rw [hc, hc0])

/-- The inode is copied to disk. -/
theorem edit_setDinode {i : ℕ} {d : Dinode} (h : Work f e off0 t x)
    (hv : (x.1.inode e).valid = true)
    (hs' : s' = x.1.setDinode i d) :
    Edit f e t x s' ∧ (∀ lim, Going f e t lim x (s', x.2)) ∧ cached s' e = cached x.1 e := by
  have hc : cached s' e = cached x.1 e := by
    have hin : s'.inode = x.1.inode := by rw [hs']; rfl
    rw [cached_of_valid (by rw [hin]; exact hv), cached_of_valid hv, hin]
  obtain ⟨hslots, hkept⟩ := kept_of_addrs (f := f) (e := e) (x := x) (s := s') (by rw [hs']; rfl)
    (by rw [hs']; rfl)
    (by rw [hs']; exact id) (by rw [hc]) (by rw [hc])
  refine ⟨⟨by rw [hs']; rfl, by rw [hs']; exact h.lock, ?_, hkept _⟩, fun lim => (hkept lim).going,
    hc⟩
  exact h.sound.of_slots hslots (by rw [hs']; exact fun _ hb => hb) (by rw [hs']; rfl)
    (by rw [hs']; rfl) (by rw [hc])

/-- **The bytes that `writei` reports are behind the offset.** -/
theorem does_writei (hw : Work f e off0 t x) (hv : (x.1.inode e).valid = true)
    (hoff : (x.1.file f).off = off) :
    Does f e off0 t (writei e src off n) x (Written f e off0 t src off x) := by
  unfold writei getInode
  refine does_look_bind fun x1 hx1 => ?_
  have hg1 : Going f e t off x x1 := hx1.going hw.sound
  have hfail : Written f e off0 t src off x (-1) x1 :=
    ⟨hx1.toWork, hg1, fun a ha => absurd ha (Nat.not_lt_zero a), fun hc => absurd hc (lt_irrefl _),
      fun hc => absurd hc (lt_irrefl _)⟩
  by_cases hbad : off > (x1.1.inode e).size ∨ (off + n) % 2 ^ 32 < off
  · rwa [if_pos hbad]
  rw [if_neg hbad]
  by_cases hbig : off + n > MAXFILE * BSIZE
  · rwa [if_pos hbig]
  rw [if_neg hbig]
  have hv1 := hg1.valid hv
  refine (does_writeFrom (not_lt.mp hbig) n 0 x1 hx1.toWork hv1 (by rw [hg1.off, hoff])
    (fun a ha => absurd ha (Nat.not_lt_zero a)) (Nat.zero_le n)).bind fun tot x2 hr => ?_
  obtain ⟨hw2, hg2, hwr2, hle⟩ := hr
  have hv2 := hg2.valid hv1
  -- the size is raised and written back; neither loses what the loop has written
  have hsz : Does f e off0 t (modifyInode e fun ip => { ip with size := max ip.size (off + tot) })
    x2
      fun _ x' => Work f e off0 t x' ∧ (∀ lim, Going f e t lim x2 x') ∧
        off + tot ≤ (cached x'.1 e).size := by
    refine does_act fun x3 hx3 => ?_
    obtain ⟨he, hg, hsize⟩ := edit_setSize hx3.toWork (hx3.state.valid.trans hv2)
      (le_max_left _ (off + tot)) rfl
    exact ⟨he, fun hw' => ⟨hw', fun lim => (hx3.going hw2.sound).trans (hg lim), by
      rw [hsize]; exact le_max_right _ _⟩⟩
  refine hsz.bind fun _ x4 hr => ?_
  obtain ⟨hw4, hg4, hsize4⟩ := hr
  have hup : Does f e off0 t (iupdate e) x4
      fun _ x' => Work f e off0 t x' ∧ (∀ lim, Going f e t lim x4 x') ∧
        off + tot ≤ (cached x'.1 e).size := by
    refine does_act fun x5 hx5 => ?_
    obtain ⟨he, hg, hc⟩ := edit_setDinode hx5.toWork (hx5.state.valid.trans ((hg4 0).valid hv2)) rfl
    exact ⟨he, fun hw' => ⟨hw', fun lim => (hx5.going hw4.sound).trans (hg lim), by
      rw [hc, hx5.state.size]; exact hsize4⟩⟩
  refine hup.bind fun _ x6 hr => ?_
  obtain ⟨hw6, hg6, hsize6⟩ := hr
  refine ⟨hw6, hg1.trans (hg2.trans ((hg4 off).trans (hg6 off))), ?_, fun _ => hsize6, fun _ => by
    rw [Int.toNat_natCast]; omega⟩
  rw [Int.toNat_natCast]
  exact (hwr2.kept (hg4 _).toKept).kept (hg6 _).toKept

end Xv6.Fs.Shared
