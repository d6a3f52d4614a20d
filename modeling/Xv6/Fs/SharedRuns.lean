import Xv6.Fs.SharedWrite

/-!
# Nothing is lost between writers of a shared file

Every run of the machine in which processes call `filewrite` on one open file: the
chunks lie one behind the other from the offset at the start, the offset is where the
last one ends, and every byte of a chunk is in the file.  So the file holds, in the
order in which the rounds of the calls took the lock, the parts of their buffers.

A process that has the lock knows the state as it left it, one that waits for the lock
knows only how far its call has come.

## Main definitions

* `InCall`, `Know`, `discipline` — what a process knows of its call.

## Main results

* `safe_filewrite` — a call keeps to the discipline.
* `shared_writes` — **the chunks of all calls, one behind the other.**
-/

namespace Xv6.Fs.Shared

open Conc Function

variable {f : Fin NFILE} {e : Fin NINODE} {off0 : ℕ} {t u : Fin NPROC} {x x0 x1 x' : World}
  {α : Type} {c : Call} {i j n : ℕ} {b b' : Book}

/-! ### What a process knows -/

/-- Process `t` is in a call that has written `i` bytes. -/
structure InCall (t : Fin NPROC) (c : Call) (i : ℕ) (b : Book) : Prop where
  len : (b.calls t).length = (b.rets t).length + 1
  call : (b.calls t)[(b.rets t).length]? = some c
  written : written b.chunks t (b.rets t).length = i

inductive Know where
  /-- It is in no call. -/
  | idle
  /-- It is in a call that has written so many bytes. -/
  | busy (c : Call) (i : ℕ)
  /-- It has the lock, and left this behind. -/
  | own (x : World)

/-- What a process knows is true. -/
def Knows (f : Fin NFILE) (e : Fin NINODE) (off0 : ℕ) (x : World) (t : Fin NPROC) : Know → Prop
  | .idle => (x.2.calls t).length = (x.2.rets t).length
  | .busy c i => InCall t c i x.2
  | .own x0 => Rely f e off0 t x0 x

/-- The file is in order, and what the processes know is true; nothing panics. -/
def discipline (f : Fin NFILE) (e : Fin NINODE) (off0 : ℕ) : Discipline (Fin NPROC) World Know where
  Inv x gs := Ok f e off0 x ∧ ∀ t, Knows f e off0 x t (gs t)
  Guar _ _ := True
  refl _ := trivial
  idle g := g = .idle
  allow _ := False

/-- The calls of `u` are where they were. -/
structure Spares (u : Fin NPROC) (b b' : Book) : Prop where
  calls : b'.calls u = b.calls u
  rets : b'.rets u = b.rets u
  written : ∀ k, written b'.chunks u k = written b.chunks u k

theorem InCall.spared (h : InCall u c i b) (hs : Spares u b b') : InCall u c i b' := by
  refine ⟨?_, ?_, ?_⟩
  · rw [hs.calls, hs.rets]
    exact h.len
  · rw [hs.calls, hs.rets]
    exact h.call
  · rw [hs.rets, hs.written]
    exact h.written

theorem note_spares {s s' : State} (hu : u ≠ t) : Spares u b (note f t s s' b) := by
  unfold note
  split
  · exact ⟨rfl, rfl, fun _ => rfl⟩
  · exact ⟨rfl, rfl, fun k => written_cons_of_ne (Or.inl hu.symm)⟩

theorem Rely.self (h : Work f e off0 t x) : Rely f e off0 t x x :=
  ⟨h, h.sound.elsewhere_of_eq rfl rfl, rfl, rfl, rfl⟩

/-- What others know is still true after a step of `t`.  A step that the lock holder may
see has to leave the file alone. -/
theorem inv_update {gs : Fin NPROC → Know} {g : Know} (hI : (discipline f e off0).Inv x gs)
    (hok : Ok f e off0 x') (hme : Knows f e off0 x' t g) (hspare : ∀ u, u ≠ t → Spares u x.2 x'.2)
    (hown : ∀ u x0, u ≠ t → gs u = .own x0 → Elsewhere f e x x' ∧
      (x'.1.inode e).lock = (x.1.inode e).lock ∧ x'.2.chunks = x.2.chunks) :
    (discipline f e off0).Inv x' (update gs t g) := by
  refine ⟨hok, fun u => ?_⟩
  obtain rfl | hu := eq_or_ne u t
  · rwa [update_self]
  rw [update_of_ne hu]
  have hk := hI.2 u
  have hs := hspare u hu
  cases hg : gs u with
  | idle =>
    rw [hg] at hk
    show (x'.2.calls u).length = (x'.2.rets u).length
    rwa [hs.calls, hs.rets]
  | busy c i =>
    rw [hg] at hk
    exact InCall.spared hk hs
  | own x0 =>
    rw [hg] at hk
    obtain ⟨hel, hlock, hch⟩ := hown u x0 hu hg
    have hk : Rely f e off0 u x0 x := hk
    exact ⟨⟨hok, hlock.trans hk.lock⟩, hk.state.trans hel, hch.trans hk.chunks,
      hs.calls.trans hk.calls, hs.rets.trans hk.rets⟩

theorem own_unique {gs : Fin NPROC → Know} (hI : (discipline f e off0).Inv x gs)
    (hu : gs u = .own x0) : (x.1.inode e).lock = some u := by
  have hk := hI.2 u
  rw [hu] at hk
  have hk : Rely f e off0 u x0 x := hk
  exact hk.lock

theorem Does.safe {p : FsM α} {Q : α → World → Prop} (h : Does f e off0 t p x Q) :
    Safe (discipline f e off0) t (p.watch (note f)) (.own x) fun a g => ∃ x', g = .own x' ∧
      Q a x' := by
  refine Amid.safe (D := discipline f e off0) (fun x0 x gs hI hg => ?_) (fun x0 x x' gs hI hg hG =>
    ⟨?_, trivial⟩) h
  · have hk := hI.2 t
    rwa [hg] at hk
  · have hlock := own_unique hI hg
    refine inv_update hI hG.2.toOk (Rely.self hG.2) (fun u hu => ?_) fun u x1 hu hgu => ?_
    · rw [hG.1]
      exact note_spares hu
    · rw [own_unique hI hgu] at hlock
      exact absurd (Option.some.inj hlock) hu

theorem safe_peek {ρ : Type} {g : Know} {h : State → ρ} {Q : ρ → Know → Prop}
    (hQ : ∀ x, Ok f e off0 x → Q (h x.1) g) :
    Safe (discipline f e off0) t ((Prog.look h).watch (note f)) g Q := by
  refine safe_watch_atomic fun x gs hI hg => ?_
  dsimp only
  rw [note_self]
  exact ⟨g, ⟨by rw [← hg, update_eq_self]; exact hI, trivial⟩, hQ x hI.1⟩

/-! ### The lock -/

theorem Ok.setLock {o : Option (Fin NPROC)} {s' : State} (h : Ok f e off0 x)
    (hs' : s' = x.1.setInode e { x.1.inode e with lock := o }) : Ok f e off0 (s', x.2) := by
  have hin : s'.inode e = { x.1.inode e with lock := o } := by
    rw [hs']
    exact update_self ..
  have hc : cached s' e = cached x.1 e := by
    unfold cached
    rw [hin, hs']
    rfl
  obtain ⟨hslots, hkept⟩ := kept_of_addrs (f := f) (e := e) (x := x) (s := s') (by rw [hs']; rfl)
    (by rw [hs']; rfl)
    (by rw [hin]; exact id) (by rw [hc]) (by rw [hc])
  refine ⟨?_, h.recorded.same (hkept _) rfl rfl rfl⟩
  exact h.sound.of_slots hslots (by rw [hs']; exact fun _ hb => hb) (by rw [hs']; rfl) (by rw [hin])
    (by rw [hc])

theorem safe_acquiresleep : Safe (discipline f e off0) t ((acquiresleep e).watch (note f))
    (.busy c i)
    fun _ g => ∃ x, g = .own x ∧ Work f e off0 t x ∧ InCall t c i x.2 := by
  refine safe_watch_atomic fun x gs hI hg => ?_
  have hk := hI.2 t
  rw [hg] at hk
  by_cases hl : (x.1.inode e).lock = none
  · rw [if_pos hl]
    dsimp only
    rw [note_setInode]
    have hok := hI.1.setLock (o := some t) rfl
    have hw : Work f e off0 t (x.1.setInode e { x.1.inode e with lock := some t }, x.2) := by
      refine ⟨hok, ?_⟩
      show (update x.1.inode e _ e).lock = some t
      rw [update_self]
    refine ⟨.own _, ⟨inv_update hI hok (Rely.self hw) (fun u _ => ⟨rfl, rfl, fun _ => rfl⟩) ?_,
      trivial⟩, _, rfl, hw, hk⟩
    intro u x0 _ hgu
    rw [own_unique hI hgu] at hl
    cases hl
  · rw [if_neg hl]
    trivial

theorem safe_iunlock (h : InCall t c i x0.2) :
    Safe (discipline f e off0) t ((iunlock e).watch (note f)) (.own x0) fun _ g =>
      g = .busy c i := by
  refine safe_watch_atomic fun x gs hI hg => ?_
  have hlock := own_unique hI hg
  have hk := hI.2 t
  rw [hg] at hk
  have hk : Rely f e off0 t x0 x := hk
  have href := hk.sound.ref
  rw [if_neg (by rw [hlock]; simp; omega)]
  dsimp only
  rw [note_setInode]
  refine ⟨_, ⟨inv_update hI (hI.1.setLock rfl) ?_ (fun u _ => ⟨rfl, rfl, fun _ => rfl⟩) ?_,
    trivial⟩, rfl⟩
  · exact h.spared ⟨hk.calls, hk.rets, fun k => by rw [hk.chunks]⟩
  · intro u x1 hu hgu
    rw [own_unique hI hgu] at hlock
    exact absurd (Option.some.inj hlock) hu

/-- What `ilock` does once it has the lock. -/
theorem does_read (hw : Work f e off0 t x) :
    Does f e off0 t (do let ip ← getInode e; if ip.valid then pure () else readInode e) x
      fun _ x' =>
      Work f e off0 t x' ∧ Going f e t 0 x x' ∧ (x'.1.inode e).valid = true := by
  unfold getInode
  refine does_look_bind fun x1 hx => ?_
  have hg : Going f e t 0 x x1 := hx.going hw.sound
  cases hv : (x1.1.inode e).valid with
  | true =>
    rw [if_pos rfl]
    exact ⟨hx.toWork, hg, hv⟩
  | false =>
    rw [if_neg (by decide)]
    refine amid_watch_atomic fun x2 hx2 => ?_
    have hv2 := hx2.state.valid.trans hv
    -- until it is read, the inode stands for what is on disk
    have hc2 : cached x2.1 e = x2.1.dinode (x2.1.inode e).inum := by
      unfold cached
      rw [hv2]
      rfl
    have htype : (x2.1.dinode (x2.1.inode e).inum).type ≠ .zero := by
      rw [← hc2, hx2.sound.regular]
      decide
    rw [if_neg htype]
    dsimp only
    rw [note_setInode]
    obtain ⟨s', hs'⟩ : ∃ s', s' = x2.1.setInode e
      { x2.1.inode e with toDinode := x2.1.dinode (x2.1.inode e).inum, valid := true } := ⟨_, rfl⟩
    rw [← hs']
    have hin : s'.inode e =
        { x2.1.inode e with toDinode := x2.1.dinode (x2.1.inode e).inum, valid := true } := by
      rw [hs']
      exact update_self ..
    have hc : cached s' e = cached x2.1 e := by
      rw [hc2, cached_of_valid (by rw [hin]), hin]
    obtain ⟨hslots, hkept⟩ := kept_of_addrs (f := f) (e := e) (x := x2) (s := s') (by rw [hs']; rfl)
      (by rw [hs']; rfl)
      (by rw [hin]; exact fun _ => rfl) (by rw [hc]) (by rw [hc])
    have he : Edit f e t x2 s' := by
      refine ⟨by rw [hs']; rfl, by rw [hin]; exact hx2.lock, ?_, hkept _⟩
      exact hx2.sound.of_slots hslots (by rw [hs']; exact fun _ hb => hb) (by rw [hs']; rfl)
        (by rw [hin]) (by rw [hc])
    have hw' := hx2.toWork.edit he
    have hnote : note f t x2.1 s' x2.2 = x2.2 := note_of_eq he.file
    exact ⟨⟨hnote.symm, hw'⟩, hw', (hg.trans (hx2.going hx.sound)).trans
      (hkept 0).going, by rw [hin]⟩

/-! ### The offset -/

/-- The offset moves on behind the bytes that were written. -/
theorem Recorded.advance {r : ℕ} (h : Recorded f e off0 x) (hc : InCall t c i x.2)
    (hw : Wrote e (fun a => c.src (i + a)) (x.1.file f).off r x) (hr : 0 < r)
    (hmax : (x.1.file f).off + r ≤ MAXFILE * BSIZE)
    (hsize : (x.1.file f).off + r ≤ (cached x.1 e).size) {s' : State}
    (hs' : s' = x.1.setFile f { x.1.file f with off := (x.1.file f).off + r }) :
    Recorded f e off0 (s', note f t x.1 s' x.2) ∧ InCall t c (i + r) (note f t x.1 s' x.2) := by
  have hfile : s'.file f = { x.1.file f with off := (x.1.file f).off + r } := by
    rw [hs']
    exact update_self ..
  have hmax32 : MAXFILE * BSIZE < 2 ^ 32 := by decide
  have hk : (x.2.calls t).length - 1 = (x.2.rets t).length := by
    have := hc.len
    omega
  have hnote : note f t x.1 s' x.2 =
      { x.2 with chunks := ⟨t, (x.2.rets t).length, i, (x.1.file f).off, r⟩ :: x.2.chunks } := by
    unfold note
    rw [if_neg (by rw [hfile]; dsimp only; omega), hk, hfile]
    dsimp only
    rw [hc.written, Nat.add_sub_cancel_left]
  have hcached : cached s' e = cached x.1 e := by rw [hs']; rfl
  have hslots : slots s' e = slots x.1 e := by rw [hs']; rfl
  have hbyte : byteAt s' e = byteAt x.1 e := by rw [hs']; rfl
  have hown : written (⟨t, (x.2.rets t).length, i, (x.1.file f).off, r⟩ :: x.2.chunks) t
      (x.2.rets t).length = r + written x.2.chunks t (x.2.rets t).length := written_cons_self
  rw [hnote]
  refine ⟨⟨?_, ?_, ?_, ?_, ⟨⟨h.off, hc.written.symm, c, hc.call, fun j hj => ?_⟩, ?_⟩, ?_, ?_, ?_⟩,
    hc.len, hc.call, ?_⟩
  · rw [hfile]
    exact h.type
  · rw [hfile]
    exact h.ip
  · rw [hfile, total_cons, h.off]
    dsimp only
    omega
  · rw [hfile]
    exact lt_of_le_of_lt hmax hmax32
  · rw [hbyte]
    exact (hw j hj).2
  · rw [hbyte]
    exact h.placed
  · intro o h1 h2
    rw [hslots]
    rw [hfile] at h2
    by_cases ho : o < (x.1.file f).off
    · exact h.mapped o h1 ho
    · -- one of the bytes that were written just now
      obtain ⟨a, rfl⟩ := Nat.exists_eq_add_of_le (not_lt.mp ho)
      exact (hw a (by dsimp only at h2; omega)).1
  · intro _
    rwa [hfile, hcached]
  · -- the call of the chunk has not returned
    intro u k c' hcall hret
    have hlt : k < (x.2.rets u).length := (List.getElem?_eq_some_iff.mp hret).1
    have hne : t ≠ u ∨ (x.2.rets t).length ≠ k := by
      obtain rfl | hu := eq_or_ne t u
      · exact Or.inr hlt.ne'
      · exact Or.inl hu
    have hsame : written (⟨t, (x.2.rets t).length, i, (x.1.file f).off, r⟩ :: x.2.chunks) u k =
        written x.2.chunks u k := written_cons_of_ne hne
    rw [hsame]
    exact h.returned u k c' hcall hret
  · rw [hown, hc.written, Nat.add_comm]

theorem does_advance {r : ℤ} {off : ℕ} (hw : Written f e off0 t (fun a => c.src (i + a)) off x0 r x)
    (hoff : (x.1.file f).off = off) (hc : InCall t c i x.2) :
    Does f e off0 t (modifyFile f fun ff => { ff with off := (ff.off + r.toNat) % 2 ^ 32 }) x
      fun _ x' =>
      Work f e off0 t x' ∧ InCall t c (i + r.toNat) x'.2 := by
  refine amid_watch_atomic fun x1 hx => ?_
  have hc1 : InCall t c i x1.2 := hc.spared ⟨hx.calls, hx.rets, fun k => by rw [hx.chunks]⟩
  have hgo : Going f e t (off + r.toNat) x x1 := hx.going hw.work.sound
  have hoff1 : (x1.1.file f).off = off := hgo.off.trans hoff
  have hlt := hx.recorded.lt
  dsimp only
  rcases Nat.eq_zero_or_pos r.toNat with h0 | hpos
  · -- nothing was written
    have hself : x1.1.setFile f { x1.1.file f with off := ((x1.1.file f).off + r.toNat) % 2 ^ 32 } =
        x1.1 := by
      rw [h0, Nat.add_zero, Nat.mod_eq_of_lt hlt]
      unfold State.setFile
      rw [update_eq_self]
    rw [hself, note_self, h0]
    exact ⟨⟨(note_self ..).symm, hx.toWork⟩, hx.toWork, hc1⟩
  · have hmax := hw.max hpos
    have hmax32 : MAXFILE * BSIZE < 2 ^ 32 := by decide
    rw [hoff1, Nat.mod_eq_of_lt (by omega), ← hoff1]
    obtain ⟨s', hs'⟩ : ∃ s', s' = x1.1.setFile f
        { x1.1.file f with off := (x1.1.file f).off + r.toNat } :=
      ⟨_, rfl⟩
    rw [← hs']
    have hwr := hw.wrote.kept hgo.toKept
    have hsize := (hw.size hpos).trans hgo.size
    rw [← hoff1] at hwr hsize hmax
    obtain ⟨hrec, hin⟩ := hx.recorded.advance hc1 hwr hpos hmax hsize hs'
    have hbook : (note f t x1.1 s' x1.2).others = x1.2.others := by
      unfold note
      split <;> rfl
    have hsound : Sound e (s', note f t x1.1 s' x1.2) := by
      have hs := hx.sound
      rw [hs']
      rw [hs'] at hbook
      exact ⟨hs.ref, hs.regular,
        hs.small, by rw [hbook]; exact hs.boot, by rw [hbook]; exact hs.used,
        hs.one, by rw [hbook]; exact hs.theirs⟩
    have hwork : Work f e off0 t (s', note f t x1.1 s' x1.2) :=
      ⟨⟨hsound, hrec⟩, by rw [hs']; exact hx.lock⟩
    exact ⟨⟨rfl, hwork⟩, hwork, hin⟩

/-! ### Calls -/

/-- The loop of `filewrite`; the induction is on the rounds that are left. -/
theorem safe_filewriteFrom (k : ℕ) : ∀ i, i ≤ n →
    n ≤ i + k → Safe (discipline f e off0) t ((filewriteFrom f e c.src n k i).watch (note f))
      (.busy c i)
      fun r g => ∃ j, g = .busy c j ∧ r ≤ n ∧ (r = n → j = n) := by
  induction k with
  | zero => exact fun i hle _ => ⟨i, rfl, hle, id⟩
  | succ k ih =>
    intro i hle hk
    rw [filewriteFrom]
    by_cases hlt : i < n
    · rw [if_pos hlt]
      obtain ⟨n1, hn1⟩ : ∃ n1, n1 = min (n - i) writeMax := ⟨_, rfl⟩
      have hmax : 0 < writeMax := by decide
      dsimp only
      rw [← hn1]
      unfold begin_op ilock
      simp only [Prog.pure_bind, Prog.watch_bind]
      refine Safe.bind (R := fun _ g => ∃ x, g = .own x ∧ Work f e off0 t x ∧ InCall t c i x.2 ∧
        (x.1.inode e).valid = true) ?_ fun _ g hg => ?_
      · -- ilock
        refine (safe_peek (g := .busy c i) (Q := fun ip g => g = .busy c i ∧ ¬ ip.ref < 1)
          fun x hx => ⟨rfl, by have := hx.sound.ref; omega⟩).bind fun ip g hg => ?_
        obtain ⟨rfl, href⟩ := hg
        rw [if_neg href, Prog.watch_bind]
        refine safe_acquiresleep.bind fun _ g hg => ?_
        obtain ⟨x, rfl, hw, hc⟩ := hg
        refine (does_read hw).safe.mono fun _ g hg => ?_
        obtain ⟨x', rfl, hw', hgo, hv⟩ := hg
        exact ⟨x', rfl, hw', hc.spared ⟨hgo.calls, hgo.rets, fun k => by rw [hgo.chunks]⟩, hv⟩
      obtain ⟨x, rfl, hw, hc, hv⟩ := hg
      have hlook : Does f e off0 t (Prog.look fun s => (s.file f).off) x fun off x' =>
          Work f e off0 t x' ∧ InCall t c i x'.2 ∧ (x'.1.inode e).valid = true ∧
          (x'.1.file f).off = off :=
        does_look fun x1 hx =>
          ⟨hx.toWork, hc.spared ⟨hx.calls, hx.rets, fun k => by rw [hx.chunks]⟩,
          hx.state.valid.trans hv, rfl⟩
      refine hlook.safe.bind fun off g hg => ?_
      obtain ⟨x1, rfl, hw1, hc1, hv1, hoff1⟩ := hg
      -- `writei` and the new offset, under the inode's lock
      have hwritei : Does f e off0 t (writei e (fun a => c.src (i + a)) off n1) x1
          (Written f e off0 t (fun a => c.src (i + a)) off x1) := does_writei hw1 hv1 hoff1
      refine hwritei.safe.bind fun r g hg => ?_
      obtain ⟨x2, rfl, hw2⟩ := hg
      have hc2 : InCall t c i x2.2 :=
        hc1.spared ⟨hw2.going.calls, hw2.going.rets, fun k => by rw [hw2.going.chunks]⟩
      refine (does_advance hw2 (hw2.going.off.trans hoff1) hc2).safe.bind fun _ g hg => ?_
      obtain ⟨x3, rfl, -, hc3⟩ := hg
      refine (safe_iunlock hc3).bind fun _ g hg => ?_
      subst hg
      unfold end_op
      rw [Prog.watch_pure, Prog.pure_bind]
      by_cases hr : r = n1
      · rw [if_pos hr, hr, Int.toNat_natCast]
        exact ih (i + n1) (by omega) (by omega)
      · rw [if_neg hr]
        exact ⟨i + r.toNat, rfl, hle, fun hc => absurd hc hlt.ne⟩
    · rw [if_neg hlt]
      exact ⟨i, rfl, hle, id⟩

/-- **A call keeps to the discipline**, and reports success only if all its bytes are written. -/
theorem safe_filewrite : Safe (discipline f e off0) t ((filewrite f c.src c.n).watch (note f))
    (.busy c 0)
    fun r g => ∃ j, g = .busy c j ∧ (r = c.n → j = c.n.toNat) := by
  unfold filewrite
  rw [Prog.watch_bind]
  refine (safe_peek (g := .busy c 0)
    (Q := fun ff g => g = .busy c 0 ∧ ff.type = .FD_INODE ∧ ff.ip = e)
    fun x hx => ⟨rfl, hx.recorded.type, hx.recorded.ip⟩).bind fun ff g hg => ?_
  obtain ⟨rfl, htype, hip⟩ := hg
  -- a call that writes nothing and fails: -1 is what was asked for only if it is no size at all
  have hneg : (-1 : ℤ) = c.n → 0 = c.n.toNat := fun h => by rw [← h]; rfl
  by_cases hwr : ff.writable = false
  · rw [if_pos hwr]
    exact ⟨0, rfl, hneg⟩
  rw [if_neg hwr, htype, hip]
  dsimp only
  rw [Prog.watch_bind]
  refine (safe_filewriteFrom c.n.toNat 0 (Nat.zero_le _) (by omega)).bind fun i g hg => ?_
  obtain ⟨j, rfl, hle, hj⟩ := hg
  by_cases hi : (i : ℤ) = c.n
  · rw [if_pos hi]
    exact ⟨j, rfl, fun _ => hj (by omega)⟩
  · rw [if_neg hi]
    exact ⟨j, rfl, fun h => hj (by omega)⟩

theorem Book.enter_calls {k : ℕ} {c' : Call} (h : (b.calls u)[k]? = some c') :
    ((b.enter t c).calls u)[k]? = some c' := by
  show (update b.calls t (b.calls t ++ [c]) u)[k]? = some c'
  obtain rfl | hu := eq_or_ne u t
  · rw [update_self, List.getElem?_append_left (List.getElem?_eq_some_iff.mp h).1, h]
  · rwa [update_of_ne hu]

theorem Ok.book (h : Ok f e off0 x) (hothers : b.others = x.2.others) (hch : b.chunks = x.2.chunks)
    (hcalls : ∀ t (k : ℕ) c, (x.2.calls t)[k]? = some c → (b.calls t)[k]? = some c)
    (hret : ∀ t (k : ℕ) c, (b.calls t)[k]? = some c → (b.rets t)[k]? = some c.n →
      written x.2.chunks t k = c.n.toNat) : Ok f e off0 (x.1, b) := by
  have hel : Elsewhere f e x (x.1, b) := h.sound.elsewhere_of_eq rfl hothers
  exact ⟨h.sound.elsewhere hel, h.recorded.kept (hel.kept h.sound) hch hcalls hret⟩

/-- A call begins. -/
theorem safe_enter : Safe (discipline f e off0) t (Prog.act fun t x => (x.1, x.2.enter t c)) .idle
    fun _ g => g = .busy c 0 := by
  refine safe_act fun x gs hI hg => ?_
  have hlen : (x.2.calls t).length = (x.2.rets t).length := by
    have hk := hI.2 t
    rwa [hg] at hk
  have hself : (x.2.enter t c).calls t = x.2.calls t ++ [c] := update_self ..
  have hother : ∀ u, u ≠ t → (x.2.enter t c).calls u = x.2.calls u := fun u hu =>
    update_of_ne hu _ _
  have hok : Ok f e off0 (x.1, x.2.enter t c) := by
    refine hI.1.book rfl rfl (fun u k c' => Book.enter_calls) fun u k c' hc hr => ?_
    by_cases hu : u = t
    · -- the new call has not returned
      subst hu
      have hlt : k < (x.2.rets u).length := (List.getElem?_eq_some_iff.mp hr).1
      rw [hself, List.getElem?_append_left (by omega)] at hc
      exact hI.1.recorded.returned u k c' hc hr
    · rw [hother u hu] at hc
      exact hI.1.recorded.returned u k c' hc hr
  have hin : InCall t c 0 (x.2.enter t c) := by
    refine ⟨?_, ?_, written_eq_zero fun ch hch hp => ?_⟩
    · rw [hself, List.length_append, List.length_singleton, hlen]
      rfl
    · show ((x.2.enter t c).calls t)[(x.2.rets t).length]? = some c
      rw [hself, ← hlen, List.getElem?_concat_length]
    · have hlt := hI.1.recorded.placed.call_lt ch hch
      rw [hp, hlen] at hlt
      exact hlt.ne
  refine ⟨.busy c 0, ⟨inv_update hI hok hin (fun u hu => ⟨hother u hu, rfl, fun _ => rfl⟩) ?_,
    trivial⟩, rfl⟩
  exact fun u x0 _ _ => ⟨hI.1.sound.elsewhere_of_eq rfl rfl, rfl, rfl⟩

/-- A call returns. -/
theorem safe_leave {r : ℤ} (hr : r = c.n → j = c.n.toNat) :
    Safe (discipline f e off0) t (Prog.act fun t x => (x.1, x.2.leave t r)) (.busy c j)
      fun _ g => g = .idle := by
  refine safe_act fun x gs hI hg => ?_
  have hin : InCall t c j x.2 := by
    have hk := hI.2 t
    rwa [hg] at hk
  have hself : (x.2.leave t r).rets t = x.2.rets t ++ [r] := update_self ..
  have hother : ∀ u, u ≠ t → (x.2.leave t r).rets u = x.2.rets u := fun u hu =>
    update_of_ne hu _ _
  have hok : Ok f e off0 (x.1, x.2.leave t r) := by
    refine hI.1.book rfl rfl (fun u k c' h => h) fun u k c' hc hret => ?_
    obtain rfl | hu := eq_or_ne u t
    · rw [hself] at hret
      by_cases hk : k < (x.2.rets u).length
      · rw [List.getElem?_append_left hk] at hret
        exact hI.1.recorded.returned u k c' hc hret
      · -- the call that returns now
        have hlt : k < (x.2.rets u ++ [r]).length := (List.getElem?_eq_some_iff.mp hret).1
        rw [List.length_append, List.length_singleton] at hlt
        obtain rfl : k = (x.2.rets u).length := by omega
        have hc : (x.2.calls u)[(x.2.rets u).length]? = some c' := hc
        rw [hin.call] at hc
        cases hc
        rw [List.getElem?_concat_length] at hret
        rw [hin.written, hr (Option.some.inj hret)]
    · rw [hother u hu] at hret
      exact hI.1.recorded.returned u k c' hc hret
  have hlen : ((x.2.leave t r).calls t).length = ((x.2.leave t r).rets t).length := by
    rw [hself, List.length_append, List.length_singleton]
    exact hin.len
  refine ⟨.idle, ⟨inv_update hI hok hlen (fun u hu => ⟨rfl, hother u hu, fun _ => rfl⟩) ?_,
    trivial⟩, rfl⟩
  exact fun u x0 _ _ => ⟨hI.1.sound.elsewhere_of_eq rfl rfl, rfl, rfl⟩

theorem safe_write : Safe (discipline f e off0) t (write f c) .idle fun _ g => g = .idle := by
  unfold write
  refine safe_enter.bind fun _ g hg => ?_
  subst hg
  refine safe_filewrite.bind fun r g hg => ?_
  obtain ⟨j, rfl, hj⟩ := hg
  exact safe_leave hj

/-! ### Runs -/

/-- An open file on a regular file: its offset is a `uint`, and the blocks of the inode
are in use and are nobody else's. -/
structure Ready (f : Fin NFILE) (s : State) (others : Set ℕ) : Prop where
  type : (s.file f).type = .FD_INODE
  off : (s.file f).off < 2 ^ 32
  sound : Sound (s.file f).ip (start s others).st

theorem Ready.ok {s : State} {others : Set ℕ} (h : Ready f s others) :
    Ok f (s.file f).ip (s.file f).off (start s others).st := by
  refine ⟨h.sound, h.type, rfl, rfl, h.off, trivial, fun o h1 h2 => ?_, fun hne => absurd rfl hne,
    nofun⟩
  have h2 : o < (s.file f).off := h2
  omega

theorem Ready.good {s : State} {others : Set ℕ} (h : Ready f s others) :
    (discipline f (s.file f).ip (s.file f).off).Good (start s others) :=
  ⟨⟨fun _ => .idle, ⟨h.ok, fun _ => rfl⟩, fun _ => rfl⟩, nofun⟩

/-- The others keep what the writers count on. -/
theorem good_others {c c' : Pool (Fin NPROC) World} (h : (discipline f e off0).Good c)
    (hs : OthersStep f e c c') : (discipline f e off0).Good c' := by
  obtain ⟨⟨gs, hI, hsafe⟩, hall⟩ := h
  have hch : c'.st.2.chunks = c.st.2.chunks := by rw [hs.book]
  have hcalls : c'.st.2.calls = c.st.2.calls := by rw [hs.book]
  have hrets : c'.st.2.rets = c.st.2.rets := by rw [hs.book]
  have hok : Ok f e off0 c'.st :=
    ⟨hI.1.sound.elsewhere hs.state, hI.1.recorded.same (hs.state.kept hI.1.sound) hch hcalls hrets⟩
  have hspare : ∀ u, Spares u c.st.2 c'.st.2 := fun u =>
    ⟨by rw [hcalls], by rw [hrets], fun k => by rw [hch]⟩
  refine ⟨⟨gs, ⟨hok, fun u => ?_⟩, by rw [hs.code]; exact hsafe⟩, by rw [hs.halted]; exact hall⟩
  have hk := hI.2 u
  cases hg : gs u with
  | idle =>
    rw [hg] at hk
    show (c'.st.2.calls u).length = (c'.st.2.rets u).length
    rwa [hcalls, hrets]
  | busy c i =>
    rw [hg] at hk
    exact InCall.spared hk (hspare u)
  | own x0 =>
    rw [hg] at hk
    have hk : Rely f e off0 u x0 c.st := hk
    have hlock : (c'.st.1.inode e).lock = some u := by
      rcases hs.lock with heq | ⟨v, hv, ⟨hnone, -⟩ | ⟨hsome, -⟩⟩
      · rw [heq, hk.lock]
      · rw [hk.lock] at hnone
        cases hnone
      · -- one that is in no call does not have this lock
        rw [hk.lock] at hsome
        obtain rfl := Option.some.inj hsome
        have hidle := hsafe u
        rw [hv, hg] at hidle
        cases hidle
    exact ⟨⟨hok, hlock⟩, hk.state.trans hs.state, hch.trans hk.chunks, by rw [hcalls, hk.calls],
      by rw [hrets, hk.rets]⟩

theorem good_of_reachable {s0 : State} {others : Set ℕ} {p : Pool (Fin NPROC) World}
    (h0 : Ready f s0 others) (h : (sharing f s0 others).Reachable p) :
    (discipline f (s0.file f).ip (s0.file f).off).Good p := by
  refine Discipline.invariant (fun q hq => ?_) (fun t x gs q hI hidle hcall => ?_)
    (fun q q' hg hs => good_others hg hs) h
  · rw [show q = start s0 others from hq]
    exact h0.good
  · obtain ⟨c, rfl⟩ := hcall
    have hidle : gs t = .idle := hidle
    refine ⟨.idle, ?_, safe_write⟩
    rwa [← hidle, update_eq_self]

theorem Placed.pairwise {calls : Fin NPROC → List Call} {byte : ℕ → UInt8} :
    ∀ {l : List Chunk}, Placed off0 calls byte l →
      l.Pairwise fun later earlier => earlier.start + earlier.len ≤ later.start
  | [], _ => List.Pairwise.nil
  | ch :: l, h => by
    refine List.Pairwise.cons (fun ch' hmem => ?_) (Placed.pairwise h.2)
    obtain ⟨l1, l2, rfl⟩ := List.append_of_mem hmem
    have h1 := h.1.start
    have h2 := (Placed.split h.2).start
    have hsum : total (l1 ++ ch' :: l2) = total l1 + (ch'.len + total l2) := by
      simp [total]
    omega

/-- **Writers that share an open file lose nothing.**  In every run, whatever the calls
and however their rounds interleave: the chunks do not overlap and lie one behind the
other from the offset at the start; the offset is behind the last one; every chunk is the
next part of the buffer of its call, and the file holds it; and a call that reports
success has written its whole buffer. -/
theorem shared_writes {s0 : State} {others : Set ℕ} {p : Pool (Fin NPROC) World}
    (h0 : Ready f s0 others) (h : (sharing f s0 others).Reachable p) :
    p.halted = none ∧
    (p.st.1.file f).off = (s0.file f).off + total p.st.2.chunks ∧
    p.st.2.chunks.Pairwise (fun later earlier => earlier.start + earlier.len ≤ later.start) ∧
    (∀ later ch earlier, p.st.2.chunks = later ++ ch :: earlier →
      ch.start = (s0.file f).off + total earlier ∧
      ch.pos = written earlier ch.proc ch.call ∧
      ∃ c, (p.st.2.calls ch.proc)[ch.call]? = some c ∧
        ∀ j < ch.len, c.src (ch.pos + j) = some (byteAt p.st.1 (s0.file f).ip (ch.start + j))) ∧
    (p.st.2.chunks ≠ [] → (p.st.1.file f).off ≤ (cached p.st.1 (s0.file f).ip).size) ∧
    ∀ t (k : ℕ) c, (p.st.2.calls t)[k]? = some c → (p.st.2.rets t)[k]? = some c.n →
      written p.st.2.chunks t k = c.n.toNat := by
  obtain ⟨⟨gs, ⟨hok, -⟩, -⟩, hall⟩ := good_of_reachable h0 h
  have hrec := hok.recorded
  refine ⟨?_, hrec.off, hrec.placed.pairwise, fun later ch earlier hsplit => ?_, hrec.size,
    hrec.returned⟩
  · cases hh : p.halted with
    | none => rfl
    | some msg => exact (hall msg hh).elim
  · have hplaced := hrec.placed
    rw [hsplit] at hplaced
    have hone := hplaced.split
    exact ⟨hone.start, hone.pos, hone.holds⟩

/-- A disk with an empty file that is open. -/
def emptyFile : State where
  sb := ⟨16, 8, 4⟩
  dinode _ := ⟨.T_FILE, 0, 0, 1, 0, fun _ => 0⟩
  bit b := decide (b < 8)
  block _ _ := 0
  file _ := ⟨.FD_INODE, true, true, 0, 0⟩
  proc _ := ⟨none⟩
  inode _ := ⟨⟨.T_FILE, 0, 0, 1, 0, fun _ => 0⟩, 1, 1, 1, none, true⟩

theorem emptyFile_ready : Ready 0 emptyFile ∅ := by
  have hslots : slots emptyFile 0 = fun _ => 0 := Dinode.map_eq_zero fun _ _ => rfl
  refine ⟨rfl, by decide, by decide, rfl, by decide, ⟨rfl, id⟩, fun σ h => ?_, fun σ σ' h => ?_,
    fun b hb => hb.elim⟩
  · exact absurd (congrFun hslots σ) h
  · exact absurd (congrFun hslots σ) h

/-- One process writes one byte more than fits into a round, another one two bytes. -/
def twoCalls : Pool (Fin NPROC) World :=
  ((start emptyFile ∅).start 0 (write 0 ⟨fun _ => some 1, 3073⟩)).start 1
    (write 0 ⟨fun _ => some 2, 2⟩)

/-- The second process writes between the two rounds of the first. -/
def twoOrder : List (Fin NPROC) := List.replicate 29 0 ++ List.replicate 18 1 ++ List.replicate 12 0

theorem twoCalls_reachable : (sharing 0 emptyFile ∅).Reachable twoCalls := by
  have h0 : (sharing 0 emptyFile ∅).Reachable (start emptyFile ∅) := .init rfl
  have h1 : (sharing 0 emptyFile ∅).Reachable
      ((start emptyFile ∅).start 0 (write 0 ⟨fun _ => some 1, 3073⟩)) :=
    h0.start rfl rfl ⟨_, rfl⟩
  exact h1.start rfl rfl ⟨_, rfl⟩

theorem shared_writes_between_rounds :
    ∃ p, (sharing 0 emptyFile ∅).Reachable p ∧
      (p.st.2.chunks.map fun ch => (ch.proc, ch.pos, ch.start, ch.len)) =
        [(0, 3072, 3074, 1), (1, 0, 3072, 2), (0, 0, 0, 3072)] ∧
      p.halted = none ∧ (p.st.1.file 0).off = (emptyFile.file 0).off + total p.st.2.chunks ∧
      p.st.2.chunks.Pairwise fun later earlier => earlier.start + earlier.len ≤ later.start := by
  have hp : (sharing 0 emptyFile ∅).Reachable ((twoCalls.play twoOrder).getD twoCalls) :=
    twoCalls_reachable.play_getD (by decide +kernel)
  have hw := shared_writes emptyFile_ready hp
  exact ⟨_, hp, by decide +kernel, hw.1, hw.2.1, hw.2.2.1⟩

end Xv6.Fs.Shared
