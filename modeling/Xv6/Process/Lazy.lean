import Xv6.Vm.Lazy
import Xv6.Process.Machine

/-!
# Lazy allocation is invisible, but not to `copyinstr`

A process whose memory was allocated lazily, next to one with the same memory in
which every page below the size was allocated, and zeroed, at once.  `copyin` and
`copyout` give the same results and transfer the same bytes for both, as long as
there is memory for the pages that are missing.

So does `copyinstr` where the pages that hold the string are there.  Where they
are not it fails: it calls `walkaddr` as `copyin` does, but not `vmfault`
(`copyinstr_fails_lazy`).

## Main definitions

* `EagerOf` — the same memory, with nothing missing.

## Main results

* `lazy_invisible` — **lazy and eager allocation give the same results**, strings in missing pages
  apart.
* `copyinstr_fails_lazy` — such a string.
-/

namespace Xv6.Process

open Conc Vm

variable {K : Layout} {allow : String → Prop} {s : Kernel} {m me m' : Kmem} {own owne : ℕ → Place}
  {r re sz tr tre tf tfe va : ℕ} {i : Fin NPROC}

/-- The table `re` maps what `r` does, to pages with the same bytes, and has a zero page for each
page below the size that `r` does not map. -/
structure EagerOf (m : Kmem) (r sz : ℕ) (me : Kmem) (re : ℕ) : Prop where
  kept : ∀ v < MAXVA / PGSIZE, m.lookup r v &&& PTE_V ≠ 0 →
    PTE_FLAGS (me.lookup re v) = PTE_FLAGS (m.lookup r v) ∧ (m.lookup r v &&& PTE_U ≠ 0 →
      me.mem (PTE2PA (me.lookup re v)) = m.mem (PTE2PA (m.lookup r v)))
  filled : ∀ v < pages sz, m.lookup r v &&& PTE_V = 0 → ∃ pa,
    me.lookup re v = mkPte pa (PTE_W ||| PTE_U ||| PTE_R) ∧ me.mem pa = fun _ => 0
  absent : ∀ v < MAXVA / PGSIZE, pages sz ≤ v → m.lookup r v &&& PTE_V = 0 →
    me.lookup re v &&& PTE_V = 0

theorem and_eq_of_flags {x y b : ℕ} (h : PTE_FLAGS x = PTE_FLAGS y) (hb : b < 2 ^ 10) :
    x &&& b = y &&& b := by
  rw [← PTE_FLAGS_and hb, h, PTE_FLAGS_and hb]

namespace EagerOf

section

variable (h : EagerOf m r sz me re) (hsz : sz ≤ TRAPFRAME)

include h hsz

theorem user : me.user re sz = m.user r sz := by
  refine Kmem.user_congr (fun v hv => ?_) hsz
  by_cases h0 : m.lookup r v &&& PTE_V = 0
  · by_cases hlt : v < pages sz
    · obtain ⟨pa, hpa, hmem⟩ := h.filled v hlt h0
      obtain ⟨hV, hU, hW, hp⟩ := mkPte_zeroPage pa
      rw [hpa, hp]
      exact Or.inr ⟨h0, hlt, hV, hU, hW, hmem⟩
    · exact Or.inl ⟨iff_of_true (h.absent v hv (not_lt.mp hlt) h0) h0, fun hc => absurd h0 hc⟩
  · obtain ⟨hf, hmem⟩ := h.kept v hv h0
    rw [and_eq_of_flags hf (by decide), and_eq_of_flags hf (by decide),
      and_eq_of_flags hf (by decide)]
    exact Or.inl ⟨Iff.rfl, fun _ => ⟨rfl, rfl, hmem⟩⟩

theorem valid {v : ℕ} (hv : v < pages sz) : me.lookup re v &&& PTE_V ≠ 0 := by
  by_cases h0 : m.lookup r v &&& PTE_V = 0
  · obtain ⟨pa, hpa, -⟩ := h.filled v hv h0
    rw [hpa]
    exact (mkPte_zeroPage pa).1
  · rw [and_eq_of_flags (h.kept v (lt_of_lt_of_le hv ((pages_le hsz).trans (by decide))) h0).1
      (by decide)]
    exact h0

theorem valid_of_user {x : UInt8 × Bool} (hx : me.user re sz va = some x) :
    me.lookup re (va / PGSIZE) &&& PTE_V ≠ 0 := by
  intro h0
  unfold Kmem.user at hx
  split_ifs at hx with _ hlt
  exact h.valid hsz ((lt_PGROUNDUP hsz).mp hlt) h0

theorem missing (n v : ℕ) : me.missing re sz n v = 0 := by
  induction n generalizing v with
  | zero => rfl
  | succ n ih =>
    rw [Kmem.missing, ih, if_neg]
    exact fun hc => h.valid hsz hc.2 hc.1

theorem ample (n v : ℕ) : Ample (3 * me.missing re sz n v) me := by
  rw [h.missing hsz, Nat.mul_zero]
  exact ⟨fun i hi => absurd hi (Nat.not_lt_zero i), Nat.zero_le _⟩

end

end EagerOf

/-- A fault on the only page that is missing leaves none missing. -/
theorem ends_vmfault_eager (h : Owned K ∅ m own) (hS : Space m own r (pages sz) tr tf)
    (hsz : sz ≤ TRAPFRAME) (hva : va < sz) (h0 : m.lookup r (va / PGSIZE) &&& PTE_V = 0)
    (hrest : ∀ v < pages sz, v ≠ va / PGSIZE → m.lookup r v &&& PTE_V ≠ 0) (hA : Ample 3 m) :
    Ends allow () (vmfault K sz r r va) m fun _ m' => ∃ own',
      Owned K ∅ m' own' ∧ Space m' own' r (pages sz) tr tf ∧ EagerOf m r sz m' r := by
  have hvm : Ends allow () (vmfault K sz r r va) m fun o m' => o ≠ none → ∃ own',
      Owned K ∅ m' own' ∧ Space m' own' r (pages sz) tr tf ∧ EagerOf m r sz m' r := by
    refine ends_vmfault h hS hsz (fun m' own' h' he hn => absurd rfl hn)
      fun p m' own' hlt _ h' he hlk hmem _ => ⟨own', h', ?_, ?_, ?_, ?_⟩
    · exact (Touched.of_edit hS hsz he fun v hv => hv ▸ hlt).space
    · intro v hv hval
      have hne : v ≠ va / PGSIZE := fun hc => hval (hc ▸ h0)
      have hv512 := lt_512 (show v < 2 ^ 26 from hv)
      rw [he.other v hv512 hne]
      refine ⟨rfl, fun hu => ?_⟩
      have hs : ¬ Special v := fun hs => hu (hS.special_U hs)
      exact (he.data _ v ((h.leaf_of_lookup hS.root hv512 hval).2 hs) hne).2
    · intro v hv hv0
      have heq : v = va / PGSIZE := by
        by_contra hne
        exact hrest v hv hne hv0
      exact ⟨p, heq ▸ hlk, hmem⟩
    · intro v hv hle hv0
      rwa [he.other v (lt_512 (show v < 2 ^ 26 from hv)) (by omega)]
  exact (hvm.and (ample_vmfault (k := 0) hA hva hsz h0)).mono fun o m' hm => hm.1 hm.2.1

/-- **Lazy allocation is invisible to `copyin` and `copyout`, and to `copyinstr` exactly if the
string is in pages that are there**: the results are the same as with every page allocated, and so
is the memory after a write; what `copyinstr` returns with every page allocated is what `copyin`
reads, up to the first zero. -/
theorem lazy_invisible (h : Owned K ∅ m own) (hS : Space m own r (pages sz) tr tf)
    (he : Owned K ∅ me owne) (hSe : Space me owne re (pages sz) tre tfe) (hsz : sz ≤ TRAPFRAME)
    (hE : EagerOf m r sz me re) (va : ℕ) :
    (∀ len, Ample (3 * m.missing r sz (touched va len) (va / PGSIZE)) m → ∃ m' me',
      (copyin K sz r r va len).run () m = .ok ((m.user r sz).read va len) m' ∧
      (copyin K sz re re va len).run () me = .ok ((m.user r sz).read va len) me' ∧
      m'.user r sz = m.user r sz ∧ me'.user re sz = m.user r sz) ∧
    (∀ src : List UInt8, Ample (3 * m.missing r sz (touched va src.length) (va / PGSIZE)) m →
      ∃ ok m' me', (copyout K sz r r va src).run () m = .ok ok m' ∧
      (copyout K sz re re va src).run () me = .ok ok me' ∧
      (ok, m'.user r sz) = (m.user r sz).write va src ∧ me'.user re sz = m'.user r sz) ∧
    ∀ max, (copyinstr re va max).run () me = .ok (scanStr ((m.user r sz).read va max).2) me ∧
      ((copyinstr r va max).run () m = .ok (scanStr ((m.user r sz).read va max).2) m ↔
        ∀ a, va ≤ a → a < va + (scanStr ((m.user r sz).read va max).2).2.length →
          m.lookup r (a / PGSIZE) &&& PTE_V ≠ 0) := by
  have huser := hE.user hsz
  refine ⟨fun len hA => ?_, fun src hA => ?_, fun max => ?_⟩
  · obtain ⟨_, m', hr, _, -, -, -, -, hu, hread⟩ :=
      (ends_copyinFrom hsz len va len m own le_rfl h hS).exists_run
    obtain ⟨_, me', hre, _, -, -, -, -, hue, hread'⟩ :=
      (ends_copyinFrom hsz len va len me owne le_rfl he hSe).exists_run
    rw [hread hA] at hr
    rw [hread' (hE.ample hsz _ _), huser] at hre
    rw [huser] at hue
    exact ⟨m', me', hr, hre, hu, hue⟩
  · obtain ⟨ok, m', hr, _, -, -, hu⟩ :=
      (ends_copyoutFrom hsz src.length va src m own le_rfl h hS).exists_run
    obtain ⟨ok', me', hre, _, -, -, hue⟩ :=
      (ends_copyoutFrom hsz src.length va src me owne le_rfl he hSe).exists_run
    have hue := hue (hE.ample hsz _ _)
    rw [huser, ← hu hA, Prod.mk.injEq] at hue
    obtain ⟨rfl, hue⟩ := hue
    exact ⟨ok', m', me', hr, hre, hu hA, hue⟩
  · rw [← UserMem.readStr_eq_scanStr]
    refine ⟨?_, copyinstr_user_iff⟩
    rw [← huser]
    -- with nothing missing, every byte that is read is in a page that is there
    refine copyinstr_user_iff.mpr fun a ha ha' => ?_
    obtain ⟨i, rfl⟩ := Nat.exists_eq_add_of_le ha
    obtain ⟨w, hw⟩ :=
      UserMem.readStr_byte (List.getElem?_eq_getElem (Nat.lt_of_add_lt_add_left ha'))
    exact hE.valid_of_user hsz hw

/-! ### A process that has not touched its memory -/

theorem exists_untouched : ∃ s own tr tf,
    (machine smallLayout (fun _ => False) RequestOk).Reachable s ∧
    (s.proc 0).state = .RUNNABLE ∧ (s.proc 0).sz = PGSIZE ∧ Owned smallLayout ∅ s.kmem own ∧
    Space s.kmem own (s.proc 0).pagetable (pages PGSIZE) tr tf ∧
    s.kmem.lookup (s.proc 0).pagetable 0 &&& PTE_V = 0 ∧ Ample 3 s.kmem := by
  obtain ⟨s, hs, hrun, hsz, h0, hA⟩ := exists_of_play (fun _ _ _ _ hreq => hreq)
    (P := fun s => (s.proc 0).state = .RUNNABLE ∧ (s.proc 0).sz = PGSIZE ∧
      s.kmem.lookup (s.proc 0).pagetable 0 &&& PTE_V = 0 ∧ Ample 3 s.kmem)
    [(0, .sbrk 4096 2)] (by decide +kernel)
  obtain ⟨own, h, hS⟩ := space_of_reachable hs hrun
  rw [hsz] at hS
  exact ⟨s, own, _, _, hs, hrun, hsz, h, hS, h0, hA⟩

theorem read_untouched (h0 : m.lookup r 0 &&& PTE_V = 0) :
    (m.user r PGSIZE).read 0 1 = (true, [0]) := by
  have hbyte : m.user r PGSIZE 0 = some (0, true) := by
    unfold Kmem.user
    rw [if_neg (by decide), Nat.zero_div, if_pos h0, if_pos (by decide)]
  rw [UserMem.read, hbyte]
  rfl

theorem missing_untouched (h0 : m.lookup r 0 &&& PTE_V = 0) :
    m.missing r PGSIZE (touched 0 1) (0 / PGSIZE) = 1 := by
  rw [show touched 0 1 = 0 + 1 from rfl, Kmem.missing, if_pos ⟨h0, by decide⟩]
  rfl

theorem lazy_invisible_untouched : ∃ s me re,
    (machine smallLayout (fun _ => False) RequestOk).Reachable s ∧ (s.proc 0).sz = PGSIZE ∧
    s.kmem.lookup (s.proc 0).pagetable 0 &&& PTE_V = 0 ∧
    EagerOf s.kmem (s.proc 0).pagetable PGSIZE me re ∧
    (∃ m' me',
      (copyin smallLayout PGSIZE (s.proc 0).pagetable (s.proc 0).pagetable 0 1).run () s.kmem =
        .ok (true, [0]) m' ∧
      (copyin smallLayout PGSIZE re re 0 1).run () me = .ok (true, [0]) me') ∧
    (copyinstr re 0 1).run () me = .ok (true, [0]) me ∧
    (copyinstr (s.proc 0).pagetable 0 1).run () s.kmem ≠ .ok (true, [0]) s.kmem := by
  obtain ⟨s, own, tr, tf, hs, hrun, hsz, h, hS, h0, hA⟩ := exists_untouched
  have hone : ∀ v < pages PGSIZE, v ≠ 0 / PGSIZE →
      s.kmem.lookup (s.proc 0).pagetable v &&& PTE_V ≠ 0 := by
    intro v hv hne
    have hv : v < 1 := hv
    exact absurd (Nat.lt_one_iff.mp hv) hne
  have hle : PGSIZE ≤ TRAPFRAME := by decide
  have hpos : 0 < PGSIZE := by decide
  have h0' : s.kmem.lookup (s.proc 0).pagetable (0 / PGSIZE) &&& PTE_V = 0 := by
    rwa [Nat.zero_div]
  obtain ⟨_, me, -, owne, he, hSe, hE⟩ := (ends_vmfault_eager h hS hle hpos h0' hone hA).exists_run
  obtain ⟨hin, -, hstr⟩ := lazy_invisible h hS he hSe hle hE 0
  obtain ⟨m', me', hr, hre, -⟩ := hin 1 (by rw [missing_untouched h0]; exact hA)
  obtain ⟨hall, hiff⟩ := hstr 1
  rw [read_untouched h0] at hr hre hall hiff
  refine ⟨s, me, _, hs, hsz, h0, hE, ⟨m', me', hr, hre⟩, hall, fun hc => ?_⟩
  exact hiff.mp hc 0 le_rfl (by decide) h0'

/-- **`copyinstr` does not see memory that has not been touched**: at the page a process has asked
for, `copyin` reads a zero, which is the empty string, and `copyinstr` fails. -/
theorem copyinstr_fails_lazy : ∃ s,
    (machine smallLayout (fun _ => False) RequestOk).Reachable s ∧ (s.proc 0).state = .RUNNABLE ∧
    (s.proc 0).sz = PGSIZE ∧ Ample 3 s.kmem ∧
    (∃ m', (copyin smallLayout PGSIZE (s.proc 0).pagetable (s.proc 0).pagetable 0 1).run () s.kmem =
      .ok (true, [0]) m') ∧
    (copyinstr (s.proc 0).pagetable 0 1).run () s.kmem = .ok (false, []) s.kmem := by
  obtain ⟨s, own, tr, tf, hs, hrun, hsz, h, hS, h0, hA⟩ := exists_untouched
  have hle : PGSIZE ≤ TRAPFRAME := by decide
  refine ⟨s, hs, hrun, hsz, hA, ?_, ?_⟩
  · obtain ⟨o, m', hr, _, -, -, -, -, -, ho⟩ :=
      (ends_copyinFrom hle 1 0 1 s.kmem own le_rfl h hS).exists_run
    rw [ho (by rw [missing_untouched h0]; exact hA), read_untouched h0] at hr
    exact ⟨m', hr⟩
  · have hstr : Ends (fun _ => False) () (copyinstr (s.proc 0).pagetable 0 1) s.kmem fun o m' =>
        o = (false, []) ∧ m' = s.kmem := by
      rw [copyinstr, copyinstrFrom, if_neg (by decide)]
      refine Ends.seq (Kmem.ends_walkaddr (fun _ hv => absurd h0 hv) fun _ => ?_)
      exact ⟨rfl, rfl⟩
    obtain ⟨_, _, hr, rfl, rfl⟩ := hstr.exists_run
    exact hr

end Xv6.Process
