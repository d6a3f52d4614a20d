import Xv6.Vm.User

/-!
# Reading and writing user memory

`vmfault` maps the page of an address below the size, lazily; `copyout` and
`copyin` go through it page by page.  They never touch the trapframe or the
trampoline: those entries lack the user bit, and lie above the size.

## Main results

* `ends_vmfault` — one page is mapped, or nothing changes.
* `ends_userPage` — the page of an address is found, or faulted in.
* `ends_copyout_page` — a copy into one writable page of any table.
-/

namespace Xv6.Vm

open Conc

variable {K : Layout} {allow : String → Prop} {m m' m'' : Kmem} {own own' own'' : ℕ → Place}
  {p q r v va sz n tr tf perm lo hi : ℕ}

variable {Q : Bool → Kmem → Prop}

theorem ends_ismapped (hva : va < MAXVA) (hQ : Q (m.lookup r (va / PGSIZE) &&& PTE_V != 0) m) :
    Ends allow () (ismapped r va) m Q := by
  rw [ismapped]
  refine Ends.seq (Kmem.ends_walk hva (fun h0 => ?_) fun q hlook => ?_)
  · rwa [h0] at hQ
  · rwa [hlook] at hQ

theorem PGROUNDDOWN_div (va : ℕ) : PGROUNDDOWN va / PGSIZE = va / PGSIZE := mul_PGSIZE_div _

theorem PGROUNDDOWN_lt (h : va < sz) (hsz : sz ≤ TRAPFRAME) : PGROUNDDOWN va < MAXVA := by
  have hlt := div_lt_pages h
  have hmax := pages_le hsz
  exact mul_PGSIZE_lt (by omega)

/-- **`vmfault` maps one page below the size**, or nothing changes. -/
theorem ends_vmfault (h : Owned K ∅ m own) (hS : Space m own r (pages sz) tr tf)
    (hsz : sz ≤ TRAPFRAME) {Q : Option ℕ → Kmem → Prop}
    (hnone : ∀ m' own', Owned K ∅ m' own' → Edit r (fun _ => False) m own m' own' → Q none m')
    (hsome : ∀ p m' own', va / PGSIZE < pages sz → m.lookup r (va / PGSIZE) &&& PTE_V = 0 →
      Owned K ∅ m' own' → Edit r (· = va / PGSIZE) m own m' own' →
      m'.lookup r (va / PGSIZE) = mkPte p (PTE_W ||| PTE_U ||| PTE_R) →
      m'.mem p = (fun _ => 0) → Q (some p) m') :
    Ends allow () (vmfault K sz r r va) m Q := by
  rw [vmfault]
  by_cases hva : va ≥ sz
  · rw [if_pos hva, ends_pure]
    exact hnone m own h (Edit.refl hS.root)
  rw [if_neg hva]
  have hlt := div_lt_pages (not_le.mp hva)
  have hmax := pages_le hsz
  refine Ends.seq (ends_ismapped (PGROUNDDOWN_lt (not_le.mp hva) hsz) ?_)
  rw [PGROUNDDOWN_div]
  by_cases hval : m.lookup r (va / PGSIZE) &&& PTE_V = 0
  swap
  · rw [if_pos (by simpa using hval), ends_pure]
    exact hnone m own h (Edit.refl hS.root)
  rw [if_neg (by simpa using hval)]
  refine Ends.seq (ends_kalloc h (fun m1 h1 hm1 => ?_) fun p m1 hp h1 hm1 => ?_)
  · exact hnone m1 own h1 (Edit.of_mem_eq hm1 hS.root)
  apply ends_act_bind.mpr
  refine ends_mapNew h hS.root hp (h1.setPage (Function.update_self _ _ _) _) (fun q hq => ?_)
    (by omega) (fun hs => absurd hs (not_special (by omega))) (by decide) (by decide)
    (fun hc => absurd hval hc) (fun m' own' h' he' => ?_) fun m' own' _ h' he' hlk hmem _ => ?_
  · rw [Kmem.setPage_mem_of_ne _ _ hq, hm1 q hq]
  · exact hnone m' own' h' he'
  · exact hsome p m' own' hlt hval h' he' hlk (by rw [hmem, Kmem.setPage_mem_self])

/-- What a system call that copies does to user memory: pages below the size are
mapped, and written. -/
structure Touched (r sz tr tf : ℕ) (m : Kmem) (own : ℕ → Place) (m' : Kmem) (own' : ℕ → Place) :
    Prop where
  edit : Edit r (· < pages sz) m own m' own'
  space : Space m' own' r (pages sz) tr tf

namespace Touched

theorem of_edit {P : ℕ → Prop} (hS : Space m own r (pages sz) tr tf) (hsz : sz ≤ TRAPFRAME)
    (he : Edit r P m own m' own') (hP : ∀ v, P v → v < pages sz) :
    Touched r sz tr tf m own m' own' := by
  have hmax := pages_le hsz
  refine ⟨he.mono hP, hS.edit he (fun v hv => lt_of_lt_of_le (hP v hv) hmax) fun v hv hs hval => ?_⟩
  by_cases hPv : P v
  · exact hP v hPv
  · rw [he.other v hv hPv] at hval
    exact (hS.bound v hv hval).resolve_right hs

theorem trans (h : Touched r sz tr tf m own m' own')
    (h' : Touched r sz tr tf m' own' m'' own'') : Touched r sz tr tf m own m'' own'' :=
  ⟨h.edit.trans h'.edit, h'.space⟩

end Touched

/-! ### Pages and addresses -/

theorem lt_MAXVA_of_div (h : va / PGSIZE < 2 ^ 26) : va < MAXVA := by
  have h : va / 4096 < 2 ^ 26 := h
  show va < 2 ^ 38
  omega

theorem PGROUNDDOWN_lt_MAXVA : PGROUNDDOWN va < MAXVA ↔ va < MAXVA := by
  show va / 4096 * 4096 < 2 ^ 38 ↔ va < 2 ^ 38
  omega

/-- How many pages hold the `len` bytes at `va`. -/
def touched (va len : ℕ) : ℕ := (va % PGSIZE + len + PGSIZE - 1) / PGSIZE

theorem sub_PGROUNDDOWN (va : ℕ) : va - PGROUNDDOWN va = va % PGSIZE := by
  rw [PGROUNDDOWN_eq]
  have := Nat.div_add_mod' va PGSIZE
  omega

/-- What one round of a copy loop takes off a range. -/
theorem chunk (va : ℕ) {len : ℕ} (hlen : len ≠ 0) :
    va % PGSIZE + min (PGSIZE - va % PGSIZE) len ≤ PGSIZE ∧ min (PGSIZE - va % PGSIZE) len ≤ len ∧
    0 < min (PGSIZE - va % PGSIZE) len ∧
    touched va len = touched (PGROUNDDOWN va + PGSIZE) (len - min (PGSIZE - va % PGSIZE) len) + 1 ∧
    (len - min (PGSIZE - va % PGSIZE) len = 0 ∨
      PGROUNDDOWN va + PGSIZE = va + min (PGSIZE - va % PGSIZE) len) := by
  unfold touched PGROUNDDOWN
  show va % 4096 + min (4096 - va % 4096) len ≤ 4096 ∧ min (4096 - va % 4096) len ≤ len ∧
    0 < min (4096 - va % 4096) len ∧
    (va % 4096 + len + 4096 - 1) / 4096 = ((va / 4096 * 4096 + 4096) % 4096 +
      (len - min (4096 - va % 4096) len) + 4096 - 1) / 4096 + 1 ∧
    (len - min (4096 - va % 4096) len = 0 ∨ va / 4096 * 4096 + 4096 = va + min
      (4096 - va % 4096) len)
  omega

theorem next_mod (hva : va < MAXVA) :
    (PGROUNDDOWN va + PGSIZE) % 2 ^ 64 = PGROUNDDOWN va + PGSIZE := by
  have hva : va < 2 ^ 38 := hva
  show (va / 4096 * 4096 + 4096) % 2 ^ 64 = va / 4096 * 4096 + 4096
  omega

theorem add_div_page {i : ℕ} (hi : va % PGSIZE + i < PGSIZE) :
    (va + i) / PGSIZE = va / PGSIZE ∧ (va + i) % PGSIZE = va % PGSIZE + i := by
  have hi : va % 4096 + i < 4096 := hi
  show (va + i) / 4096 = va / 4096 ∧ (va + i) % 4096 = va % 4096 + i
  omega

theorem leaf_lt (h : Owned K ∅ m own) (hp : own p = .node r 0 v) : v < 512 ^ 3 := by
  obtain ⟨q, hq⟩ := h.above hp 3 le_rfl
  have h0 := (h.root q r _ hq).2
  exact Nat.lt_of_div_eq_zero (by decide) h0

/-- The byte at a user address. -/
def Kmem.Shows (m : Kmem) (r va : ℕ) (b : UInt8) : Prop :=
  va < MAXVA ∧ m.lookup r (va / PGSIZE) &&& PTE_V ≠ 0 ∧ m.lookup r (va / PGSIZE) &&& PTE_U ≠ 0 ∧
    m.mem (PTE2PA (m.lookup r (va / PGSIZE))) (va % PGSIZE) = b

theorem Kmem.shows_byte {i : ℕ} (hva : va < MAXVA) (hv : m.lookup r (va / PGSIZE) &&& PTE_V ≠ 0)
    (hu : m.lookup r (va / PGSIZE) &&& PTE_U ≠ 0) (hi : va % PGSIZE + i < PGSIZE) :
    m.Shows r (va + i) (m.mem (PTE2PA (m.lookup r (va / PGSIZE))) (va % PGSIZE + i)) := by
  obtain ⟨hd, hm⟩ := add_div_page hi
  rw [Kmem.Shows, hd, hm]
  exact ⟨lt_MAXVA_of_div (by rw [hd]; exact Nat.div_lt_of_lt_mul hva), hv, hu, rfl⟩

theorem mkPte_zeroPage (p : ℕ) : mkPte p (PTE_W ||| PTE_U ||| PTE_R) &&& PTE_V ≠ 0 ∧
    mkPte p (PTE_W ||| PTE_U ||| PTE_R) &&& PTE_U ≠ 0 ∧
    mkPte p (PTE_W ||| PTE_U ||| PTE_R) &&& PTE_W ≠ 0 ∧
    PTE2PA (mkPte p (PTE_W ||| PTE_U ||| PTE_R)) = p := by
  refine ⟨mkPte_valid _ _, ?_, ?_, PTE2PA_mkPte (by decide)⟩ <;>
  · rw [mkPte_eq, Nat.and_or_distrib_right, PA2PTE_and (by decide)]
    decide

/-- Memory after a range of user addresses, from `lo` to `hi`, was written to.  Pages that are in
use and not of this table are as they were, and so are its leaves outside of the range; new leaves
are at addresses of the range, and zero outside of it. -/
structure Wrote (r sz lo hi : ℕ) (m : Kmem) (own : ℕ → Place) (m' : Kmem) (own' : ℕ → Place) :
    Prop where
  frame : Frame r ∅ m own m' own'
  special : ∀ v, Special v → m'.lookup r v = m.lookup r v
  leaf : ∀ p v, own p = .node r 0 v → own' p = .node r 0 v ∧ m'.lookup r v = m.lookup r v ∧
    ∀ a, m'.mem p a ≠ m.mem p a → a < PGSIZE ∧ (lo ≤ v * PGSIZE + a ∧ v * PGSIZE + a < hi) ∧
      m.lookup r v &&& PTE_U ≠ 0 ∧ m.lookup r v &&& PTE_W ≠ 0
  new : ∀ p v, own' p = .node r 0 v → own p = .node r 0 v ∨
    m.lookup r v &&& PTE_V = 0 ∧ v < pages sz ∧ (∃ va, (lo ≤ va ∧ va < hi) ∧ va / PGSIZE = v) ∧
      m'.lookup r v = mkPte p (PTE_W ||| PTE_U ||| PTE_R) ∧
      ∀ a < PGSIZE, ¬ (lo ≤ v * PGSIZE + a ∧ v * PGSIZE + a < hi) → m'.mem p a = 0

namespace Wrote

theorem mono {lo' hi' : ℕ} (hw : Wrote r sz lo hi m own m' own')
    (hsub : ∀ x, lo ≤ x → x < hi → lo' ≤ x ∧ x < hi') : Wrote r sz lo' hi' m own m' own' := by
  refine ⟨hw.frame, hw.special, fun p v hp => ?_, fun p v hp => ?_⟩
  · obtain ⟨ho, hl, hb⟩ := hw.leaf p v hp
    refine ⟨ho, hl, fun a ha => ?_⟩
    obtain ⟨hlt, hin, hbits⟩ := hb a ha
    exact ⟨hlt, hsub _ hin.1 hin.2, hbits⟩
  · refine (hw.new p v hp).imp_right fun hn => ?_
    obtain ⟨h0, hlt, ⟨x, hx, hxv⟩, hlk, hz⟩ := hn
    exact ⟨h0, hlt, ⟨x, hsub x hx.1 hx.2, hxv⟩, hlk, fun a ha hout => hz a ha
      fun hc => hout (hsub _ hc.1 hc.2)⟩

/-- Pages are mapped where there were none, and nothing else happens. -/
theorem of_edit {P : ℕ → Prop} (h : Owned K ∅ m own) (h' : Owned K ∅ m' own')
    (hr : own r = .node r 3 0)
    (hsz : sz ≤ TRAPFRAME) (he : Edit r P m own m' own')
    (hP : ∀ v, P v → m.lookup r v &&& PTE_V = 0 ∧ v < pages sz ∧
      (∃ va, (lo ≤ va ∧ va < hi) ∧ va / PGSIZE = v) ∧
      ∃ p, m'.lookup r v = mkPte p (PTE_W ||| PTE_U ||| PTE_R) ∧ m'.mem p = fun _ => 0) :
    Wrote r sz lo hi m own m' own' := by
  have hmax := pages_le hsz
  refine ⟨he.frame, fun v hs => ?_, fun p v hp => ?_, fun p v hp => ?_⟩
  · have hv : v < 512 ^ 3 := by rcases special_iff.mp hs with rfl | rfl <;> omega
    exact he.other v hv fun hc => not_special (lt_of_lt_of_le (hP v hc).2.1 hmax) hs
  · have hv := leaf_lt h hp
    have hn : ¬ P v := fun hc => (h.lookup_of_leaf hr hv hp).1 (hP v hc).1
    obtain ⟨ho, hm⟩ := he.data p v hp hn
    exact ⟨ho, he.other v hv hn, fun a ha => absurd (by rw [hm]) ha⟩
  · have hv := leaf_lt h' hp
    obtain ⟨hval, hpa, hs⟩ := h'.lookup_of_leaf he.root hv hp
    by_cases hPv : P v
    · obtain ⟨h0, hlt, hin, q, hlk, hz⟩ := hP v hPv
      rw [hlk, PTE2PA_mkPte (by decide)] at hpa
      subst hpa
      exact Or.inr ⟨h0, hlt, hin, hlk, fun a _ _ => by rw [hz]⟩
    · left
      rw [he.other v hv hPv] at hval hpa
      rw [← hpa]
      exact (h.leaf_of_lookup hr hv hval).2 hs

/-- A leaf is written to. -/
theorem setLeaf {b : Bytes.Mem} (h : Owned K ∅ m own) (hr : own r = .node r 3 0)
    (hp : own p = .node r 0 v)
    (hu : m.lookup r v &&& PTE_U ≠ 0) (hw : m.lookup r v &&& PTE_W ≠ 0)
    (hb : ∀ a, b a ≠ m.mem p a → a < PGSIZE ∧ lo ≤ v * PGSIZE + a ∧ v * PGSIZE + a < hi) :
    Wrote r sz lo hi m own (m.setPage p b) own := by
  have he := Edit.setLeaf h hr hp b
  have hlk : ∀ {u}, u < 512 ^ 3 → (m.setPage p b).lookup r u = m.lookup r u :=
    h.lookup_setLeaf hp b hr
  refine ⟨he.frame, fun u hs => hlk ?_, fun q u hq => ⟨hq, hlk (leaf_lt h hq), fun a ha => ?_⟩,
    fun _ _ => Or.inl⟩
  · rcases special_iff.mp hs with rfl | rfl <;> omega
  · obtain rfl | hqp := eq_or_ne q p
    · rw [hp] at hq
      injection hq with _ _ huv
      subst huv
      rw [Kmem.setPage_mem_self] at ha
      exact ⟨(hb a ha).1, (hb a ha).2, hu, hw⟩
    · rw [Kmem.setPage_mem_of_ne _ _ hqp] at ha
      exact absurd rfl ha

theorem trans (h : Owned K ∅ m own) (hr : own r = .node r 3 0) (hsz : sz ≤ TRAPFRAME)
    (hw : Wrote r sz lo hi m own m' own') (hw' : Wrote r sz lo hi m' own' m'' own'') :
    Wrote r sz lo hi m own m'' own'' := by
  refine ⟨hw.frame.trans hw'.frame, fun v hs => (hw'.special v hs).trans (hw.special v hs),
    fun p v hp => ?_, fun p v hp => ?_⟩
  · obtain ⟨ho, hl, hb⟩ := hw.leaf p v hp
    obtain ⟨ho', hl', hb'⟩ := hw'.leaf p v ho
    refine ⟨ho', hl'.trans hl, fun a ha => ?_⟩
    by_cases ha' : m''.mem p a = m'.mem p a
    · exact hb a (ha' ▸ ha)
    · rw [← hl]
      exact hb' a ha'
  · rcases hw'.new p v hp with ho | ⟨h0, hlt, hin, hlk, hz⟩
    · refine (hw.new p v ho).imp_right fun hn => ?_
      obtain ⟨h0, hlt, hin, hlk, hz⟩ := hn
      obtain ⟨-, hl', hb'⟩ := hw'.leaf p v ho
      refine ⟨h0, hlt, hin, hl'.trans hlk, fun a ha hout => ?_⟩
      by_contra hc
      exact hout (hb' a (by rw [hz a ha hout]; exact hc)).2.1
    · refine Or.inr ⟨?_, hlt, hin, hlk, hz⟩
      -- what was mapped at first would still be
      by_contra hval
      have hmax := pages_le hsz
      have ho := (h.leaf_of_lookup hr (by omega) hval).2 (not_special (by omega))
      rw [(hw.leaf _ v ho).2.1] at h0
      exact hval h0

theorem shows {b : UInt8} (h : Owned K ∅ m own) (hS : Space m own r (pages sz) tr tf)
    (hw : Wrote r sz lo hi m own m' own') (hout : ¬ (lo ≤ va ∧ va < hi)) (hb : m.Shows r va b) :
    m'.Shows r va b := by
  obtain ⟨hva, hval, hu, hb⟩ := hb
  have hs : ¬ Special (va / PGSIZE) := fun hc => hu (hS.special_U hc)
  obtain ⟨-, hl, hbytes⟩ := hw.leaf _ _ ((h.leaf_of_lookup hS.root (page_lt hva) hval).2 hs)
  rw [Kmem.Shows, hl, ← hb]
  refine ⟨hva, hval, hu, ?_⟩
  by_contra hc
  have hin := (hbytes _ hc).2.1
  rw [Nat.div_add_mod' va PGSIZE] at hin
  exact hout hin

end Wrote

/-- What a copy to or from a range of user addresses leaves behind. -/
structure Used (K : Layout) (r sz tr tf lo hi : ℕ) (m : Kmem) (own : ℕ → Place) (m' : Kmem)
    (own' : ℕ → Place) : Prop extends Touched r sz tr tf m own m' own',
    Wrote r sz lo hi m own m' own' where
  owned : Owned K ∅ m' own'

namespace Used

section

variable (h : Owned K ∅ m own) (hS : Space m own r (pages sz) tr tf) (hsz : sz ≤ TRAPFRAME)

include h hS hsz

theorem of_edit {P : ℕ → Prop} (h' : Owned K ∅ m' own') (he : Edit r P m own m' own')
    (hP : ∀ v, P v → m.lookup r v &&& PTE_V = 0 ∧ v < pages sz ∧
      (∃ va, (lo ≤ va ∧ va < hi) ∧ va / PGSIZE = v) ∧
      ∃ p, m'.lookup r v = mkPte p (PTE_W ||| PTE_U ||| PTE_R) ∧ m'.mem p = fun _ => 0) :
    Used K r sz tr tf lo hi m own m' own' :=
  ⟨.of_edit hS hsz he fun v hv => (hP v hv).2.1, .of_edit h h' hS.root hsz he hP, h'⟩

theorem refl : Used K r sz tr tf lo hi m own m own :=
  .of_edit h hS hsz h (Edit.refl hS.root) fun _ => False.elim

theorem trans {lo' hi' : ℕ}
    (hw : Used K r sz tr tf lo hi m own m' own') (hw' : Used K r sz tr tf lo' hi' m' own' m'' own'')
    (hsub : ∀ x, lo' ≤ x → x < hi' → lo ≤ x ∧ x < hi) : Used K r sz tr tf lo hi m own m'' own'' :=
  ⟨hw.toTouched.trans hw'.toTouched, hw.toWrote.trans h hS.root hsz (hw'.toWrote.mono hsub),
    hw'.owned⟩

end

end Used

/-- The page of an address is there; it was, or it is a new page of zeros. -/
structure Found (r sz va : ℕ) (m : Kmem) (own : ℕ → Place) (m' : Kmem) (own' : ℕ → Place) :
    Prop where
  lt : va < MAXVA
  valid : m'.lookup r (va / PGSIZE) &&& PTE_V ≠ 0
  user : m'.lookup r (va / PGSIZE) &&& PTE_U ≠ 0
  edit : Edit r (fun v => v = va / PGSIZE ∧ m.lookup r v &&& PTE_V = 0) m own m' own'
  new : m.lookup r (va / PGSIZE) &&& PTE_V = 0 → va / PGSIZE < pages sz ∧
    ∃ p, m'.lookup r (va / PGSIZE) = mkPte p (PTE_W ||| PTE_U ||| PTE_R) ∧ m'.mem p = fun _ => 0

/-- The page of a user address is found, or faulted in. -/
theorem ends_userPage (h : Owned K ∅ m own) (hS : Space m own r (pages sz) tr tf)
    (hsz : sz ≤ TRAPFRAME) {Q : Option ℕ → Kmem → Prop}
    (hnone : ∀ m' own', Owned K ∅ m' own' → Edit r (fun _ => False) m own m' own' → Q none m')
    (hsome : ∀ m' own', Owned K ∅ m' own' → Found r sz va m own m' own' →
      Q (some (PTE2PA (m'.lookup r (va / PGSIZE)))) m') :
    Ends allow () (userPage K sz r r (PGROUNDDOWN va)) m Q := by
  rw [userPage]
  have hmax := pages_le hsz
  have hfault : Ends allow () (vmfault K sz r r (PGROUNDDOWN va)) m Q := by
    refine ends_vmfault h hS hsz hnone fun p m' own' hlt h0 h' he hlk hz => ?_
    rw [PGROUNDDOWN_div] at hlt h0 he hlk
    obtain ⟨hV, hU, -, hp⟩ := mkPte_zeroPage p
    have hQ := hsome m' own' h' ⟨lt_MAXVA_of_div (by omega), by rwa [hlk], by rwa [hlk],
      he.mono fun v hv => ⟨hv, hv ▸ h0⟩, fun _ => ⟨hlt, p, hlk, hz⟩⟩
    rwa [hlk, hp] at hQ
  refine Ends.seq (Kmem.ends_walkaddr (fun hva hval hU => ?_) fun _ => hfault)
  rw [PGROUNDDOWN_div] at hval hU ⊢
  exact hsome m own h ⟨PGROUNDDOWN_lt_MAXVA.mp hva, hval, hU, Edit.refl hS.root,
    fun h0 => absurd h0 hval⟩

/-! ### One page -/

/-- A copy that stays in one page, which the user may write: nothing is faulted in,
whatever process makes it. -/
theorem ends_copyout_page {psz ppt dstva : ℕ} {src : List UInt8} (hv : dstva / PGSIZE < 2 ^ 26)
    (hlk : m.lookup r (dstva / PGSIZE) = mkPte p (PTE_R ||| PTE_U ||| PTE_W))
    (hlen : dstva % PGSIZE + src.length ≤ PGSIZE) (hsrc : src ≠ [])
    (hQ : Q true (m.setPage p (Bytes.write (m.mem p) (dstva % PGSIZE) src))) :
    Ends allow () (copyout K psz ppt r dstva src) m Q := by
  have hbits : m.lookup r (dstva / PGSIZE) &&& PTE_V ≠ 0 ∧
      m.lookup r (dstva / PGSIZE) &&& PTE_U ≠ 0 ∧ m.lookup r (dstva / PGSIZE) &&& PTE_W ≠ 0 := by
    rw [hlk]
    exact ⟨(mkPte_zeroPage p).1, (mkPte_zeroPage p).2.1, (mkPte_zeroPage p).2.2.1⟩
  rw [copyout]
  cases src with
  | nil => exact absurd rfl hsrc
  | cons b rest =>
    have hdown : PGROUNDDOWN dstva < MAXVA := mul_PGSIZE_lt hv
    rw [List.length_cons, copyoutFrom, if_neg hsrc, if_neg (not_le.mpr hdown)]
    have hpage : Ends allow () (userPage K psz ppt r (PGROUNDDOWN dstva)) m fun pa m' =>
        m' = m ∧ pa = some p := by
      rw [userPage]
      refine Ends.seq (Kmem.ends_walkaddr (fun _ _ _ => ?_) fun hc => ?_)
      · rw [PGROUNDDOWN_div, hlk, PTE2PA_mkPte (by decide)]
        exact ⟨rfl, rfl⟩
      · rw [PGROUNDDOWN_div] at hc
        exact absurd (hc hdown hbits.1) hbits.2.1
    refine Ends.bind hpage fun pa m1 hpa => ?_
    obtain ⟨rfl, rfl⟩ := hpa
    refine Ends.seq (Kmem.ends_walk hdown (fun h0 => ?_) fun q hlook => ?_)
    · rw [PGROUNDDOWN_div] at h0
      rw [h0] at hbits
      exact absurd rfl hbits.1
    apply ends_look_bind.mpr
    rw [PGROUNDDOWN_div] at hlook ⊢
    rw [← hlook, if_neg hbits.2.2]
    apply ends_act_bind.mpr
    -- everything fits into the page
    rw [sub_PGROUNDDOWN, Nat.min_eq_right (by omega), List.take_length, List.drop_length]
    cases rest with
    | nil => exact hQ
    | cons c rest =>
      rw [List.length_cons, copyoutFrom, if_pos rfl]
      exact hQ

end Xv6.Vm
