import Xv6.Vm.Copy

/-!
# Lazy allocation, seen from a system call

To a system call the memory of a process should look as if every page below its
size were there: the pages that `sbrk` has not allocated yet read as zeros and
may be written.  `Kmem.user` is that memory, and `UserMem.read`, `UserMem.readStr` and
`UserMem.write` are what `copyin`, `copyinstr` and `copyout` are to do with it, byte by byte.

`copyin` and `copyout` fault in what is missing.  `copyinstr` does not: it
fails at the first page that has not been touched, and sees the memory of a process of size 0.

## Main definitions

* `UserMem`, `Kmem.user` — the memory of a process, with the missing pages filled in.
* `Kmem.missing` — how many pages of a range are missing.
* `Ample` — there is memory left.

## Main results

* `ends_userPage_user` — the page of an address, allocated if it is missing.
* `ends_copyinFrom`, `ends_copyoutFrom` — **what the functions do to that memory**; only pages below
  the size are touched, and only the range is written to (`Wrote`).
* `copyinstr_exact` — **when `copyinstr` succeeds, and what it copies.**
-/

namespace Xv6.Vm

open Conc Function

variable {K : Layout} {allow : String → Prop} {m m' : Kmem} {own own' : ℕ → Place}
  {p q r v va sz n k tr tf perm : ℕ}

/-! ### Strings -/

theorem scanStr_append (l l' : List UInt8) : scanStr (l ++ l') =
    if (scanStr l).1 then (true, (scanStr l).2)
    else ((scanStr l').1, (scanStr l).2 ++ (scanStr l').2) := by
  induction l with
  | nil => rfl
  | cons b l ih =>
    by_cases h0 : b = 0
    · simp [scanStr, h0]
    · simp only [List.cons_append, scanStr, if_neg h0, ih]
      split_ifs <;> rfl

theorem scanStr_string {l : List UInt8} (h : (scanStr l).1 = true) :
    ∃ t, (scanStr l).2 = t ++ [0] ∧ 0 ∉ t := by
  induction l with
  | nil => cases h
  | cons b l ih =>
    rw [scanStr] at h ⊢
    split_ifs at h ⊢ with h0
    · exact ⟨[], rfl, List.not_mem_nil⟩
    · obtain ⟨t, ht, hnot⟩ := ih h
      exact ⟨b :: t, by rw [ht]; rfl, by simp [hnot, Ne.symm h0]⟩

theorem scanStr_isPart (l : List UInt8) : (scanStr l).2 <+: l := by
  induction l with
  | nil => exact List.prefix_rfl
  | cons b l ih =>
    rw [scanStr]
    split_ifs with h0
    · rw [h0]
      exact ⟨l, rfl⟩
    · exact List.cons_prefix_cons.mpr ⟨rfl, ih⟩

/-! ### Memory as a process sees it -/

/-- The memory of a process: the byte at an address, and whether it may be written. -/
abbrev UserMem := ℕ → Option (UInt8 × Bool)

namespace UserMem

/-- Read `n` bytes: whether all of them are there, and those before the first that is not. -/
def read (u : UserMem) : ℕ → ℕ → Bool × List UInt8
  | _, 0 => (true, [])
  | va, n + 1 =>
      match u va with
      | none => (false, [])
      | some (b, _) => ((read u (va + 1) n).1, b :: (read u (va + 1) n).2)

/-- Read a string of less than `max` bytes. -/
def readStr (u : UserMem) : ℕ → ℕ → Bool × List UInt8
  | _, 0 => (false, [])
  | va, max + 1 =>
      match u va with
      | none => (false, [])
      | some (b, _) =>
          if b = 0 then (true, [0])
          else ((readStr u (va + 1) max).1, b :: (readStr u (va + 1) max).2)

/-- Write bytes, up to the first address that may not be written. -/
def write : UserMem → ℕ → List UInt8 → Bool × UserMem
  | u, _, [] => (true, u)
  | u, va, b :: bs =>
      match u va with
      | some (_, true) => write (Function.update u va (some (b, true))) (va + 1) bs
      | some (_, false) => (false, u)
      | none => (false, u)

/-- The memory after some bytes have been written. -/
def put (u : UserMem) (va : ℕ) (bs : List UInt8) : UserMem := fun a =>
  if va ≤ a ∧ a < va + bs.length then some (bs.getD (a - va) 0, true) else u a

variable {u : UserMem} {f : ℕ → UInt8}

theorem read_none (h : u va = none) (hn : 0 < n) : u.read va n = (false, []) := by
  obtain ⟨n, rfl⟩ : ∃ k, n = k + 1 := ⟨n - 1, by omega⟩
  rw [read, h]

theorem read_append (h : ∀ i < k, ∃ w, u (va + i) = some (f i, w)) (n : ℕ) :
    u.read va (k + n) = ((u.read (va + k) n).1, (List.range k).map f ++ (u.read (va + k) n).2) := by
  induction k generalizing va f with
  | zero => simp
  | succ k ih =>
    obtain ⟨w, hw⟩ := h 0 (Nat.succ_pos k)
    have hnext : ∀ i < k, ∃ w, u (va + 1 + i) = some (f (i + 1), w) := by
      intro i hi
      rw [show va + 1 + i = va + (i + 1) by omega]
      exact h (i + 1) (by omega)
    have hrest := ih hnext
    rw [show k + 1 + n = k + n + 1 by omega, read, show u va = some (f 0, w) from hw]
    dsimp only
    rw [hrest, show va + 1 + k = va + (k + 1) by omega, List.range_succ_eq_map, List.map_cons,
      List.map_map]
    rfl

theorem readStr_eq_scanStr (u : UserMem) (va n : ℕ) : u.readStr va n = scanStr (u.read va n).2 := by
  induction n generalizing va with
  | zero => rfl
  | succ n ih =>
    rw [readStr, read]
    cases u va with
    | none => rfl
    | some x =>
      dsimp only
      rw [scanStr, ih]

/-- A string is read if there is a zero, and the bytes before it are there. -/
theorem readStr_iff : (u.readStr va n).1 = true ↔
    ∃ k < n, (∃ w, u (va + k) = some (0, w)) ∧ ∀ i < k, u (va + i) ≠ none := by
  induction n generalizing va with
  | zero => simp [readStr]
  | succ n ih =>
    rw [readStr, Nat.exists_lt_succ_left]
    have hshift : ∀ k, va + 1 + k = va + (k + 1) := fun k => by omega
    cases hu : u va with
    | none =>
      refine iff_of_false nofun ?_
      rintro (⟨⟨w, hw⟩, -⟩ | ⟨k, -, -, hall⟩)
      · cases hw
      · exact hall 0 k.succ_pos hu
    | some x =>
      by_cases h0 : x.1 = 0
      · simp [h0, Prod.ext_iff]
      · simp only [h0, if_false, ih, hshift, Nat.forall_lt_succ_left, hu, Nat.add_zero,
          Option.some.injEq, Prod.ext_iff, false_and, exists_false, false_or, ne_eq, reduceCtorEq,
          not_false_eq_true, true_and]

theorem read_byte {i : ℕ} {b : UInt8} (h : (u.read va n).2[i]? = some b) :
    ∃ w, u (va + i) = some (b, w) := by
  induction n generalizing va i with
  | zero => cases h
  | succ n ih =>
    rw [read] at h
    cases hu : u va with
    | none =>
      rw [hu] at h
      cases h
    | some x =>
      rw [hu] at h
      cases i with
      | zero =>
        cases h
        exact ⟨x.2, hu⟩
      | succ i =>
        rw [show va + (i + 1) = va + 1 + i by omega]
        exact ih h

theorem read_length_le : (u.read va n).2.length ≤ n := by
  induction n generalizing va with
  | zero => exact le_rfl
  | succ n ih =>
    rw [read]
    cases u va with
    | none => exact Nat.zero_le _
    | some x => exact Nat.succ_le_succ ih

theorem readStr_byte {i : ℕ} {b : UInt8} (h : (u.readStr va n).2[i]? = some b) :
    ∃ w, u (va + i) = some (b, w) := by
  rw [readStr_eq_scanStr] at h
  obtain ⟨hi, rfl⟩ := List.getElem?_eq_some_iff.mp h
  exact read_byte (List.prefix_iff_getElem?.mp (scanStr_isPart _) i hi)

theorem readStr_congr {u' : UserMem} (hle : ∀ a, u a = none → u' a = none)
    (h : ∀ a, va ≤ a → a < va + (u.readStr va n).2.length → u' a = u a) :
    u'.readStr va n = u.readStr va n := by
  induction n generalizing va with
  | zero => rfl
  | succ n ih =>
    rw [readStr, readStr]
    rw [readStr] at h
    cases hu : u va with
    | none => rw [hle va hu]
    | some x =>
      rw [hu] at h
      dsimp only at h ⊢
      rw [h va le_rfl (by split_ifs <;> simp), hu]
      dsimp only
      split_ifs at h ⊢ with h0
      · rfl
      · rw [ih fun a ha ha' => h a (by omega) (by rw [List.length_cons]; omega)]

theorem write_stop {bs : List UInt8} (h : ∀ b, u va ≠ some (b, true)) (hbs : bs ≠ []) :
    u.write va bs = (false, u) := by
  obtain ⟨b, bs, rfl⟩ := List.exists_cons_of_ne_nil hbs
  rw [write]
  cases hu : u va with
  | none => rfl
  | some x =>
    obtain ⟨c, w⟩ := x
    cases w with
    | true => exact absurd hu (h c)
    | false => rfl

/-- Writing past bytes that may be written. -/
theorem write_append {bs : List UInt8} (h : ∀ i < bs.length, ∃ b, u (va + i) = some (b, true))
    (cs : List UInt8) : u.write va (bs ++ cs) = (u.put va bs).write (va + bs.length) cs := by
  induction bs generalizing va u with
  | nil =>
    have hput : u.put va [] = u := by
      funext a
      unfold put
      rw [if_neg]
      simp
    rw [hput]
    rfl
  | cons b bs ih =>
    obtain ⟨b', hb'⟩ := h 0 (by simp)
    rw [List.cons_append, write, show u va = some (b', true) from hb']
    dsimp only
    rw [ih fun i hi => ?_]
    -- the first byte, then the others
    · have hput : put (update u va (some (b, true))) (va + 1) bs = u.put va (b :: bs) := by
        funext a
        unfold put
        rw [List.length_cons]
        obtain rfl | ha := eq_or_ne a va
        · rw [if_neg (by omega), if_pos (by omega), update_self, Nat.sub_self]
          rfl
        · rw [update_of_ne ha]
          by_cases hin : va + 1 ≤ a ∧ a < va + 1 + bs.length
          · rw [if_pos hin, if_pos (by omega), show a - va = a - (va + 1) + 1 by omega]
            rfl
          · rw [if_neg hin, if_neg (by omega)]
      rw [hput, List.length_cons, show va + 1 + bs.length = va + (bs.length + 1) by omega]
    · obtain ⟨c, hc⟩ := h (i + 1) (by rw [List.length_cons]; omega)
      refine ⟨c, ?_⟩
      rw [update_of_ne (by omega), ← hc]
      congr 1
      omega

end UserMem

/-- The memory of the process with table `r` and size `sz`, as if every page below its size had
been allocated: those that have not are zero. -/
def Kmem.user (m : Kmem) (r sz : ℕ) : UserMem := fun va =>
  if va ≥ MAXVA then none
  else if m.lookup r (va / PGSIZE) &&& PTE_V = 0 then
    if va < PGROUNDUP sz then some (0, true) else none
  else if m.lookup r (va / PGSIZE) &&& PTE_U = 0 then none
  else some (m.mem (PTE2PA (m.lookup r (va / PGSIZE))) (va % PGSIZE),
    m.lookup r (va / PGSIZE) &&& PTE_W != 0)

theorem lt_PGROUNDUP (hsz : sz ≤ TRAPFRAME) : va < PGROUNDUP sz ↔ va / PGSIZE < pages sz := by
  have hlt : sz < 2 ^ 63 := lt_of_le_of_lt hsz (by decide)
  rw [PGROUNDUP_eq hlt]
  exact (Nat.div_lt_iff_lt_mul (by decide)).symm

theorem Kmem.lt_of_user (h : m.user r sz va ≠ none) : va < MAXVA := by
  by_contra hva
  unfold Kmem.user at h
  rw [if_pos (not_lt.mp hva)] at h
  exact h rfl

theorem Kmem.user_valid (hva : va < MAXVA) (hv : m.lookup r (va / PGSIZE) &&& PTE_V ≠ 0)
    (hu : m.lookup r (va / PGSIZE) &&& PTE_U ≠ 0) :
    m.user r sz va = some (m.mem (PTE2PA (m.lookup r (va / PGSIZE))) (va % PGSIZE),
      m.lookup r (va / PGSIZE) &&& PTE_W != 0) := by
  unfold Kmem.user
  rw [if_neg (not_le.mpr hva), if_neg hv, if_neg hu]

/-- Two states in which a process sees the same. -/
theorem Kmem.user_congr {r' : ℕ} (h : ∀ v < 2 ^ 26,
    (m'.lookup r' v &&& PTE_V = 0 ↔ m.lookup r v &&& PTE_V = 0) ∧
      (m.lookup r v &&& PTE_V ≠ 0 → (m'.lookup r' v &&& PTE_U = m.lookup r v &&& PTE_U) ∧
        (m'.lookup r' v &&& PTE_W = m.lookup r v &&& PTE_W) ∧
        (m.lookup r v &&& PTE_U ≠ 0 →
          m'.mem (PTE2PA (m'.lookup r' v)) = m.mem (PTE2PA (m.lookup r v)))) ∨
    m.lookup r v &&& PTE_V = 0 ∧ v < pages sz ∧ m'.lookup r' v &&& PTE_V ≠ 0 ∧
      m'.lookup r' v &&& PTE_U ≠ 0 ∧ m'.lookup r' v &&& PTE_W ≠ 0 ∧
      m'.mem (PTE2PA (m'.lookup r' v)) = fun _ => 0) (hsz : sz ≤ TRAPFRAME) :
    m'.user r' sz = m.user r sz := by
  funext a
  unfold Kmem.user
  by_cases ha : a ≥ MAXVA
  · rw [if_pos ha, if_pos ha]
  rw [if_neg ha, if_neg ha]
  have hpage : a / PGSIZE < 2 ^ 26 := by
    have : a < 2 ^ 38 := not_le.mp ha
    show a / 4096 < 2 ^ 26
    omega
  rcases h (a / PGSIZE) hpage with ⟨hv, hrest⟩ | ⟨h0, hlt, hv, hu, hw, hmem⟩
  · by_cases h0 : m.lookup r (a / PGSIZE) &&& PTE_V = 0
    · rw [if_pos h0, if_pos (hv.mpr h0)]
    · rw [if_neg h0, if_neg fun hc => h0 (hv.mp hc)]
      obtain ⟨hu, hw, hmem⟩ := hrest h0
      rw [hu, hw]
      by_cases hu0 : m.lookup r (a / PGSIZE) &&& PTE_U = 0
      · rw [if_pos hu0, if_pos hu0]
      · rw [if_neg hu0, if_neg hu0, hmem hu0]
  · rw [if_pos h0, if_neg hv, if_neg hu, if_pos ((lt_PGROUNDUP hsz).mpr hlt), hmem]
    simp only [Option.some.injEq, Prod.mk.injEq, true_and, bne_iff_ne]
    exact hw

/-! ### Enough memory -/

/-- How many of the `n` pages from `v` on are missing. -/
def Kmem.missing (m : Kmem) (r sz : ℕ) : ℕ → ℕ → ℕ
  | 0, _ => 0
  | n + 1, v =>
      (if m.lookup r v &&& PTE_V = 0 ∧ v < pages sz then 1 else 0) + m.missing r sz n (v + 1)

theorem Kmem.missing_congr (h : ∀ u, v ≤ u → u < pages sz → m'.lookup r u = m.lookup r u) (n : ℕ) :
    m'.missing r sz n v = m.missing r sz n v := by
  induction n generalizing v with
  | zero => rfl
  | succ n ih =>
    rw [Kmem.missing, Kmem.missing, ih fun u hu => h u (by omega)]
    by_cases hv : v < pages sz
    · rw [h v le_rfl hv]
    · rw [if_neg fun hc => hv hc.2, if_neg fun hc => hv hc.2]

theorem PGROUNDDOWN_mod (va : ℕ) : PGROUNDDOWN va % PGSIZE = 0 := Nat.mul_mod_left _ _

/-- A fault on a page that is missing does not fail. -/
theorem ample_vmfault (hA : Ample (k + 3) m)
    (hva : va < sz) (hsz : sz ≤ TRAPFRAME) (h0 : m.lookup r (va / PGSIZE) &&& PTE_V = 0) :
    Ends (fun _ => True) () (vmfault K sz r r va) m fun o m' => o ≠ none ∧ Ample k m' := by
  have hmax := PGROUNDDOWN_lt hva hsz
  rw [vmfault, if_neg (not_le.mpr hva)]
  refine Ends.bind (R := fun b m1 => b = false ∧ m1 = m) (ends_ismapped hmax ?_) ?_
  · rw [PGROUNDDOWN_div, h0]
    exact ⟨rfl, rfl⟩
  rintro _ _ ⟨rfl, rfl⟩
  rw [if_neg Bool.false_ne_true]
  refine Ends.bind (ample_kalloc (k := k + 2) hA) ?_
  rintro (_ | p) m1 ⟨hp, h1⟩
  · exact absurd rfl hp
  · apply ends_act_bind.mpr
    refine Ends.bind (ample_mappages (k := k) ⟨h1.nofail, h1.room⟩ hmax (PGROUNDDOWN_mod va)) ?_
    rintro _ m2 ⟨rfl, h2⟩
    exact ⟨by simp, h2⟩

theorem ends_vmfault_none (hsz : sz ≤ TRAPFRAME)
    (hva : va < sz → m.lookup r (va / PGSIZE) &&& PTE_V ≠ 0) :
    Ends allow () (vmfault K sz r r va) m fun o m' => o = none ∧ m' = m := by
  rw [vmfault]
  by_cases hlt : va ≥ sz
  · rw [if_pos hlt]
    exact ⟨rfl, rfl⟩
  rw [if_neg hlt]
  refine Ends.bind (R := fun b m1 => b = true ∧ m1 = m)
    (ends_ismapped (PGROUNDDOWN_lt (not_le.mp hlt) hsz) ?_) ?_
  · rw [PGROUNDDOWN_div]
    exact ⟨by simpa using hva (not_le.mp hlt), rfl⟩
  rintro _ _ ⟨rfl, rfl⟩
  exact ⟨rfl, rfl⟩

/-! ### The page of an address -/

/-- What a process sees is kept by a step that edits the entries of missing pages only. -/
theorem Kmem.user_edit {P : ℕ → Prop} (h : Owned K ∅ m own) (hS : Space m own r (pages sz) tr tf)
    (he : Edit r P m own m' own') (hsz : sz ≤ TRAPFRAME)
    (hP : ∀ v, P v → m.lookup r v &&& PTE_V = 0 ∧ v < pages sz ∧ m'.lookup r v &&& PTE_V ≠ 0 ∧
      m'.lookup r v &&& PTE_U ≠ 0 ∧ m'.lookup r v &&& PTE_W ≠ 0 ∧
      m'.mem (PTE2PA (m'.lookup r v)) = fun _ => 0) : m'.user r sz = m.user r sz := by
  refine Kmem.user_congr (fun v hv => ?_) hsz
  by_cases hPv : P v
  · exact Or.inr (hP v hPv)
  · have hlk := he.other v (lt_512 hv) hPv
    rw [hlk]
    refine Or.inl ⟨Iff.rfl, fun hval => ⟨rfl, rfl, fun hu => ?_⟩⟩
    -- the page is one of the table's own, since the special ones are not the user's
    have hs : ¬ Special v := fun hs => hu (hS.special_U hs)
    exact (he.data _ v ((h.leaf_of_lookup hS.root (lt_512 hv) hval).2 hs) hPv).2

/-- The page at `PGROUNDDOWN va`, as a system call gets it. -/
structure Paged (K : Layout) (r sz tr tf va k : ℕ) (m : Kmem) (own : ℕ → Place)
    (o : Option ℕ) (m' : Kmem)
    (own' : ℕ → Place) : Prop where
  used : ∀ hi, va < hi → Used K r sz tr tf va hi m own m' own'
  user : m'.user r sz = m.user r sz
  other : ∀ u < 512 ^ 3, u ≠ va / PGSIZE → m'.lookup r u = m.lookup r u
  ample : Ample (k + 3 * m.missing r sz 1 (va / PGSIZE)) m →
    Ample k m' ∧ (o = none → m.user r sz va = none)
  found : ∀ pa, o = some pa → va < MAXVA ∧ m'.lookup r (va / PGSIZE) &&& PTE_V ≠ 0 ∧
    m'.lookup r (va / PGSIZE) &&& PTE_U ≠ 0 ∧ pa = PTE2PA (m'.lookup r (va / PGSIZE))

theorem PGROUNDDOWN_lt_iff : PGROUNDDOWN va < sz ↔ va / PGSIZE < pages sz := by
  rw [pages_eq]
  show va / 4096 * 4096 < sz ↔ va / 4096 < _
  omega

/-- Where there is memory left, a page is missing only where there is none. -/
theorem ample_userPage (hsz : sz ≤ TRAPFRAME)
    (hA : Ample (k + 3 * m.missing r sz 1 (va / PGSIZE)) m) :
    Ends (fun _ => True) () (userPage K sz r r (PGROUNDDOWN va)) m fun o m' =>
      Ample k m' ∧ (o = none → m.user r sz va = none) := by
  have hA0 : Ample k m := hA.mono (by omega)
  rw [userPage]
  refine Ends.seq (Kmem.ends_walkaddr (fun _ _ _ => ⟨hA0, by simp⟩) fun hnone => ?_)
  rw [PGROUNDDOWN_div, PGROUNDDOWN_lt_MAXVA] at hnone
  by_cases hmiss : m.lookup r (va / PGSIZE) &&& PTE_V = 0 ∧ va / PGSIZE < pages sz
  · rw [Kmem.missing, if_pos hmiss] at hA
    refine (ample_vmfault (k := k) hA (PGROUNDDOWN_lt_iff.mpr hmiss.2) hsz ?_).mono fun o m' hm =>
      ⟨hm.2, fun hc => absurd hc hm.1⟩
    rw [PGROUNDDOWN_div]
    exact hmiss.1
  refine (ends_vmfault_none hsz fun hlt => ?_).mono ?_
  · rw [PGROUNDDOWN_div]
    exact fun h0 => hmiss ⟨h0, PGROUNDDOWN_lt_iff.mp hlt⟩
  rintro _ m1 ⟨rfl, rfl⟩
  refine ⟨hA0, fun _ => ?_⟩
  unfold Kmem.user
  by_cases hva : va ≥ MAXVA
  · rw [if_pos hva]
  rw [if_neg hva]
  by_cases h0 : m1.lookup r (va / PGSIZE) &&& PTE_V = 0
  · rw [if_pos h0, if_neg]
    rw [lt_PGROUNDUP hsz]
    exact fun hlt => hmiss ⟨h0, hlt⟩
  · rw [if_neg h0, if_pos (hnone (not_le.mp hva) h0)]

/-- **A system call gets the page of an address**, or there is none. -/
theorem ends_userPage_user (h : Owned K ∅ m own) (hS : Space m own r (pages sz) tr tf)
    (hsz : sz ≤ TRAPFRAME) (k : ℕ) :
    Ends allow () (userPage K sz r r (PGROUNDDOWN va)) m fun o m' =>
      ∃ own', Paged K r sz tr tf va k m own o m' own' := by
  have hpage : Ends allow () (userPage K sz r r (PGROUNDDOWN va)) m fun o m' =>
      (Ample (k + 3 * m.missing r sz 1 (va / PGSIZE)) m → Ample k m' ∧
        (o = none → m.user r sz va = none)) →
      ∃ own', Paged K r sz tr tf va k m own o m' own' := by
    refine ends_userPage h hS hsz (fun m' own' h' he hA => ?_) fun m' own' h' hf hA => ?_
    · exact ⟨own', fun hi _ => .of_edit h hS hsz h' he fun _ => False.elim,
        Kmem.user_edit h hS he hsz fun _ => False.elim, fun u hu _ => he.other u hu id, hA, nofun⟩
    refine ⟨own', fun hi hhi => .of_edit h hS hsz h' hf.edit fun v hv => ?_,
      Kmem.user_edit h hS hf.edit hsz fun v hv => ?_, fun u hu huv => hf.edit.other u hu fun hc =>
        huv hc.1,
      hA, fun pa hp => ?_⟩
    · obtain ⟨rfl, h0⟩ := hv
      exact ⟨h0, (hf.new h0).1, ⟨va, ⟨le_rfl, hhi⟩, rfl⟩, (hf.new h0).2⟩
    · obtain ⟨rfl, h0⟩ := hv
      obtain ⟨hlt, p, hlk, hz⟩ := hf.new h0
      obtain ⟨hV, hU, hW, hp⟩ := mkPte_zeroPage p
      rw [hlk, hp]
      exact ⟨h0, hlt, hV, hU, hW, hz⟩
    · cases hp
      exact ⟨hf.lt, hf.valid, hf.user, rfl⟩
  by_cases hA : Ample (k + 3 * m.missing r sz 1 (va / PGSIZE)) m
  · exact (hpage.and (ample_userPage hsz hA)).mono fun o m' hm => hm.1 fun _ => hm.2
  · exact hpage.mono fun o m' hm => hm fun hc => absurd hc hA

/-! ### One page after the other -/

theorem Kmem.missing_succ (m : Kmem) (r sz n v : ℕ) :
    m.missing r sz (n + 1) v = m.missing r sz 1 v + m.missing r sz n (v + 1) := rfl

theorem next_page : (PGROUNDDOWN va + PGSIZE) / PGSIZE = va / PGSIZE + 1 := by
  rw [Nat.add_div_right _ (by decide), PGROUNDDOWN_div]

theorem Kmem.user_byte {i : ℕ} (hva : va < MAXVA) (hv : m.lookup r (va / PGSIZE) &&& PTE_V ≠ 0)
    (hu : m.lookup r (va / PGSIZE) &&& PTE_U ≠ 0) (hi : va % PGSIZE + i < PGSIZE) :
    m.user r sz (va + i) = some (m.mem (PTE2PA (m.lookup r (va / PGSIZE))) (va % PGSIZE + i),
      m.lookup r (va / PGSIZE) &&& PTE_W != 0) := by
  obtain ⟨hlt, hv', hu', hb⟩ := Kmem.shows_byte hva hv hu hi
  rw [Kmem.user_valid hlt hv' hu', hb, (add_div_page hi).1]

namespace Paged

theorem byte {pa i : ℕ} (h : Paged K r sz tr tf va k m own (some pa) m' own')
    (hi : va % PGSIZE + i < PGSIZE) :
    m.user r sz (va + i) = some (m'.mem pa (va % PGSIZE + i),
      m'.lookup r (va / PGSIZE) &&& PTE_W != 0) := by
  obtain ⟨hva, hv, hu, rfl⟩ := h.found pa rfl
  rw [← h.user]
  exact Kmem.user_byte hva hv hu hi

theorem missing (h : Paged K r sz tr tf va k m own (some p) m' own') (hsz : sz ≤ TRAPFRAME)
    (n : ℕ) :
    m'.missing r sz n (va / PGSIZE + 1) = m.missing r sz n (va / PGSIZE + 1) := by
  have hmax := pages_le hsz
  exact Kmem.missing_congr (fun u hu hu' => h.other u (lt_512 (by omega)) (by omega)) n

end Paged

/-- The loop of `copyin`, by the range that is left: **it reads the memory of the process.** -/
theorem ends_copyinFrom (hsz : sz ≤ TRAPFRAME) (fuel : ℕ) :
    ∀ (va len : ℕ) (m : Kmem) (own : ℕ → Place), len ≤ fuel → Owned K ∅ m own →
    Space m own r (pages sz) tr tf →
    Ends allow () (copyinFrom K sz r r fuel va len) m fun o m' => ∃ own',
      Used K r sz tr tf va (va + len) m own m' own' ∧ o.2.length ≤ len ∧
      (o.1 = true → o.2.length = len) ∧ (∀ i b, o.2[i]? = some b → m'.Shows r (va + i) b) ∧
      m'.user r sz = m.user r sz ∧ (Ample (3 * m.missing r sz (touched va len) (va / PGSIZE)) m →
        o = (m.user r sz).read va len) := by
  induction fuel with
  | zero =>
    intro va len m own hlen h hS
    rw [Nat.le_zero.mp hlen]
    exact ⟨own, .refl h hS hsz, le_rfl, fun _ => rfl, nofun, rfl, fun _ => rfl⟩
  | succ fuel ih =>
    intro va len m own hlen h hS
    rw [copyinFrom]
    split_ifs with h0
    · subst h0
      exact ⟨own, .refl h hS hsz, le_rfl, fun _ => rfl, nofun, rfl, fun _ => rfl⟩
    obtain ⟨hfit, hle, hn, ht, hnext⟩ := chunk va h0
    rw [sub_PGROUNDDOWN, ht, Kmem.missing_succ, Nat.mul_add, Nat.add_comm (3 * _)]
    obtain ⟨n, hneq⟩ : ∃ n, n = min (PGSIZE - va % PGSIZE) len := ⟨_, rfl⟩
    rw [← hneq] at hfit hle hn hnext ⊢
    refine Ends.bind (ends_userPage_user h hS hsz
      (3 * m.missing r sz (touched (PGROUNDDOWN va + PGSIZE) (len - n)) (va / PGSIZE + 1))) ?_
    -- there is no page to read from: the copy stops, as reading the memory does
    rintro (_ | pa) m1 ⟨own1, hP⟩
    · refine ⟨own1, hP.used _ (by omega), Nat.zero_le _, nofun, nofun, hP.user, fun hA => ?_⟩
      rw [UserMem.read_none ((hP.ample hA).2 rfl) (by omega)]
    have hu1 := hP.used (va + len) (by omega)
    obtain ⟨hva, hval, hU, hpa⟩ := hP.found pa rfl
    apply ends_look_bind.mpr
    -- the rest is read in the memory that has this page now
    rw [next_mod hva]
    refine Ends.bind (ih _ (len - n) m1 own1 (by omega) hu1.owned hu1.space) fun o m' hm' => ?_
    obtain ⟨own', hu', hlen', hok, hbytes, huser, hread'⟩ := hm'
    have hread : (Bytes.read (m1.mem pa) (va % PGSIZE) n).length = n := by simp [Bytes.read]
    refine ⟨own', hu1.trans h hS hsz hu' fun x hx hx' => by omega, ?_, fun hk => ?_,
      fun i b hb => ?_, huser.trans hP.user, fun hA => ?_⟩
    · rw [List.length_append, hread]
      omega
    · rw [List.length_append, hread, hok hk]
      omega
    · by_cases hin : i < n
      · rw [List.getElem?_append_left (by omega), Bytes.read, List.getElem?_map,
          List.getElem?_range hin] at hb
        cases hb
        rw [hpa]
        exact hu'.shows hu1.owned hu1.space (by omega) (Kmem.shows_byte hva hval hU (by omega))
      · rw [List.getElem?_append_right (by omega), hread] at hb
        have hlt := (List.getElem?_eq_some_iff.mp hb).1
        have hb' := hbytes (i - n) b hb
        rwa [hnext.resolve_left (by omega), show va + n + (i - n) = va + i by omega] at hb'
    · rw [next_page, hP.missing hsz] at hread'
      have hsplit := UserMem.read_append (k := n) (fun i hi => ⟨_, hP.byte (i := i) (by omega)⟩)
        (len - n)
      have hsame : (m.user r sz).read (va + n) (len - n) =
          (m.user r sz).read (PGROUNDDOWN va + PGSIZE) (len - n) := by
        rcases hnext with h' | h'
        · rw [h']
          rfl
        · rw [h']
      rw [Nat.add_sub_of_le hle, hsame] at hsplit
      rw [hread' (hP.ample hA).1, hP.user, hsplit]
      rfl

/-- The memory of the process after bytes have been written to one of its pages. -/
theorem Kmem.user_setPage {bs : List UInt8} (h : Owned K ∅ m own)
    (hS : Space m own r (pages sz) tr tf) (hva : va < MAXVA)
    (hv : m.lookup r (va / PGSIZE) &&& PTE_V ≠ 0) (hu : m.lookup r (va / PGSIZE) &&& PTE_U ≠ 0)
    (hw : m.lookup r (va / PGSIZE) &&& PTE_W ≠ 0) (hfit : va % PGSIZE + bs.length ≤ PGSIZE) :
    (m.setPage (PTE2PA (m.lookup r (va / PGSIZE))) (Bytes.write
      (m.mem (PTE2PA (m.lookup r (va / PGSIZE)))) (va % PGSIZE) bs)).user r sz =
        (m.user r sz).put va bs := by
  have hv512 := page_lt hva
  have hns : ∀ {v}, m.lookup r v &&& PTE_U ≠ 0 → ¬ Special v := fun hu hs => hu (hS.special_U hs)
  have hleaf := (h.leaf_of_lookup hS.root hv512 hv).2 (hns hu)
  funext a
  have hoff : ∀ {b}, b / PGSIZE = va / PGSIZE → b % PGSIZE + va = va % PGSIZE + b := by
    intro b hb
    have h1 := Nat.div_add_mod' b PGSIZE
    have h2 := Nat.div_add_mod' va PGSIZE
    rw [hb] at h1
    omega
  -- an address is written if it is on this page at an offset that is written
  have hin : va ≤ a ∧ a < va + bs.length ↔ a / PGSIZE = va / PGSIZE ∧
      (va % PGSIZE ≤ a % PGSIZE ∧ a % PGSIZE < va % PGSIZE + bs.length) := by
    constructor
    · rintro ⟨h1, h2⟩
      have hlt : va % PGSIZE + (a - va) < PGSIZE := by omega
      obtain ⟨hd, hm⟩ := add_div_page hlt
      rw [Nat.add_sub_of_le h1] at hd hm
      exact ⟨hd, by omega, by omega⟩
    · rintro ⟨hd, h1, h2⟩
      have := hoff hd
      omega
  unfold UserMem.put
  by_cases ha : a ≥ MAXVA
  · have hne : a / PGSIZE ≠ va / PGSIZE := by
      intro hd
      have : a < MAXVA := lt_MAXVA_of_div (by rw [hd]; exact Nat.div_lt_of_lt_mul hva)
      omega
    rw [if_neg fun hc => hne (hin.mp hc).1]
    unfold Kmem.user
    rw [if_pos ha, if_pos ha]
  have ha := not_le.mp ha
  have hlk := h.lookup_setLeaf hleaf (Bytes.write (m.mem (PTE2PA (m.lookup r (va / PGSIZE))))
    (va % PGSIZE) bs) hS.root (page_lt ha)
  by_cases hd : a / PGSIZE = va / PGSIZE
  · rw [Kmem.user_valid ha (by rw [hlk, hd]; exact hv) (by rw [hlk, hd]; exact hu), hlk, hd,
      Kmem.setPage_mem_self, Kmem.user_valid ha (by rw [hd]; exact hv) (by rw [hd]; exact hu), hd]
    unfold Bytes.write
    by_cases hc : va % PGSIZE ≤ a % PGSIZE ∧ a % PGSIZE < va % PGSIZE + bs.length
    · rw [if_pos hc, if_pos (hin.mpr ⟨hd, hc⟩), show a % PGSIZE - va % PGSIZE = a - va by
        have := hoff hd
        omega]
      simpa using hw
    · rw [if_neg hc, if_neg fun hc' => hc (hin.mp hc').2]
  · rw [if_neg fun hc => hd (hin.mp hc).1]
    unfold Kmem.user
    rw [hlk]
    by_cases hval : m.lookup r (a / PGSIZE) &&& PTE_V = 0
    · rw [if_pos hval, if_pos hval]
    · rw [if_neg hval, if_neg hval]
      by_cases hus : m.lookup r (a / PGSIZE) &&& PTE_U = 0
      · rw [if_pos hus, if_pos hus]
      · -- another page of the process is another page of memory
        rw [if_neg hus, if_neg hus, Kmem.setPage_mem_of_ne]
        intro hc
        have hleaf' := (h.leaf_of_lookup hS.root (page_lt ha) hval).2 (hns hus)
        rw [hc, hleaf] at hleaf'
        injection hleaf' with _ _ hvy
        exact hd hvy.symm

/-- The loop of `copyout`, by the range that is left: **it writes the memory of the process.** -/
theorem ends_copyoutFrom (hsz : sz ≤ TRAPFRAME) (fuel : ℕ) :
    ∀ (va : ℕ) (src : List UInt8) (m : Kmem) (own : ℕ → Place), src.length ≤ fuel →
      Owned K ∅ m own →
    Space m own r (pages sz) tr tf →
    Ends allow () (copyoutFrom K sz r r fuel va src) m fun ok m' => ∃ own',
      Used K r sz tr tf va (va + src.length) m own m' own' ∧
      (ok = true → ∀ i b, src[i]? = some b → m'.Shows r (va + i) b) ∧
      (Ample (3 * m.missing r sz (touched va src.length) (va / PGSIZE)) m →
        (ok, m'.user r sz) = (m.user r sz).write va src) := by
  induction fuel with
  | zero =>
    intro va src m own hlen h hS
    rw [List.eq_nil_of_length_eq_zero (Nat.le_zero.mp hlen)]
    exact ⟨own, .refl h hS hsz, fun _ => by simp, fun _ => rfl⟩
  | succ fuel ih =>
    intro va src m own hlen h hS
    rw [copyoutFrom]
    by_cases hsrc : src = []
    · rw [if_pos hsrc, hsrc]
      exact ⟨own, .refl h hS hsz, fun _ => by simp, fun _ => rfl⟩
    rw [if_neg hsrc]
    have hstop : ∀ {m' : Kmem}, m'.user r sz = m.user r sz →
      (∀ b, m.user r sz va ≠ some (b, true)) →
        (false, m'.user r sz) = (m.user r sz).write va src := by
      intro m' hm' hb
      rw [hm', UserMem.write_stop hb hsrc]
    by_cases hmax : PGROUNDDOWN va ≥ MAXVA
    · rw [if_pos hmax]
      refine ⟨own, .refl h hS hsz, by simp, fun _ => hstop rfl fun b hb => ?_⟩
      have hva := Kmem.lt_of_user (m := m) (by rw [hb]; simp)
      exact absurd (PGROUNDDOWN_lt_MAXVA.mpr hva) (not_lt.mpr hmax)
    rw [if_neg hmax]
    have hpos : src.length ≠ 0 := fun hc => hsrc (List.eq_nil_of_length_eq_zero hc)
    obtain ⟨hfit, hle, hn, ht, hnext⟩ := chunk va hpos
    rw [sub_PGROUNDDOWN, ht, Kmem.missing_succ, Nat.mul_add, Nat.add_comm (3 * _)]
    obtain ⟨n, hneq⟩ : ∃ n, n = min (PGSIZE - va % PGSIZE) src.length := ⟨_, rfl⟩
    rw [← hneq] at hfit hle hn hnext ⊢
    have htake : (src.take n).length = n := by rw [List.length_take, Nat.min_eq_left hle]
    have hdrop : (src.drop n).length = src.length - n := List.length_drop
    refine Ends.bind (ends_userPage_user h hS hsz
      (3 * m.missing r sz (touched (PGROUNDDOWN va + PGSIZE) (src.length - n)) (va / PGSIZE + 1)))
        ?_
    rintro (_ | pa) m1 ⟨own1, hP⟩
    · refine ⟨own1, hP.used _ (by omega), by simp, fun hA => hstop hP.user fun b => ?_⟩
      rw [(hP.ample hA).2 rfl]
      simp
    have hu1 := hP.used (va + src.length) (by omega)
    have h1 := hu1.owned
    have hS1 := hu1.space
    obtain ⟨hva, hval, hU, hpa⟩ := hP.found pa rfl
    refine Ends.seq (Kmem.ends_walk (not_le.mp hmax) (fun h0 => ?_) fun q hlook => ?_)
    · rw [PGROUNDDOWN_div] at h0
      exact absurd (by rw [h0]; rfl) hval
    apply ends_look_bind.mpr
    rw [PGROUNDDOWN_div] at hlook ⊢
    rw [← hlook]
    by_cases hW : m1.lookup r (va / PGSIZE) &&& PTE_W = 0
    · rw [if_pos hW]
      refine ⟨own1, hu1, by simp, fun _ => hstop hP.user fun b hb => ?_⟩
      have hbyte := hP.byte (i := 0) (by omega)
      rw [hW, Nat.add_zero, hb] at hbyte
      cases hbyte
    rw [if_neg hW]
    apply ends_act_bind.mpr
    -- the page is one of the table's own
    have hs : ¬ Special (va / PGSIZE) := fun hc => hU (hS1.special_U hc)
    have hleaf := (h1.leaf_of_lookup hS1.root (page_lt hva) hval).2 hs
    have huser := Kmem.user_setPage h1 hS1 hva hval hU hW (by rw [htake]; exact hfit)
    rw [← hpa] at hleaf huser
    have hdm := Nat.div_add_mod' va PGSIZE
    have hu2 : Used K r sz tr tf va (va + src.length) m1 own1
        (m1.setPage pa (Bytes.write (m1.mem pa) (va % PGSIZE) (src.take n))) own1 := by
      refine ⟨.of_edit hS1 hsz (Edit.setLeaf h1 hS1.root hleaf _) fun v hv =>
        hv ▸ (hS1.bound _ (page_lt hva) hval).resolve_right hs,
        .setLeaf h1 hS1.root hleaf hU hW fun a ha => ?_, h1.setLeaf hleaf _⟩
      unfold Bytes.write at ha
      split_ifs at ha with hin
      · rw [htake] at hin
        omega
      · exact absurd rfl ha
    have hlk : ∀ b, ∀ u < 512 ^ 3, (m1.setPage pa b).lookup r u = m1.lookup r u := fun b u hu =>
      h1.lookup_setLeaf hleaf b hS1.root hu
    refine (ih _ (src.drop n) _ own1 (by omega) hu2.owned hu2.space).mono fun ok m' hm' => ?_
    obtain ⟨own', hu', hok, hwrite⟩ := hm'
    refine ⟨own', (hu1.trans h hS hsz hu2 fun _ hx hx' => ⟨hx, hx'⟩).trans h hS hsz hu'
      fun x hx hx' => ?_, fun hk i b hb => ?_, fun hA => ?_⟩
    · omega
    · obtain ⟨hi, rfl⟩ := List.getElem?_eq_some_iff.mp hb
      by_cases hin : i < n
      · -- a byte of this page, which is left alone afterwards
        refine hu'.shows hu2.owned hu2.space (by omega) ?_
        have hlk := hlk (Bytes.write (m1.mem pa) (va % PGSIZE) (src.take n)) _ (page_lt hva)
        have hbyte := Kmem.shows_byte (i := i) hva (by rw [hlk]; exact hval) (by rw [hlk]; exact hU)
          (by omega)
        rwa [hlk, ← hpa, Kmem.setPage_mem_self, Bytes.write, if_pos (by omega),
          Nat.add_sub_cancel_left, List.getD_eq_getElem?_getD, List.getElem?_take_of_lt hin, hb,
          Option.getD_some] at hbyte
      · have hb' :=
          hok hk (i - n) src[i] (by rw [List.getElem?_drop, show n + (i - n) = i by omega, hb])
        rwa [hnext.resolve_left (by omega), show va + n + (i - n) = va + i by omega] at hb'
    -- what is left is written after the part in this page
    have hpm := pages_le hsz
    have hA1 := (hP.ample hA).1
    rw [hdrop, next_page, Kmem.missing_congr (fun u _ hu => hlk _ u (lt_512 (by omega))),
      hP.missing hsz] at hwrite
    have hbs : ∀ i < (src.take n).length, ∃ b, m.user r sz (va + i) = some (b, true) := by
      intro i hi
      rw [htake] at hi
      have hb := hP.byte (i := i) (by omega)
      rw [show (m1.lookup r (va / PGSIZE) &&& PTE_W != 0) = true by simpa using hW] at hb
      exact ⟨_, hb⟩
    have happ := UserMem.write_append hbs (src.drop n)
    rw [List.take_append_drop, htake] at happ
    rw [hwrite ⟨hA1.nofail, hA1.room⟩, huser, hP.user, happ]
    rcases hnext with hc | hc
    · rw [List.eq_nil_of_length_eq_zero (hdrop.trans hc)]
      rfl
    · rw [hc]

/-! ### `copyinstr` -/

theorem Kmem.shows_iff {b : UInt8} : m.Shows r va b ↔ ∃ w, m.user r 0 va = some (b, w) := by
  constructor
  · rintro ⟨hva, hv, hu, rfl⟩
    exact ⟨_, Kmem.user_valid hva hv hu⟩
  · rintro ⟨w, hw⟩
    unfold Kmem.user at hw
    split_ifs at hw with hva h0 hlt hu
    · exact absurd hlt (Nat.not_lt_zero va)
    · cases hw
      exact ⟨not_le.mp hva, h0, hu, rfl⟩

/-- **`copyinstr` reads a string from the pages that are there.** -/
theorem ends_copyinstrFrom (fuel : ℕ) : ∀ va max, max ≤ fuel →
    Ends allow () (copyinstrFrom r fuel va max) m fun o m' =>
      o = (m.user r 0).readStr va max ∧ m' = m := by
  induction fuel with
  | zero =>
    intro va max hmax
    rw [Nat.le_zero.mp hmax]
    exact ⟨rfl, rfl⟩
  | succ fuel ih =>
    intro va max hmax
    rw [copyinstrFrom]
    by_cases h0 : max = 0
    · rw [if_pos h0, h0]
      exact ⟨rfl, rfl⟩
    rw [if_neg h0]
    refine Ends.seq (Kmem.ends_walkaddr (fun hva hv hu => ?_) fun hnone => ?_)
    · rw [PGROUNDDOWN_div] at hv hu
      rw [PGROUNDDOWN_lt_MAXVA] at hva
      obtain ⟨hin, hle, hpos, -, hnext⟩ := chunk va h0
      dsimp only
      rw [PGROUNDDOWN_div, sub_PGROUNDDOWN, next_mod hva]
      obtain ⟨n, hn⟩ : ∃ n, n = min (PGSIZE - va % PGSIZE) max := ⟨_, rfl⟩
      rw [← hn] at hin hle hpos hnext ⊢
      -- the string is what is scanned on this page, and behind it
      have happ := UserMem.read_append (u := m.user r 0) (k := n)
        (fun i hi => ⟨_, Kmem.user_byte (i := i) hva hv hu (by omega)⟩) (max - n)
      rw [Nat.add_sub_of_le hle] at happ
      apply ends_look_bind.mpr
      unfold Bytes.read
      rw [UserMem.readStr_eq_scanStr, happ, scanStr_append, ← UserMem.readStr_eq_scanStr]
      split_ifs with hgot
      · exact ⟨rfl, rfl⟩
      refine Ends.bind (ih _ _ (by omega)) ?_
      rintro _ m' ⟨rfl, rfl⟩
      rcases hnext with hn | hn
      · rw [hn]
        exact ⟨rfl, rfl⟩
      · rw [hn]
        exact ⟨rfl, rfl⟩
    · obtain ⟨max, rfl⟩ : ∃ k, max = k + 1 := ⟨max - 1, by omega⟩
      rw [PGROUNDDOWN_div, PGROUNDDOWN_lt_MAXVA] at hnone
      refine ⟨?_, rfl⟩
      rw [UserMem.readStr]
      cases hb : m.user r 0 va with
      | none => rfl
      | some x =>
        obtain ⟨hva, hv, hu, -⟩ := Kmem.shows_iff.mpr ⟨x.2, hb⟩
        exact absurd (hnone hva hv) hu

/-- To a process it reads its memory just when the pages that hold the string are there. -/
theorem copyinstr_user_iff {max : ℕ} :
    (copyinstr r va max).run () m = .ok ((m.user r sz).readStr va max) m ↔ ∀ a, va ≤ a →
      a < va + ((m.user r sz).readStr va max).2.length → m.lookup r (a / PGSIZE) &&& PTE_V ≠ 0 := by
  have hsame : ∀ a, m.lookup r (a / PGSIZE) &&& PTE_V ≠ 0 → m.user r 0 a = m.user r sz a := by
    intro a hv
    simp only [Kmem.user, if_neg hv]
  obtain ⟨_, _, hr, rfl, rfl⟩ := (ends_copyinstrFrom max va max le_rfl).exists_run
  rw [copyinstr, hr]
  constructor
  · intro heq a ha ha'
    injection heq with heq
    obtain ⟨i, rfl⟩ := Nat.exists_eq_add_of_le ha
    rw [← heq] at ha'
    obtain ⟨w, hw⟩ := UserMem.readStr_byte
      (List.getElem?_eq_getElem (Nat.lt_of_add_lt_add_left ha'))
    exact (Kmem.shows_iff.mpr ⟨w, hw⟩).2.1
  · intro hthere
    rw [UserMem.readStr_congr (fun a ha => ?_) fun a ha ha' => hsame a (hthere a ha ha')]
    cases hb : m.user r 0 a with
    | none => rfl
    | some x => rw [← ha, ← hsame a (Kmem.shows_iff.mpr ⟨x.2, hb⟩).2.1, hb]

/-- **`copyinstr` succeeds just when there is a `\0` among the first `max` bytes and the pages up to
it are mapped for the user.**  What it has copied are then the bytes up to the first `\0`; it never
copies more than `max`, nor a byte that is not there. -/
theorem copyinstr_exact (m : Kmem) (r srcva max : ℕ) :
    Ends (fun _ => False) () (copyinstr r srcva max) m fun o m' => m' = m ∧
      (o.1 = true ↔ ∃ n < max, m.Shows r (srcva + n) 0 ∧ ∀ i < n, ∃ b, m.Shows r (srcva + i) b) ∧
      (o.1 = true → ∃ str, o.2 = str ++ [0] ∧ 0 ∉ str) ∧
      (∀ i b, o.2[i]? = some b → m.Shows r (srcva + i) b) ∧ o.2.length ≤ max := by
  refine (ends_copyinstrFrom max srcva max le_rfl).mono fun o m' ho => ?_
  obtain ⟨rfl, rfl⟩ := ho
  refine ⟨rfl, ?_, fun h => ?_, fun i b hb => Kmem.shows_iff.mpr (UserMem.readStr_byte hb), ?_⟩
  rotate_left
  · rw [UserMem.readStr_eq_scanStr] at h ⊢
    exact scanStr_string h
  · rw [UserMem.readStr_eq_scanStr]
    exact (scanStr_isPart _).length_le.trans UserMem.read_length_le
  rw [UserMem.readStr_iff]
  refine exists_congr fun n => and_congr_right fun _ => and_congr Kmem.shows_iff.symm ?_
  refine forall₂_congr fun i _ => ?_
  simp [Kmem.shows_iff, Option.ne_none_iff_exists']

end Xv6.Vm
