import AcrnUt.Heap
import AcrnUt.PageScan

/-!
# The order of a block of the page backend

`page_memalign` of `lib/alloc_page.c` turns a size into the order of a block, with the `fls` of
`lib/bitops.h` : a search over halves of the word, or the count of leading zeros of the
compiler. Both find the highest bit set (`FlsBuild.fls_eq`), and the order is the least that is
large enough (`pageOrder_isLeast`).

The alignment is not used. A block starts at a multiple of its own length, and `memalign` adds
the alignment to the size that it asks for, so the block is aligned as asked, unless this
sum comes round the word, or the alignment is no power of two (`AlignsAsAsked`).
-/

set_option linter.unusedSectionVars false

namespace AcrnUt

variable {w : ℕ}

/-! ## The source -/

/-- One `if` of the search : `num` and `word`, if the upper `s` bits of `word` are clear. -/
def flsSearch.step (s : ℕ) (st : ℕ × BitVec w) : ℕ × BitVec w :=
  if st.2 &&& (BitVec.allOnes w <<< (w - s)) = 0 then (st.1 - s, st.2 <<< s) else st

/-- `fls` without `HAVE_BUILTIN_FLS`. -/
def flsSearch (word : BitVec w) : BitVec w :=
  let st := (w - 1, word)
  let st := if w = 64 then flsSearch.step 32 st else st
  let st := flsSearch.step 16 st
  let st := flsSearch.step 8 st
  let st := flsSearch.step 4 st
  let st := flsSearch.step 2 st
  let num := if st.2 &&& (BitVec.allOnes w <<< (w - 1)) = 0 then st.1 - 1 else st.1
  BitVec.ofNat w num

/-- `fls` with `HAVE_BUILTIN_FLS`. `__builtin_clzl` counts the leading zeros. -/
def flsBuiltin (word : BitVec w) : BitVec w :=
  BitVec.ofNat w w - word.clz - 1

/-- The builds of `fls`. -/
inductive FlsBuild
  | search
  | builtin

/-- `fls` of a build. -/
def FlsBuild.fls : FlsBuild → BitVec w → BitVec w
  | search => flsSearch
  | builtin => flsBuiltin

/-- The order that `page_memalign` computes. -/
def pageOrder [PageGeom w] (build : FlsBuild) (size : BitVec w) : BitVec w :=
  let n := align size pageSize >>> pageShift w
  if isPowerOf2 n then build.fls n else build.fls n + 1

/-- `page_memalign`, with the `fls` of a build. -/
def FlsBuild.pageMemalign [PageGeom w] (build : FlsBuild) (_alignment size : BitVec w)
    (m : Machine w) : Option (BitVec w × Machine w) :=
  if size = 0 then some (0, m) else allocPages (pageOrder build size) m

/-! ## The highest bit -/

theorem upper_eq_zero_iff {x : BitVec w} {k : ℕ} :
    x &&& (BitVec.allOnes w <<< k) = 0 ↔ x.toNat < 2 ^ k := by
  constructor
  · intro h
    refine Nat.lt_pow_two_of_testBit _ fun i hi => ?_
    by_cases hw : i < w
    · have hbit : (x &&& (BitVec.allOnes w <<< k)).getLsbD i = false := by
        rw [h]
        exact BitVec.getLsbD_zero
      rw [BitVec.getLsbD_and, BitVec.getLsbD_shiftLeft, BitVec.getLsbD_allOnes] at hbit
      simp only [hw, not_lt.mpr hi, show i - k < w by omega, decide_true, decide_false,
        Bool.not_false, Bool.and_true] at hbit
      exact hbit
    · exact BitVec.getLsbD_of_ge x i (not_lt.mp hw)
  · intro h
    refine BitVec.eq_of_getLsbD_eq fun i _ => ?_
    rw [BitVec.getLsbD_and, BitVec.getLsbD_shiftLeft]
    rcases Nat.lt_or_ge i k with hi | hi
    · simp [hi]
    · have hbit : x.getLsbD i = false :=
        Nat.testBit_lt_two_pow (h.trans_le (Nat.pow_le_pow_right two_pos hi))
      simp [hbit]

namespace flsSearch

/-- Before the `if` that looks at half of the upper `s` bits : `word` is shifted by as many bits as
`num` has come down, without a loss, and the highest bit is among the upper `s`. -/
def Inv (x : BitVec w) (s : ℕ) (st : ℕ × BitVec w) : Prop :=
  ∃ d, st.1 + d + 1 = w ∧ st.2.toNat = x.toNat * 2 ^ d ∧ 2 ^ (w - s) ≤ st.2.toNat

variable {x : BitVec w} {s : ℕ} {st : ℕ × BitVec w}

theorem Inv.start (hw : 0 < w) (hx : x ≠ 0) : Inv x w (w - 1, x) := by
  refine ⟨0, by omega, by simp, ?_⟩
  rw [Nat.sub_self]
  exact Nat.pos_of_ne_zero fun h => hx (BitVec.eq_of_toNat_eq h)

/-- One `if` halves the bits that the highest one is among. -/
theorem Inv.step (hs : 2 * s ≤ w) (h : Inv x (2 * s) st) : Inv x s (flsSearch.step s st) := by
  obtain ⟨d, hnum, hword, hlow⟩ := h
  rw [flsSearch.step]
  by_cases hupper : st.2.toNat < 2 ^ (w - s)
  · rw [if_pos (upper_eq_zero_iff.mpr hupper)]
    have hx : 0 < x.toNat := by
      refine Nat.pos_of_ne_zero fun h0 => ?_
      rw [hword, h0, zero_mul] at hlow
      exact absurd hlow (not_le.mpr (Nat.two_pow_pos _))
    have hd : d < w - s := by
      refine (Nat.pow_lt_pow_iff_right (a := 2) (by norm_num)).mp (lt_of_le_of_lt ?_ hupper)
      rw [hword]
      exact Nat.le_mul_of_pos_left _ hx
    have hshift : (st.2 <<< s).toNat = st.2.toNat * 2 ^ s := by
      rw [BitVec.toNat_shiftLeft, Nat.shiftLeft_eq, Nat.mod_eq_of_lt]
      calc st.2.toNat * 2 ^ s < 2 ^ (w - s) * 2 ^ s :=
            Nat.mul_lt_mul_of_pos_right hupper (Nat.two_pow_pos s)
        _ = 2 ^ w := by rw [← pow_add, Nat.sub_add_cancel (by omega)]
    refine ⟨d + s, by dsimp only; omega, ?_, ?_⟩
    · rw [hshift, hword, mul_assoc, ← pow_add]
    · rw [hshift, show w - s = w - 2 * s + s by omega, pow_add]
      exact Nat.mul_le_mul_right _ hlow
  · rw [if_neg fun h0 => hupper (upper_eq_zero_iff.mp h0)]
    exact ⟨d, hnum, hword, not_lt.mp hupper⟩

/-- With the highest bit at the top, `num` is its number. -/
theorem Inv.log2_eq (h : Inv x 1 st) : Nat.log2 x.toNat = st.1 := by
  obtain ⟨d, hnum, hword, hlow⟩ := h
  have hlt := st.2.isLt
  rw [hword] at hlow hlt
  have hx : x.toNat ≠ 0 := by
    intro h0
    rw [h0, zero_mul] at hlow
    exact absurd hlow (not_le.mpr (Nat.two_pow_pos _))
  refine (Nat.log2_eq_iff hx).mpr ⟨?_, ?_⟩
  · refine Nat.le_of_mul_le_mul_right ?_ (Nat.two_pow_pos d)
    rwa [← pow_add, show st.1 + d = w - 1 by omega]
  · refine Nat.lt_of_mul_lt_mul_right (a := 2 ^ d) ?_
    rwa [← pow_add, show st.1 + 1 + d = w by omega]

end flsSearch

/-- The search finds the highest bit. -/
theorem flsSearch_eq {x : BitVec w} (hw : w = 32 ∨ w = 64) (hx : x ≠ 0) : flsSearch x = fls x := by
  have hstart : flsSearch.Inv x 32
      (if w = 64 then flsSearch.step 32 (w - 1, x) else (w - 1, x)) := by
    rcases hw with rfl | rfl
    · exact .start (by norm_num) hx
    · exact .step le_rfl (.start (by norm_num) hx)
  have h₁ := ((((hstart.step (s := 16) (by omega)).step (s := 8) (by omega)).step
    (s := 4) (by omega)).step (s := 2) (by omega)).step (s := 1) (by omega)
  rw [fls, h₁.log2_eq, flsSearch.step]
  unfold flsSearch
  dsimp only
  split_ifs <;> rfl

theorem flsBuiltin_eq {x : BitVec w} (hx : x ≠ 0) : flsBuiltin x = fls x := by
  have hw : 0 < w := Nat.pos_of_ne_zero fun h => by
    subst h
    exact hx (Subsingleton.elim _ _)
  have hclz : x.clz.toNat < w := by
    have h := BitVec.lt_def.mp (BitVec.clz_lt_iff_ne_zero.mpr hx)
    rwa [BitVec.natCast_eq_ofNat, BitVec.toNat_ofNat, Nat.mod_eq_of_lt Nat.lt_two_pow_self] at h
  have hx' : x.toNat ≠ 0 := fun h => hx (BitVec.eq_of_toNat_eq h)
  have hlog : Nat.log2 x.toNat = w - 1 - x.clz.toNat := by
    refine (Nat.log2_eq_iff hx').mpr ⟨BitVec.two_pow_sub_clz_le_toNat_of_ne_zero hw hx, ?_⟩
    rw [show w - 1 - x.clz.toNat + 1 = w - x.clz.toNat by omega]
    exact BitVec.toNat_lt_two_pow_sub_clz
  rw [fls, hlog, flsBuiltin]
  refine BitVec.eq_of_toNat_eq ?_
  have hself : w < 2 ^ w := Nat.lt_two_pow_self
  have hone : (1 : BitVec w).toNat = 1 := BitVec.toNat_one hw
  have hle : x.clz ≤ BitVec.ofNat w w := by
    rw [BitVec.le_def, BitVec.toNat_ofNat, Nat.mod_eq_of_lt hself]
    exact hclz.le
  have hsub : (BitVec.ofNat w w - x.clz).toNat = w - x.clz.toNat := by
    rw [BitVec.toNat_sub_of_le hle, BitVec.toNat_ofNat, Nat.mod_eq_of_lt hself]
  rw [BitVec.toNat_sub_of_le (by rw [BitVec.le_def, hsub, hone]; omega), hsub, hone,
    BitVec.toNat_ofNat, Nat.mod_eq_of_lt (by omega)]
  omega

/-- Both builds of `fls` find the highest bit. -/
theorem FlsBuild.fls_eq (build : FlsBuild) {x : BitVec w} (hw : w = 32 ∨ w = 64) (hx : x ≠ 0) :
    build.fls x = AcrnUt.fls x := by
  rcases build with _ | _
  · exact flsSearch_eq hw hx
  · exact flsBuiltin_eq hx

/-! ## The order -/

section Order

variable {n k : ℕ}

/-- The order of `n` pages is the least that is large enough. -/
theorem heapOrder_le_iff (hn : 0 < n) : heapOrder n ≤ k ↔ n ≤ 2 ^ k := by
  constructor
  · exact fun h => (le_two_pow_heapOrder n).trans (Nat.pow_le_pow_right two_pos h)
  · intro h
    unfold heapOrder
    split_ifs with hpow
    · refine (Nat.pow_le_pow_iff_right (a := 2) (by norm_num)).mp ?_
      rwa [two_pow_log2 hpow]
    · have hlog : 2 ^ Nat.log2 n ≤ n := Nat.log2_self_le hn.ne'
      have hne : 2 ^ Nat.log2 n ≠ n := fun heq => hpow ⟨_, heq.symm⟩
      exact (Nat.pow_lt_pow_iff_right (by norm_num)).mp (by omega : 2 ^ Nat.log2 n < 2 ^ k)

theorem two_pow_heapOrder_lt (hn : 0 < n) : 2 ^ heapOrder n < 2 * n := by
  have hlog : 2 ^ Nat.log2 n ≤ n := Nat.log2_self_le hn.ne'
  unfold heapOrder
  split_ifs with hpow
  · omega
  · have hne : 2 ^ Nat.log2 n ≠ n := fun heq => hpow ⟨_, heq.symm⟩
    rw [pow_succ]
    omega

variable [PageGeom w] [WordGeom w] {size : BitVec w} (build : FlsBuild)

/-- The pages of a size. -/
def sizePages (size : BitVec w) : ℕ :=
  (size.toNat + (2 ^ pageShift w - 1)) / 2 ^ pageShift w

theorem sizePages_le_iff : sizePages size ≤ k ↔ size.toNat ≤ k * 2 ^ pageShift w := by
  have hpos := Nat.two_pow_pos (pageShift w)
  rw [sizePages, Nat.div_le_iff_le_mul_add_pred hpos, mul_comm k]
  omega

theorem sizePages_pos (hsize : 1 ≤ size.toNat) : 0 < sizePages size := by
  refine Nat.pos_of_ne_zero fun h => ?_
  have hle := sizePages_le_iff.mp h.le
  omega

theorem toNat_pages (hfits : size.toNat + (2 ^ pageShift w - 1) < 2 ^ w) :
    (align size pageSize >>> pageShift w).toNat = sizePages size := by
  have halign : (align size pageSize).toNat = sizePages size * 2 ^ pageShift w :=
    toNat_align pageShift_lt hfits
  rw [BitVec.toNat_ushiftRight, Nat.shiftRight_eq_div_pow, halign,
    Nat.mul_div_cancel _ (Nat.two_pow_pos _)]

theorem pages_ne_zero (hsize : 1 ≤ size.toNat)
    (hfits : size.toNat + (2 ^ pageShift w - 1) < 2 ^ w) :
    align size pageSize >>> pageShift w ≠ 0 := by
  intro h
  have hpages := toNat_pages hfits
  rw [h] at hpages
  exact absurd hpages.symm (sizePages_pos hsize).ne'

/-- Where rounding up to pages does not come round, `page_memalign` of both builds is that of
`page_alloc_ops`. Every call of `memalign` asks for such a size (`requestSize_fits`). -/
theorem FlsBuild.pageMemalign_eq (hw : w = 32 ∨ w = 64)
    (hfits : size.toNat + (2 ^ pageShift w - 1) < 2 ^ w) (alignment : BitVec w) (m : Machine w) :
    build.pageMemalign alignment size m = pageAllocOps.memalign alignment size m := by
  change _ = AcrnUt.pageMemalign alignment size m
  rw [FlsBuild.pageMemalign, AcrnUt.pageMemalign]
  by_cases hsize : size = 0
  · rw [if_pos hsize, if_pos hsize]
  · have hpos : 1 ≤ size.toNat := Nat.pos_of_ne_zero fun h => hsize (BitVec.eq_of_toNat_eq h)
    simp only [if_neg hsize, pageOrder, build.fls_eq hw (pages_ne_zero hpos hfits)]

theorem toNat_pageOrder (hw : w = 32 ∨ w = 64) (hsize : 1 ≤ size.toNat)
    (hfits : size.toNat + (2 ^ pageShift w - 1) < 2 ^ w) :
    (pageOrder build size).toNat = heapOrder (sizePages size) := by
  have hn := sizePages_pos hsize
  have hpages := toNat_pages hfits
  have hne := pages_ne_zero hsize hfits
  have hpow := isPowerOf2_iff (n := align size pageSize >>> pageShift w)
  have hlog : Nat.log2 (sizePages size) + 1 < 2 ^ w := by
    have hlt : sizePages size < 2 ^ w := hpages ▸ BitVec.isLt _
    exact lt_of_le_of_lt ((Nat.log2_lt hn.ne').mpr hlt) Nat.lt_two_pow_self
  have hfls : (build.fls (align size pageSize >>> pageShift w)).toNat
      = Nat.log2 (sizePages size) := by
    rw [build.fls_eq hw hne, fls, hpages, BitVec.toNat_ofNat, Nat.mod_eq_of_lt (by omega)]
  rw [hpages] at hpow
  unfold pageOrder heapOrder
  by_cases h : (sizePages size).isPowerOfTwo
  · rw [if_pos (hpow.mpr h), if_pos h, hfls]
  · have hone : (1 : BitVec w).toNat = 1 :=
      BitVec.toNat_one (Nat.zero_lt_of_lt (pageShift_lt (w := w)))
    rw [if_neg (mt hpow.mp h), if_neg h, BitVec.toNat_add, hfls, hone, Nat.mod_eq_of_lt hlog]

/-- The order is the least with enough pages. -/
theorem pageOrder_isLeast (hw : w = 32 ∨ w = 64) (hsize : 1 ≤ size.toNat)
    (hfits : size.toNat + (2 ^ pageShift w - 1) < 2 ^ w) :
    IsLeast {k | size.toNat ≤ 2 ^ k * 2 ^ pageShift w} (pageOrder build size).toNat := by
  have hiff (k : ℕ) : size.toNat ≤ 2 ^ k * 2 ^ pageShift w ↔ heapOrder (sizePages size) ≤ k := by
    rw [heapOrder_le_iff (sizePages_pos hsize), sizePages_le_iff]
  rw [toNat_pageOrder build hw hsize hfits]
  exact ⟨(hiff _).mpr le_rfl, fun k hk => (hiff k).mp hk⟩

end Order

/-! ## Blocks -/

section Blocks

variable [PageGeom w] [WordGeom w] {m m' : Machine w} {l : List (BitVec w)} {p size : BitVec w}

/-- A call that returns a block cuts it out of the free list, at a multiple of its length. -/
theorem FlsBuild.pageMemalign_block (build : FlsBuild) (alignment : BitVec w)
    (hl : m.FreeList l) (hrun : build.pageMemalign alignment size m = some (p, m')) (hp : p ≠ 0) :
    Block (pageOrder build size).toNat p ∧ ∃ pre rest,
      l = pre ++ pageRun p (2 ^ (pageOrder build size).toNat) ++ rest ∧
        m'.FreeList (pre ++ rest) := by
  have hsize : size ≠ 0 := by
    rintro rfl
    rw [pageMemalign, if_pos rfl] at hrun
    cases hrun
    exact hp rfl
  rw [pageMemalign, if_neg hsize] at hrun
  have horder : (pageOrder build size).toNat < w := by
    by_contra h
    rw [allocPages, if_pos (not_lt.mp h)] at hrun
    cases hrun
  obtain ⟨r, m₁, hrun', hcut⟩ := allocPages_spec hl horder
  rw [hrun] at hrun'
  cases hrun'
  rcases hcut with ⟨h0, -⟩ | ⟨pre, rest, hblock, hsplit, hlist, -⟩
  · exact absurd h0 hp
  · exact ⟨hblock, pre, rest, hsplit, hlist⟩

/-- A list that is one block is found. -/
theorem allocPages_block {order : BitVec w} (hl : m.FreeList (pageRun p (2 ^ order.toNat)))
    (hp : Block order.toNat p) : ∃ m', allocPages order m = some (p, m') := by
  have hhead : BlockAt order.toNat (pageRun p (2 ^ order.toNat)) [] p := ⟨hp, [], by simp⟩
  obtain ⟨r, m', hrun, hfound⟩ := (allocPages_first_iff hl order).mpr (fun pre r hfirst => by
    rw [List.length_eq_zero_iff.mp (Nat.le_zero.mp (hfirst.2 _ _ hhead))]
    exact .nil) hp.order_lt
  rcases hfound with ⟨-, hnone⟩ | ⟨pre, hfirst⟩
  · exact absurd hhead (hnone [] p)
  · obtain rfl : pre = [] :=
      List.length_eq_zero_iff.mp (Nat.le_zero.mp (hfirst.2 _ _ hhead))
    obtain ⟨-, rest, hsplit⟩ := hfirst.1
    obtain ⟨c, hc⟩ := Nat.exists_eq_add_one.mpr (Nat.two_pow_pos order.toNat)
    rw [hc, pageRun_cons, pageRun_cons] at hsplit
    obtain rfl : p = r := by simpa using (List.cons.inj hsplit).1
    exact ⟨m', hrun⟩

/-- Some state has just the block at a multiple of its length. -/
theorem exists_block {order : ℕ} (horder : order + pageShift w < w) :
    ∃ m : Machine w, m.FreeList (pageRun (BitVec.ofNat w (2 ^ (order + pageShift w))) (2 ^ order)) ∧
      Block order (BitVec.ofNat w (2 ^ (order + pageShift w))) := by
  have hlt : 2 ^ (order + pageShift w) < 2 ^ w := Nat.pow_lt_pow_right (by norm_num) horder
  have hnat : (BitVec.ofNat w (2 ^ (order + pageShift w))).toNat = 2 ^ (order + pageShift w) := by
    rw [BitVec.toNat_ofNat, Nat.mod_eq_of_lt hlt]
  have hpos := Nat.two_pow_pos (order + pageShift w)
  generalize BitVec.ofNat w (2 ^ (order + pageShift w)) = p at hnat
  have hblock : Block order p := by
    refine ⟨?_, by rw [hnat, Nat.mod_self]⟩
    rintro rfl
    exact absurd hnat hpos.ne
  have haligned : PageAligned p := by
    rw [PageAligned, hnat, pow_add, Nat.mul_mod_left]
  have hend := hblock.end_le
  have hcount : pageCount p = 2 ^ order := by
    rw [pageCount, hnat, pow_add, Nat.mul_div_cancel _ (Nat.two_pow_pos _)]
  have hargs : FreeArgs p p := by
    refine ⟨pageAligned_iff.mpr haligned, pageAligned_iff.mpr haligned, Or.inr ?_⟩
    refine no_wrap_or (hnat ▸ hpos) ?_
    rw [← pow_add, ← hnat] at hend
    exact hend
  have hnull : (0 : BitVec w) ∉ pageRun p (pageCount p) := by
    rw [hcount, mem_pageRun]
    rintro ⟨j, hj, h0⟩
    have htop := hblock.toNat_pageAt hj
    rw [h0, hnat, show (0 : BitVec w).toNat = 0 from BitVec.toNat_zero] at htop
    omega
  have hempty : (⟨fun _ => 0, 0, false⟩ : Machine w).FreeList [] := chain_nil.mpr rfl
  obtain ⟨m, -, hlist, -⟩ := freePages_spec hempty hargs hblock.1 hnull (by simp)
  rw [hcount, List.append_nil] at hlist
  exact ⟨m, hlist, hblock⟩

end Blocks

/-! ## The blocks of `memalign` -/

section Memalign

variable [PageGeom w] [WordGeom w] {alignment size : BitVec w} (build : FlsBuild)

/-- Every block that the backend returns to `memalign` is aligned to what `memalign` asks for
(`memalign_eq`). -/
def BlocksAligned (alignment size : BitVec w) : Prop :=
  ∀ (m m' : Machine w) (l : List (BitVec w)) (p : BitVec w), m.FreeList l →
    build.pageMemalign (blockAlignment pageSize alignment) (requestSize pageSize alignment size) m
      = some (p, m') → p ≠ 0 →
    (blockAlignment pageSize alignment).toNat ∣ p.toNat

/-- The alignment is at most a page, or it is a power of two and less than twice the size that
`memalign` asks for, or this size is zero or more than half of the address space, of which
there is no block. -/
def AlignsAsAsked (alignment size : BitVec w) : Prop :=
  alignment.toNat ≤ 2 ^ pageShift w ∨ heapPages alignment size = 0 ∨
    2 ^ (w - 1) < heapPages alignment size * 2 ^ pageShift w ∨
      alignment.toNat.isPowerOfTwo ∧
        alignment.toNat < 2 * (heapPages alignment size * 2 ^ pageShift w)

theorem toNat_blockAlignment :
    (blockAlignment pageSize alignment).toNat = max alignment.toNat (2 ^ pageShift w) := by
  have hword := word_lt (w := w)
  have hpos := word_pos (w := w)
  have hpage : (pageSize : BitVec w).toNat = 2 ^ pageShift w := toNat_pageSize
  unfold blockAlignment requestAlignment
  by_cases hsmall : alignment ≤ wordSize w
  · have hle := BitVec.le_def.mp hsmall
    rw [toNat_wordSize] at hle
    rw [if_pos hsmall, if_neg, hpage]
    · omega
    · rw [BitVec.lt_def, toNat_wordSize, hpage]
      omega
  · rw [if_neg hsmall]
    by_cases hlarge : pageSize < alignment
    · have hlt := BitVec.lt_def.mp hlarge
      rw [hpage] at hlt
      rw [if_pos hlarge]
      omega
    · have hle := BitVec.le_def.mp (BitVec.not_lt.mp hlarge)
      rw [hpage] at hle
      rw [if_neg hlarge, hpage]
      omega

theorem toNat_pageOrder_request (hw : w = 32 ∨ w = 64) (hn : 0 < heapPages alignment size) :
    (pageOrder build (requestSize pageSize alignment size)).toNat =
      heapOrder (heapPages alignment size) := by
  have hle : 1 ≤ (requestSize pageSize alignment size).toNat := by
    rw [toNat_requestSize]
    exact Nat.mul_pos hn (Nat.two_pow_pos _)
  have hpages : sizePages (requestSize pageSize alignment size) = heapPages alignment size :=
    (toNat_pages requestSize_fits).symm.trans toNat_requestPages
  rw [toNat_pageOrder build hw hle requestSize_fits, hpages]

/-- The length of a block divides its address. -/
theorem Block.dvd {order : ℕ} {p : BitVec w} (h : Block order p) :
    2 ^ (order + pageShift w) ∣ p.toNat :=
  Nat.dvd_of_mod_eq_zero h.2

/-- A block takes at most half of the address space, as it is not at `0`. -/
theorem Block.le_half {order : ℕ} {p : BitVec w} (h : Block order p) :
    2 ^ order * 2 ^ pageShift w ≤ 2 ^ (w - 1) := by
  have hpos : 0 < p.toNat := Nat.pos_of_ne_zero fun hz => h.1 (BitVec.eq_of_toNat_eq hz)
  have hle := Nat.le_of_dvd hpos h.dvd
  have hlt : 2 ^ (order + pageShift w) < 2 ^ w := hle.trans_lt p.isLt
  rw [← pow_add]
  exact Nat.pow_le_pow_right two_pos (by
    have := (Nat.pow_lt_pow_iff_right (a := 2) (by norm_num)).mp hlt
    omega)

theorem blocksAligned_of_alignsAsAsked (hw : w = 32 ∨ w = 64)
    (h : AlignsAsAsked alignment size) : BlocksAligned build alignment size := by
  intro m m' l p hl hrun hp
  by_cases hn : heapPages alignment size = 0
  · have hzero : requestSize pageSize alignment size = 0 := by
      refine BitVec.eq_of_toNat_eq ?_
      rw [toNat_requestSize, hn, zero_mul]
      rfl
    rw [FlsBuild.pageMemalign, if_pos hzero] at hrun
    cases hrun
    exact absurd rfl hp
  have horder := toNat_pageOrder_request build hw (Nat.pos_of_ne_zero hn)
  obtain ⟨hblock, -⟩ := build.pageMemalign_block _ hl hrun hp
  rw [horder] at hblock
  have hlength := Nat.mul_le_mul_right (2 ^ pageShift w)
    (le_two_pow_heapOrder (heapPages alignment size))
  have hhalf := hblock.le_half
  refine dvd_trans ?_ hblock.dvd
  rw [toNat_blockAlignment]
  rcases Nat.le_total alignment.toNat (2 ^ pageShift w) with hle | hle
  · rw [max_eq_right hle]
    exact pow_dvd_pow 2 (Nat.le_add_left _ _)
  · rw [max_eq_left hle]
    rcases h with hpage | hzero | hhuge | ⟨⟨i, hi⟩, hlt⟩
    · rw [Nat.le_antisymm hpage hle]
      exact pow_dvd_pow 2 (Nat.le_add_left _ _)
    · exact absurd hzero hn
    · omega
    · rw [hi]
      refine pow_dvd_pow 2 (Nat.lt_succ_iff.mp ?_)
      refine (Nat.pow_lt_pow_iff_right (a := 2) (by norm_num)).mp ?_
      rw [← hi, pow_succ, pow_add]
      omega

/-- Otherwise some block is not : the one at the address of its own length. -/
theorem alignsAsAsked_of_blocksAligned (hw : w = 32 ∨ w = 64)
    (h : BlocksAligned build alignment size) : AlignsAsAsked alignment size := by
  by_contra hcon
  simp only [AlignsAsAsked, not_or, not_le, not_lt] at hcon
  obtain ⟨hlarge, hn, hhalf, hpow⟩ := hcon
  have hpos := Nat.pos_of_ne_zero hn
  have horder := toNat_pageOrder_request build hw hpos
  have hw0 : 0 < w := by omega
  have hlt : heapOrder (heapPages alignment size) + pageShift w < w := by
    have hlength := Nat.mul_lt_mul_of_pos_right (two_pow_heapOrder_lt hpos)
      (Nat.two_pow_pos (pageShift w))
    refine (Nat.pow_lt_pow_iff_right (a := 2) (by norm_num)).mp ?_
    have hdouble : 2 ^ w = 2 * 2 ^ (w - 1) := by
      rw [← pow_succ', Nat.sub_add_cancel hw0]
    rw [pow_add, hdouble]
    rw [mul_assoc] at hlength
    omega
  obtain ⟨m, hl, hblock⟩ := exists_block hlt
  rw [← horder] at hl hblock
  obtain ⟨m', hrun⟩ := allocPages_block hl hblock
  have hsize : requestSize pageSize alignment size ≠ 0 := by
    intro h0
    have hnat : (requestSize pageSize alignment size).toNat =
        heapPages alignment size * 2 ^ pageShift w := toNat_requestSize
    rw [h0] at hnat
    exact absurd hnat (Nat.mul_pos hpos (Nat.two_pow_pos _)).ne
  have hdvd := h m m' _ _ hl ((if_neg hsize).trans hrun) hblock.1
  rw [toNat_blockAlignment, max_eq_left hlarge.le, BitVec.toNat_ofNat, horder,
    Nat.mod_eq_of_lt (Nat.pow_lt_pow_right (by norm_num) hlt)] at hdvd
  obtain ⟨i, -, hi⟩ := (Nat.dvd_prime_pow Nat.prime_two).mp hdvd
  refine hpow ⟨⟨i, hi⟩, (Nat.le_of_dvd (Nat.two_pow_pos _) hdvd).trans_lt ?_⟩
  rw [pow_add, ← mul_assoc]
  exact Nat.mul_lt_mul_of_pos_right (two_pow_heapOrder_lt hpos) (Nat.two_pow_pos _)

/-- For both builds of `fls` : the order is the least with enough pages, a block is at least as
long as asked, and the blocks for a call of `memalign` are aligned as it asks exactly if
`AlignsAsAsked` holds. -/
theorem pageMemalign_spec_iff (hw : w = 32 ∨ w = 64) :
    (∀ size : BitVec w, 1 ≤ size.toNat → size.toNat + (2 ^ pageShift w - 1) < 2 ^ w →
      IsLeast {k | size.toNat ≤ 2 ^ k * 2 ^ pageShift w} (pageOrder build size).toNat ∧
      ∀ (alignment : BitVec w) (m m' : Machine w) (l : List (BitVec w)) (p : BitVec w),
        m.FreeList l → build.pageMemalign alignment size m = some (p, m') → p ≠ 0 →
          ∃ n pre rest, l = pre ++ pageRun p n ++ rest ∧ m'.FreeList (pre ++ rest) ∧
            size.toNat ≤ n * 2 ^ pageShift w ∧ p.toNat + n * 2 ^ pageShift w ≤ 2 ^ w) ∧
    ∀ alignment size : BitVec w,
      BlocksAligned build alignment size ↔ AlignsAsAsked alignment size := by
  refine ⟨fun size hsize hfits => ?_, fun alignment size =>
    ⟨alignsAsAsked_of_blocksAligned build hw, blocksAligned_of_alignsAsAsked build hw⟩⟩
  have hleast := pageOrder_isLeast build hw hsize hfits
  refine ⟨hleast, fun alignment m m' l p hl hrun hp => ?_⟩
  obtain ⟨hblock, pre, rest, hsplit, hlist⟩ := build.pageMemalign_block alignment hl hrun hp
  exact ⟨_, pre, rest, hsplit, hlist, hleast.1, hblock.end_le⟩

end Memalign

/-- Of 5000 bytes, and of one byte at a multiple of `0x2000`. -/
theorem pageMemalign_spec_iff_sample :
    IsLeast {k | 5000 ≤ 2 ^ k * 2 ^ 12} (pageOrder .search (5000 : BitVec 64)).toNat ∧
      BlocksAligned .search (0x2000 : BitVec 64) 1 := by
  obtain ⟨horder, haligned⟩ := pageMemalign_spec_iff (w := 64) .search (Or.inr rfl)
  refine ⟨(horder 5000 (by decide) (by decide)).1, (haligned 0x2000 1).mpr ?_⟩
  exact Or.inr (Or.inr (Or.inr ⟨⟨13, rfl⟩, by decide⟩))

/-- `size + alignment - 1` comes round to `0` : one page is asked for at a multiple of `0x2000`, and
the page at `0x5000` is returned. -/
theorem memalign_wraps : ∃ m m' : Machine 64, m.FreeList [0x5000] ∧
    FlsBuild.builtin.pageMemalign (blockAlignment pageSize 0x2000)
        (requestSize pageSize 0x2000 (-0x1fff)) m = some (0x5000, m') ∧
      ¬ (blockAlignment pageSize (0x2000 : BitVec 64)).toNat ∣ (0x5000 : BitVec 64).toNat := by
  have horder : pageOrder .builtin (requestSize pageSize (0x2000 : BitVec 64) (-0x1fff)) = 0 := by
    refine BitVec.eq_of_toNat_eq ?_
    rw [toNat_pageOrder_request .builtin (Or.inr rfl) (by decide)]
    decide
  have hsize : requestSize pageSize (0x2000 : BitVec 64) (-0x1fff) ≠ 0 := by decide
  have hl : (⟨fun _ => 0, 0x5000, false⟩ : Machine 64).FreeList [0x5000] :=
    chain_cons.mpr ⟨rfl, by decide, chain_nil.mpr rfl⟩
  obtain ⟨m', hrun⟩ := @allocPages_block 64 _ _ _ 0x5000 0 hl ⟨by decide, by decide⟩
  refine ⟨_, m', hl, ?_, ?_⟩
  · rw [FlsBuild.pageMemalign, if_neg hsize, horder, hrun]
  · rw [toNat_blockAlignment]
    decide

end AcrnUt
