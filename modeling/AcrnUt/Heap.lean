import AcrnUt.PagePool

/-!
# The heap

`lib/alloc.c`, over a backend `AllocOps`, and the page backend of `lib/alloc_page.c`. In
front of each block, `memalign` writes how far the block starts before it and the size it
asked the backend for; `free` reads them back. `memalign` lists these two stores in its
result (`Allocation.stores`); what a backend does to its own state is in the state. `none`
stands for a failed assertion.

On the page backend `memalign` asks for `heapPages` pages, but `page_memalign` takes a
power of two of them. `free` gives back what `memalign` asked for, so a block comes back
whole exactly if `heapPages` is a power of two (`pageAllocOps_roundTrip_iff`).
-/

set_option linter.unusedSectionVars false

namespace AcrnUt

variable {w : ℕ}

/-! ## The source : `alloc.c` -/

/-- `sizeof(uintptr_t)`. -/
def wordSize (w : ℕ) : BitVec w :=
  BitVec.ofNat w (w / 8)

/-- `METADATA_EXTRA`. -/
def metadataExtra (w : ℕ) : BitVec w :=
  2 * wordSize w

/-- `struct alloc_ops`, for a backend with states `σ`. -/
structure AllocOps (w : ℕ) (σ : Type*) where
  memalign : BitVec w → BitVec w → σ → Option (BitVec w × σ)
  free : Option (BitVec w → BitVec w → σ → Option σ)
  alignMin : σ → BitVec w

/-- A store that `alloc.c` makes : a word, or a `memset` to zero. -/
inductive Store (w : ℕ)
  | word (a v : BitVec w)
  | zero (a size : BitVec w)

/-- What an allocation returns : the pointer, the stores of `alloc.c`, and the state of the
backend. -/
structure Allocation (w : ℕ) (σ : Type*) where
  ptr : BitVec w
  stores : List (Store w)
  state : σ

variable {σ : Type*}

/-- `block_begin`. -/
def blockBegin (cells : BitVec w → BitVec w) (mem : BitVec w) : BitVec w :=
  mem - cells (mem - metadataExtra w)

/-- `block_size`. -/
def blockSize (cells : BitVec w → BitVec w) (mem : BitVec w) : BitVec w :=
  cells (mem - wordSize w)

/-- `free`. -/
def free (ops : AllocOps w σ) (cells : BitVec w → BitVec w) (ptr : BitVec w) (s : σ) : Option σ :=
  match ops.free with
  | none => some s
  | some opsFree => opsFree (blockBegin cells ptr) (blockSize cells ptr) s

/-- `memalign`. -/
def memalign (ops : AllocOps w σ) (alignment size : BitVec w) (s : σ) :
    Option (Allocation w σ) :=
  let (alignment, size) :=
    if alignment ≤ wordSize w then (wordSize w, size) else (alignment, size + (alignment - 1))
  let blkalign := if ops.alignMin s < alignment then alignment else ops.alignMin s
  let size := align (size + metadataExtra w) (ops.alignMin s)
  (ops.memalign blkalign size s).map fun (p, s) =>
    let mem := align (p + metadataExtra w) alignment
    ⟨mem, [.word (mem - metadataExtra w) (mem - p), .word (mem - wordSize w) size], s⟩

/-- `malloc`. `sizeof(long)` is that of a pointer. -/
def malloc (ops : AllocOps w σ) (size : BitVec w) (s : σ) : Option (Allocation w σ) :=
  memalign ops (wordSize w) size s

/-- `calloc`. -/
def calloc (ops : AllocOps w σ) (nmemb size : BitVec w) (s : σ) : Option (Allocation w σ) :=
  (malloc ops (nmemb * size) s).map fun r =>
    if r.ptr ≠ 0 then { r with stores := r.stores ++ [.zero r.ptr (nmemb * size)] } else r

/-! ## The source : the page backend -/

variable [PageGeom w]

/-- `is_power_of_2`. -/
def isPowerOf2 (n : BitVec w) : Bool :=
  n ≠ 0 ∧ n &&& (n - 1) = 0

/-- `fls` : the highest bit set. -/
def fls (word : BitVec w) : BitVec w :=
  BitVec.ofNat w (Nat.log2 word.toNat)

/-- `page_memalign`. The alignment is not used. -/
def pageMemalign (_alignment size : BitVec w) (m : Machine w) : Option (BitVec w × Machine w) :=
  let n := align size pageSize >>> pageShift w
  if size = 0 then some (0, m)
  else
    let order := if isPowerOf2 n then fls n else fls n + 1
    allocPages order m

/-- `page_free`. -/
def pageFree (mem size : BitVec w) (m : Machine w) : Option (Machine w) :=
  freePages mem size m

/-- `page_alloc_ops`. -/
def pageAllocOps : AllocOps w (Machine w) where
  memalign := pageMemalign
  free := some pageFree
  alignMin _ := pageSize

/-! ## The size of a block -/

/-- The bytes that `memalign` asks for, before it rounds up. -/
def paddedSize (alignment size : BitVec w) : ℕ :=
  (if alignment ≤ wordSize w then size.toNat else size.toNat + (alignment.toNat - 1)) + 2 * (w / 8)

/-- The pages that `memalign` asks for, after it rounds up in words. -/
def heapPages (alignment size : BitVec w) : ℕ :=
  (paddedSize alignment size + (2 ^ pageShift w - 1)) % 2 ^ w / 2 ^ pageShift w

/-- A word of `2^wordShift` bytes, a few of which fit a page. -/
class WordGeom (w : ℕ) [PageGeom w] where
  wordShift : ℕ
  word_eq : w / 8 = 2 ^ wordShift
  wordShift_le : wordShift + 2 ≤ pageShift w

instance wordGeom64 : WordGeom 64 := ⟨3, rfl, by decide⟩

instance wordGeom32 : WordGeom 32 := ⟨2, rfl, by decide⟩

section Words

variable [WordGeom w]

theorem word_lt : 4 * (w / 8) ≤ 2 ^ pageShift w := by
  have h := Nat.pow_le_pow_right (n := 2) (by decide) (WordGeom.wordShift_le (w := w))
  rw [Nat.pow_add, ← WordGeom.word_eq, Nat.mul_comm] at h
  exact h

theorem word_pos : 0 < w / 8 := by
  rw [WordGeom.word_eq]
  exact Nat.two_pow_pos _

theorem pageSize_lt : 2 ^ pageShift w < 2 ^ w :=
  Nat.pow_lt_pow_right (by decide) pageShift_lt

theorem toNat_wordSize : (wordSize w).toNat = w / 8 := by
  have h₁ := word_lt (w := w)
  have h₂ := pageSize_lt (w := w)
  rw [wordSize, BitVec.toNat_ofNat, Nat.mod_eq_of_lt (by omega)]

theorem wordSize_eq : wordSize w = 1#w <<< WordGeom.wordShift w := by
  have h := WordGeom.wordShift_le (w := w)
  have h' := pageShift_lt (w := w)
  refine BitVec.eq_of_toNat_eq ?_
  rw [toNat_wordSize, toNat_one_shiftLeft (by omega), WordGeom.word_eq]

theorem toNat_metadataExtra : (metadataExtra w).toNat = 2 * (w / 8) := by
  have h₁ := word_lt (w := w)
  have h₂ := pageSize_lt (w := w)
  have h₃ : 0 < w / 8 := word_pos
  have htwo : (2 : BitVec w).toNat = 2 := by
    have : 2 < 2 ^ w := by omega
    exact (BitVec.toNat_ofNat ..).trans (Nat.mod_eq_of_lt this)
  rw [metadataExtra, BitVec.toNat_mul, htwo, toNat_wordSize, Nat.mod_eq_of_lt (by omega)]

end Words

section Request

variable [WordGeom w] {alignment size : BitVec w} {m m' : Machine w} {p : BitVec w}

/-- The alignment that `memalign` gives its result. -/
def requestAlignment (alignment : BitVec w) : BitVec w :=
  if alignment ≤ wordSize w then wordSize w else alignment

/-- The alignment that `memalign` asks the backend for. -/
def blockAlignment (alignMin alignment : BitVec w) : BitVec w :=
  if alignMin < requestAlignment alignment then requestAlignment alignment else alignMin

/-- The size that `memalign` asks the backend for. -/
def requestSize (alignMin alignment size : BitVec w) : BitVec w :=
  align ((if alignment ≤ wordSize w then size else size + (alignment - 1)) + metadataExtra w)
    alignMin

theorem memalign_eq (ops : AllocOps w σ) (s : σ) : memalign ops alignment size s =
    (ops.memalign (blockAlignment (ops.alignMin s) alignment)
        (requestSize (ops.alignMin s) alignment size) s).map fun (p, s') =>
      ⟨align (p + metadataExtra w) (requestAlignment alignment),
        [.word (align (p + metadataExtra w) (requestAlignment alignment) - metadataExtra w)
          (align (p + metadataExtra w) (requestAlignment alignment) - p),
          .word (align (p + metadataExtra w) (requestAlignment alignment) - wordSize w)
            (requestSize (ops.alignMin s) alignment size)], s'⟩ := by
  unfold memalign requestSize blockAlignment requestAlignment
  by_cases h : alignment ≤ wordSize w
  · simp only [if_pos h]
  · simp only [if_neg h]

theorem toNat_sub_one {x : BitVec w} (h : 0 < x.toNat) : (x - 1).toNat = x.toNat - 1 := by
  have hone : (1 : BitVec w).toNat = 1 :=
    BitVec.toNat_one (Nat.zero_lt_of_lt (pageShift_lt (w := w)))
  rw [BitVec.toNat_sub_of_le (BitVec.le_def.mpr (by rw [hone]; exact h)), hone]

/-- The bytes asked for are the padded size, rounded up. -/
theorem toNat_requestSize_mod {j : ℕ} (hj : j < w) :
    (requestSize (1#w <<< j) alignment size).toNat =
      (paddedSize alignment size + (2 ^ j - 1)) % 2 ^ w / 2 ^ j * 2 ^ j := by
  have hsum : ((if alignment ≤ wordSize w then size else size + (alignment - 1)) +
      metadataExtra w + (1#w <<< j - 1)).toNat =
        (paddedSize alignment size + (2 ^ j - 1)) % 2 ^ w := by
    rw [BitVec.toNat_add, BitVec.toNat_add, toNat_metadataExtra,
      toNat_one_shiftLeft_sub_one hj, paddedSize]
    split_ifs with h
    · rw [Nat.mod_add_mod]
    · have hlt : 0 < alignment.toNat := lt_of_le_of_lt (Nat.zero_le _) (BitVec.not_le.mp h)
      rw [BitVec.toNat_add, toNat_sub_one hlt, Nat.mod_add_mod, Nat.add_assoc, Nat.mod_add_mod,
        ← Nat.add_assoc]
  rw [requestSize, align, toNat_and_not_mask _ hj, hsum]

theorem toNat_requestSize :
    (requestSize pageSize alignment size).toNat = heapPages alignment size * 2 ^ pageShift w :=
  toNat_requestSize_mod pageShift_lt

theorem heapPages_pos (h : requestSize pageSize alignment size ≠ 0) :
    0 < heapPages alignment size := by
  refine Nat.pos_of_ne_zero fun hz => h (BitVec.eq_of_toNat_eq ?_)
  rw [toNat_requestSize, hz, Nat.zero_mul]
  rfl

theorem isPowerOf2_iff {n : BitVec w} : isPowerOf2 n = true ↔ n.toNat.isPowerOfTwo := by
  rw [isPowerOf2, decide_eq_true_iff, ← Nat.ne_zero_and_sub_one_eq_zero_iff_isPowerOfTwo]
  have hzero : n ≠ 0 ↔ n.toNat ≠ 0 := by
    rw [Ne, ← BitVec.toNat_inj]
    rfl
  rw [hzero]
  refine and_congr_right fun h => ?_
  rw [← BitVec.toNat_inj, BitVec.toNat_and, toNat_sub_one (Nat.pos_of_ne_zero h)]
  rfl

/-- The order that `page_memalign` passes on. -/
def heapOrder (n : ℕ) : ℕ :=
  if n.isPowerOfTwo then Nat.log2 n else Nat.log2 n + 1

theorem two_pow_log2 {n : ℕ} (h : n.isPowerOfTwo) : 2 ^ Nat.log2 n = n := by
  obtain ⟨k, rfl⟩ := h
  rw [Nat.log2_two_pow]

theorem le_two_pow_heapOrder (n : ℕ) : n ≤ 2 ^ heapOrder n := by
  unfold heapOrder
  split_ifs with h
  · exact (two_pow_log2 h).ge
  · exact Nat.lt_log2_self.le

/-- The block has as many pages as were asked for exactly if that is a power of two. -/
theorem two_pow_heapOrder_eq_iff {n : ℕ} : 2 ^ heapOrder n = n ↔ n.isPowerOfTwo := by
  constructor
  · exact fun h => ⟨_, h.symm⟩
  · intro h
    rw [heapOrder, if_pos h, two_pow_log2 h]

/-- The size that `memalign` asks for is a whole number of pages, so rounding it up to pages does
not come round. -/
theorem requestSize_fits :
    (requestSize pageSize alignment size).toNat + (2 ^ pageShift w - 1) < 2 ^ w := by
  have hpos := Nat.two_pow_pos (pageShift w)
  have haligned : PageAligned (requestSize pageSize alignment size) := by
    rw [PageAligned, toNat_requestSize, Nat.mul_mod_left]
  have hend := haligned.add_le
  omega

/-- And it is these pages. -/
theorem toNat_requestPages :
    (align (requestSize pageSize alignment size) pageSize >>> pageShift w).toNat =
      heapPages alignment size := by
  have hpos := Nat.two_pow_pos (pageShift w)
  have halign : (align (requestSize pageSize alignment size) pageSize).toNat = _ :=
    toNat_align pageShift_lt requestSize_fits
  rw [BitVec.toNat_ushiftRight, Nat.shiftRight_eq_div_pow, halign, toNat_requestSize,
    Nat.mul_div_cancel _ hpos, Nat.mul_comm,
    Nat.mul_add_div hpos, Nat.div_eq_of_lt (Nat.sub_lt hpos one_pos), Nat.add_zero]

theorem pageMemalign_request (hne : requestSize pageSize alignment size ≠ 0) (a : BitVec w) :
    ∃ order : BitVec w, order.toNat = heapOrder (heapPages alignment size) ∧
      pageMemalign a (requestSize pageSize alignment size) m = allocPages order m := by
  have hpos := Nat.two_pow_pos (pageShift w)
  have hN := heapPages_pos hne
  have hsize : (requestSize pageSize alignment size).toNat =
      heapPages alignment size * 2 ^ pageShift w := toNat_requestSize
  have hlt := (requestSize pageSize alignment size).isLt
  have hn : (align (requestSize pageSize alignment size) pageSize >>> pageShift w).toNat =
      heapPages alignment size := toNat_requestPages
  have hlog : Nat.log2 (heapPages alignment size) + 1 < 2 ^ w := by
    have h₁ := Nat.log2_lt hN.ne' |>.mpr
      (lt_of_le_of_lt (Nat.le_mul_of_pos_right _ hpos) (hsize ▸ hlt))
    exact lt_of_le_of_lt h₁ Nat.lt_two_pow_self
  have hfls : (fls (align (requestSize pageSize alignment size) pageSize >>> pageShift w)).toNat =
      Nat.log2 (heapPages alignment size) := by
    rw [fls, hn, BitVec.toNat_ofNat, Nat.mod_eq_of_lt (by omega)]
  have hiff := isPowerOf2_iff
    (n := align (requestSize pageSize alignment size) pageSize >>> pageShift w)
  rw [hn] at hiff
  refine ⟨_, ?_, if_neg hne⟩
  by_cases h : (heapPages alignment size).isPowerOfTwo
  · rw [heapOrder, if_pos h, if_pos (hiff.mpr h), hfls]
  · rw [heapOrder, if_neg h, if_neg fun hcon => h (hiff.mp hcon)]
    have hone : (1 : BitVec w).toNat = 1 :=
      BitVec.toNat_one (Nat.zero_lt_of_lt (pageShift_lt (w := w)))
    rw [BitVec.toNat_add, hfls, hone, Nat.mod_eq_of_lt hlog]

theorem requestAlignment_eq {k : ℕ} (hk : k < w) (halign : alignment = 1#w <<< k) :
    ∃ k' < w, requestAlignment alignment = 1#w <<< k' := by
  unfold requestAlignment
  split_ifs with h
  · have h₁ := WordGeom.wordShift_le (w := w)
    have h₂ := pageShift_lt (w := w)
    exact ⟨_, by omega, wordSize_eq⟩
  · exact ⟨k, hk, halign⟩

/-- A word before a page boundary is not at one. -/
theorem not_pageAligned_sub {x c : BitVec w} (hx : PageAligned x) (hc : 0 < c.toNat)
    (hlt : c.toNat < 2 ^ pageShift w) : ¬PageAligned (x - c) := by
  obtain ⟨e, he⟩ := Nat.dvd_of_mod_eq_zero hx
  obtain ⟨d, hd⟩ := pageSize_dvd (w := w)
  have hd0 : 0 < d := Nat.pos_of_ne_zero fun h =>
    (Nat.two_pow_pos w).ne' (by rw [hd, h, Nat.mul_zero])
  intro h
  rw [PageAligned, BitVec.toNat_sub, Nat.mod_mod_of_dvd _ pageSize_dvd, he,
    Nat.add_mul_mod_self_left] at h
  obtain ⟨d, rfl⟩ := Nat.exists_eq_succ_of_ne_zero hd0.ne'
  rw [hd, Nat.mul_succ, Nat.add_sub_assoc hlt.le, Nat.mul_add_mod, Nat.mod_eq_of_lt (by omega)] at h
  omega

/-- The metadata of a block misses the first word of every other page : either the pointer is
at a page boundary, or the metadata is in the block's first page. -/
theorem metadata_cell {k : ℕ} (hk : k < w) {c : BitVec w} (hp : PageAligned p)
    (hc : c = metadataExtra w ∨ c = wordSize w)
    (h : PageAligned (align (p + metadataExtra w) (1#w <<< k) - c)) :
    align (p + metadataExtra w) (1#w <<< k) - c = p := by
  have hw := word_lt (w := w)
  have hw0 : 0 < w / 8 := word_pos
  have hcw : 0 < c.toNat ∧ c.toNat ≤ 2 * (w / 8) := by
    rcases hc with rfl | rfl
    · rw [toNat_metadataExtra]
      omega
    · rw [toNat_wordSize]
      omega
  rcases Nat.lt_or_ge k (pageShift w) with hlt | hge
  · have hpage := hp.add_le
    have hhalf := Nat.pow_le_pow_right (n := 2) (by decide) (show k + 1 ≤ pageShift w from hlt)
    rw [Nat.pow_succ] at hhalf
    have hpos := Nat.two_pow_pos k
    have hx : (p + metadataExtra w).toNat = p.toNat + 2 * (w / 8) := by
      rw [BitVec.toNat_add, toNat_metadataExtra, Nat.mod_eq_of_lt (by omega)]
    have hmem := toNat_align (x := p + metadataExtra w) hk (by rw [hx]; omega)
    rw [hx] at hmem
    have hdm := Nat.div_add_mod' (p.toNat + 2 * (w / 8) + (2 ^ k - 1)) (2 ^ k)
    have hmod := Nat.mod_lt (p.toNat + 2 * (w / 8) + (2 ^ k - 1)) hpos
    have hsub : (align (p + metadataExtra w) (1#w <<< k) - c).toNat =
        (align (p + metadataExtra w) (1#w <<< k)).toNat - c.toNat :=
      BitVec.toNat_sub_of_le (BitVec.le_def.mpr (by omega))
    have hin : pageOf (align (p + metadataExtra w) (1#w <<< k) - c) = p := by
      have hmem := @pageOf_mem_pageRun w _ (align (p + metadataExtra w) (1#w <<< k) - c) p 1 hp
        (by omega) (by omega)
      obtain ⟨j, hj, heq⟩ := mem_pageRun.mp hmem
      rw [← heq, Nat.lt_one_iff.mp hj, pageAt_zero]
    exact (pageOf_eq_self_iff.mpr h).symm.trans hin
  · have haligned : PageAligned (align (p + metadataExtra w) (1#w <<< k)) := by
      rw [PageAligned, ← Nat.mod_mod_of_dvd _ (Nat.pow_dvd_pow 2 hge), align_mod _ hk, Nat.zero_mod]
    exact absurd h (not_pageAligned_sub haligned hcw.1 (by omega))

end Request

/-! ## The round trip -/

section RoundTrip

variable [WordGeom w]

/-- A store of `alloc.c` to memory. A `memset` that ends inside a word clears its low bytes, the
first ones of a little-endian build. -/
def Machine.apply (m : Machine w) : Store w → Machine w
  | .word a v => m.store a v
  | .zero a size =>
    let kept b := BitVec.allOnes w <<< (8 * (size - (b - a)).toNat)
    { m with mem := fun b => if b - a < size then m.mem b &&& kept b else m.mem b }

/-- The machine after an allocation. -/
def Allocation.machine (r : Allocation w (Machine w)) : Machine w :=
  r.stores.foldl Machine.apply r.state

/-- The page backend has a block for the request. -/
def Obtains (alignment size : BitVec w) (m : Machine w) : Prop :=
  ∃ p m', pageMemalign alignment (requestSize pageSize alignment size) m = some (p, m') ∧ p ≠ 0

/-- After `memalign` and `free` of its result, the free list has the pages it had. -/
def RoundTrip (alignment size : BitVec w) (m : Machine w) : Prop :=
  ∃ r m', memalign pageAllocOps alignment size m = some r ∧
    free pageAllocOps r.machine.mem r.ptr r.machine = some m' ∧ m'.freeSet = m.freeSet

/-- The pages of a cut block are not among the rest of the list. -/
theorem notMem_of_cut {pre run rest : List (BitVec w)} (hnd : (pre ++ run ++ rest).Nodup)
    {q : BitVec w}
    (hq : q ∈ run) : q ∉ pre ++ rest := by
  rw [List.append_assoc] at hnd
  have hperm := (List.perm_append_comm_assoc pre run rest).nodup_iff.mp hnd
  exact fun hq' => (List.nodup_append.mp hperm).2.2 q hq q hq' rfl

theorem pageRun_subset {p q : BitVec w} {n n' : ℕ} (hn : n ≤ n') (hq : q ∈ pageRun p n) :
    q ∈ pageRun p n' := by
  obtain ⟨j, hj, hjq⟩ := mem_pageRun.mp hq
  exact mem_pageRun.mpr ⟨j, hj.trans_le hn, hjq⟩

theorem no_wrap_or {p size : BitVec w} (hsize : 0 < size.toNat)
    (hend : p.toNat + size.toNat ≤ 2 ^ w) : p = -size ∨ p < p + size := by
  rcases hend.lt_or_eq with hlt | heq
  · refine Or.inr ?_
    rw [BitVec.lt_def, BitVec.toNat_add, Nat.mod_eq_of_lt hlt]
    omega
  · refine Or.inl (BitVec.eq_of_toNat_eq ?_)
    rw [BitVec.toNat_neg, Nat.mod_eq_of_lt (by omega)]
    omega

section Written

variable {m : Machine w} {l pre rest : List (BitVec w)} {p mem size : BitVec w} {n n' : ℕ}

/-- The machine with the metadata in front of `mem`. -/
def metadataWritten (m : Machine w) (p mem size : BitVec w) : Machine w :=
  (m.store (mem - metadataExtra w) (mem - p)).store (mem - wordSize w) size

/-- `free` reads the metadata back. -/
theorem free_metadataWritten (m : Machine w) (p mem size : BitVec w) :
    free pageAllocOps (metadataWritten m p mem size).mem mem (metadataWritten m p mem size) =
      freePages p size (metadataWritten m p mem size) := by
  have hne : mem - metadataExtra w ≠ mem - wordSize w := by
    intro h
    have hw : 0 < w / 8 := word_pos
    have heq := congrArg BitVec.toNat ((BitVec.sub_right_inj mem).mp h)
    rw [toNat_metadataExtra, toNat_wordSize] at heq
    omega
  have hbegin : blockBegin (metadataWritten m p mem size).mem mem = p := by
    rw [blockBegin, metadataWritten, Machine.store_mem_of_ne _ hne, Machine.store_mem_self,
      BitVec.sub_eq_iff_eq_add, BitVec.add_comm, BitVec.sub_add_cancel]
  have hsize : blockSize (metadataWritten m p mem size).mem mem = size := by
    rw [blockSize, metadataWritten, Machine.store_mem_self]
  show pageFree _ _ _ = _
  rw [pageFree, hbegin, hsize]

/-- The metadata spares the rest of the list. -/
theorem freeList_metadataWritten (hnd : (pre ++ pageRun p n' ++ rest).Nodup)
    (haligned : ∀ q ∈ pre ++ rest, PageAligned q) (hn : 0 < n')
    (hcell : ∀ c, c = metadataExtra w ∨ c = wordSize w → PageAligned (mem - c) → mem - c = p)
    (hl : m.FreeList (pre ++ rest)) : (metadataWritten m p mem size).FreeList (pre ++ rest) := by
  have hout : ∀ c, c = metadataExtra w ∨ c = wordSize w → ∀ q ∈ pre ++ rest, q ≠ mem - c := by
    rintro c hc q hq rfl
    rw [hcell c hc (haligned _ hq)] at hq
    exact notMem_of_cut hnd (mem_pageRun_self p hn) hq
  refine hl.congr fun q hq => ?_
  rw [metadataWritten, Machine.store_mem_of_ne _ (hout _ (Or.inr rfl) q hq),
    Machine.store_mem_of_ne _ (hout _ (Or.inl rfl) q hq)]

/-- Freeing the first `n` pages of the block puts them in front of the rest. -/
theorem freePages_part (hl : m.FreeList (pre ++ pageRun p n' ++ rest)) {m₂ : Machine w}
    (hl₂ : m₂.FreeList (pre ++ rest)) (hp : PageAligned p)
    (hend : p.toNat + n * 2 ^ pageShift w ≤ 2 ^ w) (hn0 : 0 < n) (hn : n ≤ n')
    (hsize : size.toNat = n * 2 ^ pageShift w) :
    ∃ m', freePages p size m₂ = some m' ∧ m'.FreeList (pageRun p n ++ (pre ++ rest)) := by
  have hpos := Nat.two_pow_pos (pageShift w)
  have hsize0 : 0 < size.toNat := hsize ▸ Nat.mul_pos hn0 hpos
  have hcount : pageCount size = n := by
    rw [pageCount, hsize, Nat.mul_div_cancel _ hpos]
  have hmul : PageAligned size := by
    rw [PageAligned, hsize, Nat.mul_mod_left]
  have hargs : FreeArgs p size := ⟨pageAligned_iff.mpr hp, pageAligned_iff.mpr hmul,
    Or.inr (no_wrap_or hsize0 (by rwa [hsize]))⟩
  have hne : size ≠ 0 := by
    rintro rfl
    exact absurd hsize0 (lt_irrefl 0)
  have h0 : (0 : BitVec w) ∉ pageRun p n := by
    intro h0
    refine hl.2 (List.mem_append_left _ (List.mem_append_right _ (pageRun_subset hn h0)))
  obtain ⟨m', hfree, hlist, -, -⟩ := freePages_spec hl₂ hargs hne (hcount ▸ h0) fun q hq =>
    notMem_of_cut (Chain.nodup hl) (pageRun_subset hn (hcount ▸ hq))
  exact ⟨m', hfree, hcount ▸ hlist⟩

end Written

/-- The calls return, and leave the first `heapPages` pages of the block in front of what the
block was cut out of. -/
theorem memalign_free_spec {m : Machine w} {l : List (BitVec w)} {alignment size : BitVec w} {k : ℕ}
    (hl : m.FreeList l) (haligned : ∀ p ∈ l, PageAligned p) (hk : k < w)
    (halign : alignment = 1#w <<< k) (hblock : Obtains alignment size m) :
    ∃ p pre rest r m', l = pre ++ pageRun p (2 ^ heapOrder (heapPages alignment size)) ++ rest ∧
      memalign pageAllocOps alignment size m = some r ∧
      free pageAllocOps r.machine.mem r.ptr r.machine = some m' ∧
      m'.FreeList (pageRun p (heapPages alignment size) ++ (pre ++ rest)) := by
  obtain ⟨p, m₁, hobt, hp0⟩ := hblock
  have hne : requestSize pageSize alignment size ≠ 0 := by
    intro h
    rw [h] at hobt
    simp only [pageMemalign, if_true, Option.some.injEq, Prod.mk.injEq] at hobt
    exact hp0 hobt.1.symm
  obtain ⟨order, horder, hreq⟩ := pageMemalign_request (m := m) hne alignment
  rw [hreq] at hobt
  have hlt : order.toNat < w := by
    by_contra hw
    simp [allocPages, not_lt.mp hw] at hobt
  obtain ⟨p', m₁', hobt', hcut⟩ := allocPages_spec hl hlt
  rw [hobt] at hobt'
  cases hobt'
  rcases hcut with ⟨h0, -⟩ | ⟨pre, rest, hblk, rfl, hlist, -, -⟩
  · exact absurd h0 hp0
  rw [horder] at *
  have hnd := Chain.nodup hl
  have hN := le_two_pow_heapOrder (heapPages alignment size)
  have hend : p.toNat + heapPages alignment size * 2 ^ pageShift w ≤ 2 ^ w :=
    le_trans (Nat.add_le_add_left (Nat.mul_le_mul_right _ hN) _) hblk.end_le
  have hpa : PageAligned p := haligned p (by simp [mem_pageRun_self p (Nat.two_pow_pos _)])
  obtain ⟨k', hk', hpow⟩ := requestAlignment_eq hk halign
  have hlist' := @freeList_metadataWritten w _ _ m₁ pre rest p
    (align (p + metadataExtra w) (requestAlignment alignment))
    (requestSize pageSize alignment size) _ hnd
    (fun q hq => haligned q (by simp at hq ⊢; tauto)) (Nat.two_pow_pos _)
    (fun c hc => by rw [hpow]; exact metadata_cell hk' hpa hc) hlist
  obtain ⟨m', hfree, hlist''⟩ := freePages_part hl hlist' hpa hend (heapPages_pos hne) hN
    toNat_requestSize
  have hmemalign : memalign pageAllocOps alignment size m =
      (pageMemalign (blockAlignment pageSize alignment)
        (requestSize pageSize alignment size) m).map _ :=
    memalign_eq pageAllocOps m
  have hblock : ∀ a, pageMemalign a (requestSize pageSize alignment size) m = some (p, m₁) :=
    fun _ =>
    hreq.trans hobt
  rw [hblock, Option.map_some] at hmemalign
  exact ⟨p, pre, rest, _, m', rfl, hmemalign, (free_metadataWritten m₁ p _ _).trans hfree, hlist''⟩

/-- A page behind the part that comes back is lost. -/
theorem notMem_part {pre rest : List (BitVec w)} {p : BitVec w} {n n' : ℕ}
    (hnd : (pre ++ pageRun p n' ++ rest).Nodup) (hlt : n < n') :
    pageAt p n ∉ pageRun p n ++ (pre ++ rest) := by
  have hmem : pageAt p n ∈ pageRun p n' := mem_pageRun.mpr ⟨n, hlt, rfl⟩
  have hrun : (pageRun p (n + 1)).Nodup :=
    (List.nodup_append.mp (List.nodup_append.mp hnd).1).2.1.sublist
      ((List.range_sublist.mpr hlt).map (pageAt p))
  rw [pageRun_succ] at hrun
  rw [List.mem_append, not_or]
  refine ⟨fun h => (List.nodup_append.mp hrun).2.2 _ h _ (List.mem_singleton_self _) rfl, ?_⟩
  exact notMem_of_cut hnd hmem

section Iff

variable {m : Machine w} {l : List (BitVec w)} {alignment size : BitVec w} {k : ℕ}

theorem not_roundTrip (hl : m.FreeList l) (haligned : ∀ p ∈ l, PageAligned p) (hk : k < w)
    (halign : alignment = 1#w <<< k) (hblock : Obtains alignment size m)
    (hn : ¬(heapPages alignment size).isPowerOfTwo) :
    ¬RoundTrip alignment size m := by
  obtain ⟨p, pre, rest, r, m', rfl, hr, hm', hlist⟩ :=
    memalign_free_spec hl haligned hk halign hblock
  rintro ⟨r', m'', hr', hm'', hset⟩
  rw [hr] at hr'
  cases hr'
  rw [hm'] at hm''
  cases hm''
  rw [hlist.freeSet_eq, hl.freeSet_eq] at hset
  have hlt : heapPages alignment size < 2 ^ heapOrder (heapPages alignment size) :=
    lt_of_le_of_ne (le_two_pow_heapOrder _) fun h => hn (two_pow_heapOrder_eq_iff.mp h.symm)
  have hmem : pageAt p (heapPages alignment size) ∈
      {q | q ∈ pre ++ pageRun p (2 ^ heapOrder (heapPages alignment size)) ++ rest} :=
    List.mem_append_left _ (List.mem_append_right _ (mem_pageRun.mpr ⟨_, hlt, rfl⟩))
  rw [← hset] at hmem
  exact notMem_part (Chain.nodup hl) hlt hmem

/-- In every state of the allocator, for every power-of-two alignment and every size,
a block that `memalign` obtains comes back whole exactly if the number of pages asked for
is a power of two. -/
theorem pageAllocOps_roundTrip_iff (hl : m.FreeList l) (haligned : ∀ p ∈ l, PageAligned p)
    (hk : k < w) (halign : alignment = 1#w <<< k) (hblock : Obtains alignment size m) :
    RoundTrip alignment size m ↔ (heapPages alignment size).isPowerOfTwo := by
  constructor
  · exact fun h => by_contra fun hn =>
      not_roundTrip hl haligned hk halign hblock hn h
  · intro hn
    obtain ⟨p, pre, rest, r, m', rfl, hr, hm', hlist⟩ :=
      memalign_free_spec hl haligned hk halign hblock
    refine ⟨r, m', hr, hm', ?_⟩
    rw [hlist.freeSet_eq, hl.freeSet_eq, two_pow_heapOrder_eq_iff.mpr hn]
    ext q
    simp only [List.append_assoc, List.mem_append, Set.mem_ofPred_eq]
    tauto

end Iff

/-- Four pages, donated to an empty allocator. -/
def fourPages : Pool 64 :=
  ⟨(freePages 0x4000 0x4000 ⟨fun _ => 0, 0, false⟩).get (by decide), ∅,
    ∅ ∪ {p | p ∈ pageRun (0x4000 : BitVec 64) (pageCount (0x4000 : BitVec 64))}⟩

theorem fourPages_list : fourPages.machine.FreeList [0x4000, 0x5000, 0x6000, 0x7000] := by
  have hnil : (⟨fun _ => 0, 0, false⟩ : Machine 64).FreeList [] := chain_nil.mpr rfl
  obtain ⟨m', hm', hl, -⟩ := @freePages_spec 64 _ _ [] 0x4000 0x4000 hnil
    ⟨by decide, by decide, by decide⟩ (by decide) (by decide) (by simp)
  have heq : fourPages.machine = m' := by simp only [fourPages, hm', Option.get_some]
  rw [heq]
  exact hl

theorem fourPages_aligned :
    ∀ p ∈ ([0x4000, 0x5000, 0x6000, 0x7000] : List (BitVec 64)), PageAligned p := by
  simp only [List.forall_mem_cons, PageAligned]
  exact ⟨rfl, rfl, rfl, rfl, by simp⟩

theorem fourPages_reachable : fourPages.Reachable := by
  refine @Pool.Reachable.step _ _ _ _ (.freePages 0x4000 0x4000) (.init (fun _ => 0) false) ?_ ?_
  · refine ⟨by decide, fun p hp => ⟨?_, ?_, fun h => h⟩⟩
    · rintro rfl
      exact absurd hp (by decide)
    · rintro ⟨l, hl, hpl⟩
      rw [Chain.unique hl (chain_nil.mpr rfl)] at hpl
      simp at hpl
  · rfl

theorem fourPages_obtains (size : BitVec 64) (hsize : (pageMemalign 8 (requestSize pageSize 8 size)
    fourPages.machine).map (·.1) = some 0x4000) : Obtains 8 size fourPages.machine := by
  obtain ⟨⟨p, m'⟩, hobt, hp⟩ := Option.map_eq_some_iff.mp hsize
  refine ⟨p, m', hobt, ?_⟩
  intro h
  rw [show p = 0x4000 from hp] at h
  exact absurd h (by decide)

/-- A block of `8193` bytes, and the metadata, take three pages : `alloc_pages` cuts out
four, and the fourth is lost. -/
theorem not_roundTrip_8193 :
    fourPages.Reachable ∧ Obtains 8 8193 fourPages.machine ∧
      ¬RoundTrip 8 8193 fourPages.machine := by
  have hobt : Obtains 8 8193 fourPages.machine := fourPages_obtains 8193 (by decide)
  refine ⟨fourPages_reachable, hobt, ?_⟩
  exact @not_roundTrip 64 _ _ _ _ 8 8193 3 fourPages_list fourPages_aligned (by decide)
    (by decide) hobt (by decide)

/-- A block of `5000` bytes takes two pages, and both come back. -/
theorem pageAllocOps_roundTrip_iff_5000 :
    RoundTrip 8 5000 fourPages.machine ∧ (heapPages (8 : BitVec 64) 5000).isPowerOfTwo := by
  have hpow : (heapPages (8 : BitVec 64) 5000).isPowerOfTwo := by decide
  exact ⟨(@pageAllocOps_roundTrip_iff 64 _ _ _ _ 8 5000 3 fourPages_list fourPages_aligned
    (by decide) (by decide) (fourPages_obtains 5000 (by decide))).mpr hpow, hpow⟩

end RoundTrip

end AcrnUt
