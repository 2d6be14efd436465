import AcrnUt.Bytes
import AcrnUt.Heap
import AcrnUt.PhysRequest

/-!
# The layout of a heap block

`memalign` of `lib/alloc.c` asks its backend for more than the payload : two words, and what the
alignment may skip (`paddedSize`). As long as none of its sums wraps (`NoWrap`), the pointer is a
multiple of the alignment, the two words and the payload have their places in the block, one
behind the other, and `free` finds the block again (`memalign_layout`). Here memory consists of
bytes, so that a program may write to the payload in any way.

If a sum wraps, the block is too small for every request but the empty one
(`allocation_followed_iff`) : nothing in `calloc`, `malloc` or `memalign` looks at the size.
-/

set_option linter.unusedSectionVars false

namespace AcrnUt

variable {w : ℕ} [PageGeom w] {σ : Type*}

/-! ## Sums that do not wrap -/

/-- No sum of `memalign` wraps, the one in rounding up to `alignMin` included. -/
def NoWrap (alignMin alignment size : BitVec w) : Prop :=
  paddedSize alignment size + (alignMin.toNat - 1) < 2 ^ w

instance (alignMin alignment size : BitVec w) : Decidable (NoWrap alignMin alignment size) :=
  inferInstanceAs (Decidable (_ < _))

/-- Rounding up, in multiples of the alignment. -/
theorem toNat_align_mul {k c : ℕ} (hk : k < w) (hc : 2 ^ w = 2 ^ k * c) (x : BitVec w) :
    (align x (1#w <<< k)).toNat = 2 ^ k * ((x.toNat + (2 ^ k - 1)) / 2 ^ k % c) := by
  rw [toNat_align_eq x hk, hc, Nat.mod_mul_right_div_self, Nat.mul_comm]

/-- Adding a multiple of the alignment commutes with rounding up. -/
theorem align_add {p : BitVec w} {k : ℕ} (hk : k < w) (hp : p.toNat % 2 ^ k = 0) (x : BitVec w) :
    align (p + x) (1#w <<< k) = p + align x (1#w <<< k) := by
  obtain ⟨c, hc⟩ := Nat.pow_dvd_pow 2 hk.le
  obtain ⟨d, hd⟩ := Nat.dvd_of_mod_eq_zero hp
  refine BitVec.eq_of_toNat_eq ?_
  have hdiv : (2 ^ k * d + x.toNat + (2 ^ k - 1)) / 2 ^ k =
      d + (x.toNat + (2 ^ k - 1)) / 2 ^ k := by
    rw [Nat.add_assoc, Nat.mul_add_div (Nat.two_pow_pos k)]
  have hwrap : (align (p + x) (1#w <<< k)).toNat =
      2 ^ k * ((2 ^ k * d + x.toNat + (2 ^ k - 1)) / 2 ^ k % c) := by
    rw [toNat_align_mul hk hc, BitVec.toNat_add, ← Nat.mod_mul_right_div_self, ← hc,
      Nat.mod_add_mod, hd, hc, Nat.mod_mul_right_div_self]
  rw [hwrap, hdiv, BitVec.toNat_add, toNat_align_mul hk hc, hd, hc, ← Nat.mul_add,
    Nat.mul_mod_mul_left, Nat.add_mod_mod]

/-- Rounding up with any mask adds at most the mask. -/
theorem align_bounds {x a : BitVec w} (h : x.toNat + (a - 1).toNat < 2 ^ w) :
    x.toNat ≤ (align x a).toNat ∧ (align x a).toNat ≤ x.toNat + (a - 1).toNat := by
  have hsum : (x + (a - 1)).toNat = x.toNat + (a - 1).toNat := by
    rw [BitVec.toNat_add, Nat.mod_eq_of_lt h]
  have hdisj : (x + (a - 1)) &&& ~~~(a - 1) &&& ((x + (a - 1)) &&& (a - 1)) = 0 := by
    ext i hi
    simp
    tauto
  have hor : (x + (a - 1)) &&& ~~~(a - 1) ||| ((x + (a - 1)) &&& (a - 1)) = x + (a - 1) := by
    rw [← BitVec.and_or_distrib_left, BitVec.or_comm, BitVec.or_not_self, BitVec.and_allOnes]
  have hsplit := BitVec.add_eq_or_of_and_eq_zero _ _ hdisj
  rw [hor] at hsplit
  have hlow : ((x + (a - 1)) &&& (a - 1)).toNat ≤ (a - 1).toNat := by
    rw [BitVec.toNat_and]
    exact Nat.and_le_right
  have hle : (x + (a - 1)) &&& (a - 1) ≤ x + (a - 1) := by
    rw [BitVec.le_def, BitVec.toNat_and]
    exact Nat.and_le_left
  have hround : align x a = x + (a - 1) - ((x + (a - 1)) &&& (a - 1)) :=
    eq_sub_of_add_eq hsplit
  rw [hround, BitVec.toNat_sub_of_le hle, hsum]
  omega

section Sizes

variable [WordGeom w] {alignMin alignment size p : BitVec w} {j k : ℕ}

/-- The two words and an alignment do not wrap. -/
theorem metadata_add_le (hk : k < w) : 4 * (w / 8) + 2 ^ k ≤ 2 ^ w := by
  have hword := word_lt (w := w)
  have hpage : 2 ^ pageShift w * 2 ≤ 2 ^ w := by
    rw [← Nat.pow_succ]
    exact Nat.pow_le_pow_right (by norm_num) pageShift_lt
  have halign : 2 ^ k * 2 ≤ 2 ^ w := by
    rw [← Nat.pow_succ]
    exact Nat.pow_le_pow_right (by norm_num) hk
  omega

/-- The bytes from the start of a block to its payload. -/
theorem toNat_align_metadata (hk : k < w) :
    (align (metadataExtra w) (1#w <<< k)).toNat = alignUp (2 ^ k) (2 * (w / 8)) := by
  have hlt := metadata_add_le (w := w) hk
  have hword := word_pos (w := w)
  have hpos := Nat.two_pow_pos k
  rw [toNat_align hk (by rw [toNat_metadataExtra]; omega), toNat_metadataExtra]
  rfl

/-- Without a wrap, the bytes asked for are at least the padded size. -/
theorem paddedSize_le (hj : j < w) (h : NoWrap (1#w <<< j) alignment size) :
    paddedSize alignment size ≤ (requestSize (1#w <<< j) alignment size).toNat := by
  unfold NoWrap at h
  rw [toNat_one_shiftLeft hj] at h
  rw [toNat_requestSize_mod hj, Nat.mod_eq_of_lt h]
  exact le_alignUp (Nat.two_pow_pos j) _

/-- The alignment of the result divides the one that the backend is asked for. -/
theorem requestAlignment_dvd (hk : requestAlignment alignment = 1#w <<< k) (hkw : k < w)
    (hj : j < w) :
    2 ^ k ∣ (blockAlignment (1#w <<< j) alignment).toNat := by
  unfold blockAlignment
  rw [hk]
  split_ifs with h
  · rw [toNat_one_shiftLeft hkw]
  · rw [BitVec.lt_def, toNat_one_shiftLeft hj, toNat_one_shiftLeft hkw, not_lt] at h
    rw [toNat_one_shiftLeft hj]
    exact Nat.pow_dvd_pow 2 ((Nat.pow_le_pow_iff_right (by norm_num)).mp h)

/-- The alignment asked for divides the one of the result. -/
theorem dvd_requestAlignment (hk : k < w) (halign : alignment = 1#w <<< k) :
    alignment.toNat ∣ (requestAlignment alignment).toNat := by
  unfold requestAlignment
  split_ifs with h
  · rw [BitVec.le_def, toNat_wordSize, WordGeom.word_eq, halign, toNat_one_shiftLeft hk] at h
    rw [halign, toNat_one_shiftLeft hk, toNat_wordSize, WordGeom.word_eq]
    exact Nat.pow_dvd_pow 2 ((Nat.pow_le_pow_iff_right (by norm_num)).mp h)
  · exact dvd_rfl

/-- From the payload on, the padded size has room for the payload. -/
theorem alignUp_metadata_le (hk : requestAlignment alignment = 1#w <<< k) (hkw : k < w) :
    alignUp (2 ^ k) (2 * (w / 8)) + size.toNat ≤ paddedSize alignment size := by
  have hreq := congrArg BitVec.toNat hk
  rw [toNat_one_shiftLeft hkw] at hreq
  unfold requestAlignment at hreq
  unfold paddedSize
  split_ifs at hreq ⊢ with h
  · rw [toNat_wordSize] at hreq
    rw [← hreq, alignUp_of_dvd word_pos (dvd_mul_left _ _), Nat.add_comm]
  · have hup : alignUp (2 ^ k) (2 * (w / 8)) ≤ 2 * (w / 8) + (2 ^ k - 1) := Nat.div_mul_le_self _ _
    omega

end Sizes

/-! ## The layout -/

/-- A store of `alloc.c` to a memory of bytes. -/
def Store.bytes (bytes : BitVec w → BitVec 8) : Store w → BitVec w → BitVec 8
  | .word a v => storeWord bytes a v
  | .zero a size => fun b => if b - a < size then 0 else bytes b

/-- Memory after the stores of an allocation. -/
def Allocation.bytes (r : Allocation w σ) (bytes : BitVec w → BitVec 8) : BitVec w → BitVec 8 :=
  r.stores.foldl Store.bytes bytes

/-- The two words in front of `ptr` and the `size` bytes from it on lie in the block of `len`
bytes at `p`, and do not overlap. -/
structure BlockLayout (p ptr : BitVec w) (len size : ℕ) : Prop where
  slack_subset : byteRange (ptr - metadataExtra w) (w / 8) ⊆ byteRange p len
  size_subset : byteRange (ptr - wordSize w) (w / 8) ⊆ byteRange p len
  payload_subset : byteRange ptr size ⊆ byteRange p len
  slack_size : ∀ a ∈ byteRange (ptr - metadataExtra w) (w / 8),
    a ∉ byteRange (ptr - wordSize w) (w / 8)
  slack_payload : ∀ a ∈ byteRange (ptr - metadataExtra w) (w / 8), a ∉ byteRange ptr size
  size_payload : ∀ a ∈ byteRange (ptr - wordSize w) (w / 8), a ∉ byteRange ptr size

section Layout

variable [WordGeom w] {p off : BitVec w} {len n : ℕ}

/-- A payload that starts two words or more from the start of a block. -/
theorem blockLayout_of_offset (hoff : 2 * (w / 8) ≤ off.toNat) (hlen : off.toNat + n ≤ len)
    (hend : off.toNat + n ≤ 2 ^ w) : BlockLayout p (p + off) len n := by
  have hslack : (off - metadataExtra w).toNat = off.toNat - 2 * (w / 8) := by
    rw [BitVec.toNat_sub_of_le (BitVec.le_def.mpr (by rwa [toNat_metadataExtra])),
      toNat_metadataExtra]
  have hsize : (off - wordSize w).toNat = off.toNat - w / 8 := by
    rw [BitVec.toNat_sub_of_le (BitVec.le_def.mpr (by rw [toNat_wordSize]; omega)), toNat_wordSize]
  have hsub : ∀ c : BitVec w, p + off - c = p + (off - c) := fun c => add_sub_assoc p off c
  exact
    { slack_subset := by
        rw [hsub]
        exact byteRange_subset (by omega)
      size_subset := by
        rw [hsub]
        exact byteRange_subset (by omega)
      payload_subset := byteRange_subset hlen
      slack_size := by
        rw [hsub, hsub]
        exact byteRange_disjoint (by omega) (by omega)
      slack_payload := by
        rw [hsub]
        exact byteRange_disjoint (by omega) hend
      size_payload := by
        rw [hsub]
        exact byteRange_disjoint (by omega) hend }

/-- `free` finds the block as long as the two words are intact. -/
theorem free_of_words [WholeBytes w] {ops : AllocOps w σ}
    {opsFree : BitVec w → BitVec w → σ → Option σ}
    {bytes bytes' : BitVec w → BitVec 8} {ptr size : BitVec w} {s : σ}
    (hfree : ops.free = some opsFree)
    (hslack : ∀ a ∈ byteRange (ptr - metadataExtra w) (w / 8),
      a ∉ byteRange (ptr - wordSize w) (w / 8))
    (hwords : ∀ a, a ∈ byteRange (ptr - metadataExtra w) (w / 8) ∨
      a ∈ byteRange (ptr - wordSize w) (w / 8) → bytes' a =
        storeWord (storeWord bytes (ptr - metadataExtra w) (ptr - p)) (ptr - wordSize w) size a) :
    free ops (loadWord bytes') ptr s = opsFree p size s := by
  have hbegin : loadWord bytes' (ptr - metadataExtra w) = ptr - p := by
    rw [← loadWord_storeWord bytes (ptr - metadataExtra w) (ptr - p)]
    refine loadWord_congr fun a ha => (hwords a (Or.inl ha)).trans ?_
    exact storeWord_of_notMem (hslack a ha)
  have hsize : loadWord bytes' (ptr - wordSize w) = size := by
    rw [← loadWord_storeWord (storeWord bytes (ptr - metadataExtra w) (ptr - p)) (ptr - wordSize w)
      size]
    exact loadWord_congr fun a ha => hwords a (Or.inr ha)
  have hbase : blockBegin (loadWord bytes') ptr = p := by
    rw [blockBegin, hbegin, sub_sub_cancel]
  unfold free
  rw [hfree]
  show opsFree _ _ s = _
  rw [hbase, blockSize, hsize]

/-- For every backend, every power-of-two alignment and every size whose sums do not wrap : from
an aligned block of at least the bytes asked for, `memalign` returns a multiple of the
alignment, with its two words and the payload in the block. Whatever is written to the payload,
`free` calls the backend with the block and the bytes that were asked for. -/
theorem memalign_layout [WholeBytes w] {ops : AllocOps w σ} {s s' : σ} {alignment size p : BitVec w}
    {j k : ℕ} (hk : k < w) (halign : alignment = 1#w <<< k) (hj : j < w)
    (hmin : ops.alignMin s = 1#w <<< j) (hwrap : NoWrap (ops.alignMin s) alignment size)
    (hblock : ops.memalign (blockAlignment (ops.alignMin s) alignment)
      (requestSize (ops.alignMin s) alignment size) s = some (p, s'))
    (hp : p.toNat % (blockAlignment (ops.alignMin s) alignment).toNat = 0)
    (hlen : (requestSize (ops.alignMin s) alignment size).toNat ≤ len) :
    ∃ r, memalign ops alignment size s = some r ∧ r.ptr.toNat % alignment.toNat = 0 ∧
      BlockLayout p r.ptr len size.toNat ∧
      ∀ opsFree, ops.free = some opsFree → ∀ bytes bytes' s₁,
        (∀ a ∈ byteRange p len, a ∉ byteRange r.ptr size.toNat → bytes' a = r.bytes bytes a) →
          free ops (loadWord bytes') r.ptr s₁ =
            opsFree p (requestSize (ops.alignMin s) alignment size) s₁ := by
  obtain ⟨i, hi, hreq⟩ := requestAlignment_eq hk halign
  have hsize := (requestSize (ops.alignMin s) alignment size).isLt
  rw [hmin] at hwrap hp hlen hsize
  have hpi : p.toNat % 2 ^ i = 0 :=
    Nat.mod_eq_zero_of_dvd ((requestAlignment_dvd hreq hi hj).trans (Nat.dvd_of_mod_eq_zero hp))
  have hoff := toNat_align_metadata (w := w) hi
  have hfit := (alignUp_metadata_le hreq hi).trans (paddedSize_le hj hwrap)
  have hle : 2 * (w / 8) ≤ alignUp (2 ^ i) (2 * (w / 8)) := le_alignUp (Nat.two_pow_pos i) _
  have hptr : align (p + metadataExtra w) (requestAlignment alignment) =
      p + align (metadataExtra w) (1#w <<< i) := by
    rw [hreq, align_add hi hpi]
  have hlayout : BlockLayout p (align (p + metadataExtra w) (requestAlignment alignment)) len
      size.toNat := by
    rw [hptr]
    exact blockLayout_of_offset (by omega) (by omega) (by omega)
  refine ⟨_, by rw [memalign_eq, hblock]; rfl, ?_, hlayout, ?_⟩
  · have hdvd := dvd_requestAlignment hk halign
    have hmod := align_mod (p + metadataExtra w) hi
    rw [← hreq, ← toNat_one_shiftLeft hi, ← hreq] at hmod
    exact Nat.mod_eq_zero_of_dvd (hdvd.trans (Nat.dvd_of_mod_eq_zero hmod))
  · intro opsFree hfree bytes bytes' s₁ hkept
    refine @free_of_words w _ _ _ _ _ ops opsFree bytes bytes' _ _ s₁ hfree hlayout.slack_size
      fun a ha => ?_
    rcases ha with ha | ha
    · exact hkept a (hlayout.slack_subset ha) (hlayout.slack_payload a ha)
    · exact hkept a (hlayout.size_subset ha) (hlayout.size_payload a ha)

/-- `5000` bytes at a multiple of 64, in two pages. -/
theorem memalign_layout_5000 :
    ∃ r, memalign pageAllocOps 64 5000 fourPages.machine = some r ∧ r.ptr.toNat % 64 = 0 ∧
      BlockLayout 0x4000 r.ptr 0x2000 5000 ∧ ∀ bytes bytes' m₁,
        (∀ a ∈ byteRange 0x4000 0x2000, a ∉ byteRange r.ptr 5000 → bytes' a = r.bytes bytes a) →
          free pageAllocOps (loadWord bytes') r.ptr m₁ = pageFree 0x4000 0x2000 m₁ := by
  have hobt : (pageMemalign 0x1000 0x2000 fourPages.machine).map (·.1) = some 0x4000 := by decide
  obtain ⟨⟨p, m'⟩, hblock, hp⟩ := Option.map_eq_some_iff.mp hobt
  obtain rfl : p = 0x4000 := hp
  obtain ⟨r, hr, hptr, hlayout, hfree⟩ := @memalign_layout 64 _ _ _ 0x2000 _ pageAllocOps
    fourPages.machine m' 64 5000 0x4000 12 6 (by norm_num) rfl (by norm_num) rfl (by decide) hblock
    (by decide) (by decide)
  exact ⟨r, hr, hptr, hlayout, fun bytes bytes' m₁ h => hfree _ rfl bytes bytes' m₁ h⟩

end Layout

/-! ## Sizes that wrap -/

/-- The `n` bytes from `ptr` on, as natural numbers, lie in the block of `len` bytes at `p`. -/
def Followed (ptr : BitVec w) (n : ℕ) (p len : BitVec w) : Prop :=
  ∀ i < n, p.toNat ≤ ptr.toNat + i ∧ ptr.toNat + i < p.toNat + len.toNat

/-- The backend has a block at `p` for the bytes that `memalign` asks for. -/
structure AllocOps.Gives (ops : AllocOps w σ) (s : σ) (alignment size p : BitVec w) : Prop where
  obtained : ∃ s', ops.memalign (blockAlignment (ops.alignMin s) alignment)
    (requestSize (ops.alignMin s) alignment size) s = some (p, s')
  aligned : p.toNat % (w / 8) = 0
  inside : p.toNat + (requestSize (ops.alignMin s) alignment size).toNat ≤ 2 ^ w

section Wrap

variable [WordGeom w] {ops : AllocOps w σ} {s : σ} {alignment size nmemb p : BitVec w} {j k : ℕ}
  {r : Allocation w σ}

theorem memalign_ptr (hg : ops.Gives s alignment size p)
    (hr : memalign ops alignment size s = some r) :
    r.ptr = align (p + metadataExtra w) (requestAlignment alignment) := by
  obtain ⟨s', hobt⟩ := hg.obtained
  rw [memalign_eq, hobt] at hr
  rw [← Option.some.inj hr]

theorem toNat_ne_zero {x : BitVec w} (h : x ≠ 0) : x.toNat ≠ 0 := by
  intro hz
  exact h (BitVec.eq_of_toNat_eq hz)

/-- If no sum wraps, the payload lies in the block, for any alignment. -/
theorem followed_of_noWrap (hj : j < w) (hmin : ops.alignMin s = 1#w <<< j)
    (hwrap : NoWrap (ops.alignMin s) alignment size) (hg : ops.Gives s alignment size p)
    (hr : memalign ops alignment size s = some r) (h0 : r.ptr ≠ 0) :
    Followed r.ptr size.toNat p (requestSize (ops.alignMin s) alignment size) := by
  have hptr := memalign_ptr hg hr
  have hinside := hg.inside
  rw [hmin] at hwrap hinside ⊢
  have hpad := paddedSize_le hj hwrap
  have hx : (p + metadataExtra w).toNat = (p.toNat + 2 * (w / 8)) % 2 ^ w := by
    rw [BitVec.toNat_add, toNat_metadataExtra]
  have hne := toNat_ne_zero h0
  intro i hi
  unfold paddedSize at hpad
  unfold requestAlignment at hptr
  split_ifs at hpad hptr with h
  · have hws : WordGeom.wordShift w < w := by
      have h₁ := WordGeom.wordShift_le (w := w)
      have h₂ := pageShift_lt (w := w)
      omega
    have hpw : p.toNat % 2 ^ WordGeom.wordShift w = 0 := by
      rw [← WordGeom.word_eq]
      exact hg.aligned
    have hoff := toNat_align_metadata (w := w) hws
    rw [← WordGeom.word_eq, alignUp_of_dvd word_pos (dvd_mul_left _ _)] at hoff
    rw [wordSize_eq, align_add hws hpw] at hptr
    rw [hptr, BitVec.toNat_add, hoff] at hne ⊢
    rcases hinside.lt_or_eq with hlt | heq
    · rw [Nat.mod_eq_of_lt (by omega)]
      omega
    · rw [Nat.mod_eq_of_lt (by omega)]
      omega
  · have hal : (alignment - 1).toNat = alignment.toNat - 1 :=
      toNat_sub_one (lt_of_le_of_lt (Nat.zero_le _) (BitVec.not_le.mp h))
    rw [Nat.mod_eq_of_lt (by omega)] at hx
    have hbounds := @align_bounds w _ (p + metadataExtra w) alignment (by omega)
    rw [hptr]
    omega

/-- If a sum wraps, fewer bytes are asked for than the payload and the two words take. -/
theorem requestSize_lt (hk : requestAlignment alignment = 1#w <<< k) (hkw : k < w) (hj : j < w)
    (hwrap : ¬NoWrap (1#w <<< j) alignment size) :
    (requestSize (1#w <<< j) alignment size).toNat < size.toNat + 2 * (w / 8) := by
  unfold NoWrap at hwrap
  rw [toNat_one_shiftLeft hj, not_lt] at hwrap
  have hreq := congrArg BitVec.toNat hk
  rw [toNat_one_shiftLeft hkw] at hreq
  have hhalf : ∀ {i}, i < w → 2 ^ i * 2 ≤ 2 ^ w := fun hi => by
    rw [← Nat.pow_succ]
    exact Nat.pow_le_pow_right (by norm_num) hi
  have hjw := hhalf hj
  have hkw' := hhalf hkw
  have hpos := Nat.two_pow_pos j
  have hle : (requestSize (1#w <<< j) alignment size).toNat ≤
      paddedSize alignment size + (2 ^ j - 1) - 2 ^ w := by
    rw [toNat_requestSize_mod hj, Nat.mod_eq_sub_mod hwrap]
    exact (Nat.div_mul_le_self _ _).trans (Nat.mod_le _ _)
  unfold paddedSize at hle hwrap
  unfold requestAlignment at hreq
  split_ifs at hle hreq hwrap with h
  · omega
  · omega

/-- A payload that lies in the block took no wrapped sum, for a power-of-two alignment. -/
theorem noWrap_of_followed (hk : requestAlignment alignment = 1#w <<< k) (hkw : k < w) (hj : j < w)
    (hmin : ops.alignMin s = 1#w <<< j) (hg : ops.Gives s alignment size p)
    (hr : memalign ops alignment size s = some r) (h0 : r.ptr ≠ 0) (hsize : size ≠ 0)
    (hf : Followed r.ptr size.toNat p (requestSize (ops.alignMin s) alignment size)) :
    NoWrap (ops.alignMin s) alignment size := by
  have hptr := memalign_ptr hg hr
  have hinside := hg.inside
  rw [hmin] at hf hinside ⊢
  by_contra hwrap
  have hlt := requestSize_lt hk hkw hj hwrap
  have hpos := Nat.pos_of_ne_zero (toNat_ne_zero hsize)
  have hfirst := (hf 0 hpos).1
  have hlast := (hf (size.toNat - 1) (by omega)).2
  have hne := toNat_ne_zero h0
  have hword := metadata_add_le (w := w) hkw
  rw [hptr, hk, toNat_align_mod _ hkw] at hfirst hlast hne
  have hup := le_alignUp (Nat.two_pow_pos k) (p + metadataExtra w).toNat
  have htop : alignUp (2 ^ k) (p + metadataExtra w).toNat ≤ 2 ^ w :=
    alignUp_le (Nat.two_pow_pos k) (p + metadataExtra w).isLt.le (Nat.pow_dvd_pow 2 hkw.le)
  have hround : alignUp (2 ^ k) (p + metadataExtra w).toNat ≤
      (p + metadataExtra w).toNat + (2 ^ k - 1) := Nat.div_mul_le_self _ _
  have hp := p.isLt
  have halign := Nat.two_pow_pos k
  rcases htop.lt_or_eq with hltw | heq
  · rw [Nat.mod_eq_of_lt hltw] at hfirst hlast
    have hx : (p + metadataExtra w).toNat = (p.toNat + 2 * (w / 8)) % 2 ^ w := by
      rw [BitVec.toNat_add, toNat_metadataExtra]
    rcases Nat.lt_or_ge (p.toNat + 2 * (w / 8)) (2 ^ w) with hsmall | hbig
    · rw [Nat.mod_eq_of_lt hsmall] at hx
      omega
    · rw [Nat.mod_eq_sub_mod hbig, Nat.mod_eq_of_lt (by omega)] at hx
      omega
  · rw [heq, Nat.mod_self] at hne
    exact hne rfl

/-- The whole block lies in the address space, so no payload of `2^w` bytes does. -/
theorem lt_of_followed {n : ℕ} {ptr len : BitVec w} (hinside : p.toNat + len.toNat ≤ 2 ^ w)
    (h0 : ptr ≠ 0) (hf : Followed ptr n p len) : n < 2 ^ w := by
  have hne := toNat_ne_zero h0
  by_contra hge
  have hlast := (hf (2 ^ w - 1) (by have := Nat.two_pow_pos w; omega)).2
  omega

theorem requestAlignment_wordSize : requestAlignment (wordSize w) =
    1#w <<< WordGeom.wordShift w := by
  unfold requestAlignment
  rw [if_pos (BitVec.le_refl _), wordSize_eq]

/-- On any backend : a non-null result of `memalign`, `malloc` or `calloc` is followed by the
bytes that were asked for exactly if these are none, or neither the product nor a sum on the way
wraps. For an alignment that is no power of two, this is enough. -/
theorem allocation_followed_iff (hj : j < w) (hmin : ops.alignMin s = 1#w <<< j) :
    (∀ alignment size p r, ops.Gives s alignment size p → memalign ops alignment size s = some r →
      r.ptr ≠ 0 →
        (size = 0 ∨ NoWrap (ops.alignMin s) alignment size →
          Followed r.ptr size.toNat p (requestSize (ops.alignMin s) alignment size)) ∧
        (alignment ≤ wordSize w ∨ (∃ k < w, alignment = 1#w <<< k) →
          Followed r.ptr size.toNat p (requestSize (ops.alignMin s) alignment size) →
            size = 0 ∨ NoWrap (ops.alignMin s) alignment size)) ∧
    (∀ size p r, ops.Gives s (wordSize w) size p → malloc ops size s = some r → r.ptr ≠ 0 →
      (Followed r.ptr size.toNat p (requestSize (ops.alignMin s) (wordSize w) size) ↔
        size = 0 ∨ NoWrap (ops.alignMin s) (wordSize w) size)) ∧
    ∀ nmemb size p r, ops.Gives s (wordSize w) (nmemb * size) p → calloc ops nmemb size s = some r →
      r.ptr ≠ 0 →
        (Followed r.ptr (nmemb.toNat * size.toNat) p
            (requestSize (ops.alignMin s) (wordSize w) (nmemb * size)) ↔
          nmemb.toNat * size.toNat < 2 ^ w ∧
            (nmemb * size = 0 ∨ NoWrap (ops.alignMin s) (wordSize w) (nmemb * size))) := by
  have hws : WordGeom.wordShift w < w := by
    have h₁ := WordGeom.wordShift_le (w := w)
    have h₂ := pageShift_lt (w := w)
    omega
  have henough : ∀ alignment size p r, ops.Gives s alignment size p →
      memalign ops alignment size s = some r → r.ptr ≠ 0 →
        size = 0 ∨ NoWrap (ops.alignMin s) alignment size →
          Followed r.ptr size.toNat p (requestSize (ops.alignMin s) alignment size) := by
    intro alignment size p r hg hr h0 hcond
    rcases hcond with rfl | hwrap
    · exact fun i hi => absurd hi (Nat.not_lt_zero i)
    · exact followed_of_noWrap hj hmin hwrap hg hr h0
  have hneeded : ∀ alignment size p r k, requestAlignment alignment = 1#w <<< k → k < w →
      ops.Gives s alignment size p → memalign ops alignment size s = some r → r.ptr ≠ 0 →
        Followed r.ptr size.toNat p (requestSize (ops.alignMin s) alignment size) →
          size = 0 ∨ NoWrap (ops.alignMin s) alignment size := by
    intro alignment size p r k hk hkw hg hr h0 hf
    rcases eq_or_ne size 0 with hz | hne
    · exact Or.inl hz
    · exact Or.inr (noWrap_of_followed hk hkw hj hmin hg hr h0 hne hf)
  have hmalloc : ∀ size p r, ops.Gives s (wordSize w) size p → malloc ops size s = some r →
      r.ptr ≠ 0 → (Followed r.ptr size.toNat p (requestSize (ops.alignMin s) (wordSize w) size) ↔
        size = 0 ∨ NoWrap (ops.alignMin s) (wordSize w) size) := by
    intro size p r hg hr h0
    exact ⟨hneeded _ size p r _ requestAlignment_wordSize hws hg hr h0, henough _ size p r hg hr h0⟩
  refine ⟨fun alignment size p r hg hr h0 => ⟨henough _ _ _ _ hg hr h0, fun hpow hf => ?_⟩,
    hmalloc, ?_⟩
  · rcases hpow with hle | ⟨k, hk, halign⟩
    · refine hneeded alignment size p r _ ?_ hws hg hr h0 hf
      unfold requestAlignment
      rw [if_pos hle, wordSize_eq]
    · obtain ⟨k', hk', hreq⟩ := requestAlignment_eq hk halign
      exact hneeded alignment size p r k' hreq hk' hg hr h0 hf
  · intro nmemb size p r hg hr h0
    obtain ⟨r', hr', hrr'⟩ := Option.map_eq_some_iff.mp hr
    have hptr : r'.ptr = r.ptr := by
      rw [← hrr']
      split_ifs <;> rfl
    have hiff := hmalloc (nmemb * size) p r' hg hr' (hptr ▸ h0)
    rw [hptr, BitVec.toNat_mul] at hiff
    constructor
    · intro hf
      have hlt := lt_of_followed hg.inside h0 hf
      rw [Nat.mod_eq_of_lt hlt] at hiff
      exact ⟨hlt, hiff.mp hf⟩
    · rintro ⟨hlt, hcond⟩
      rw [Nat.mod_eq_of_lt hlt] at hiff
      exact hiff.mpr hcond

/-- A page for what is left of a request of the page backend. -/
theorem fourPages_gives {alignment size : BitVec 64}
    (h : (pageMemalign (blockAlignment pageSize alignment) (requestSize pageSize alignment size)
      fourPages.machine).map (·.1) = some 0x4000)
    (hsize : (requestSize pageSize alignment size).toNat ≤ 0x4000) :
    pageAllocOps.Gives fourPages.machine alignment size 0x4000 := by
  obtain ⟨⟨p, m'⟩, hobt, hp⟩ := Option.map_eq_some_iff.mp h
  obtain rfl : p = 0x4000 := hp
  refine ⟨⟨m', hobt⟩, by decide, ?_⟩
  have hend : (0x4000 : BitVec 64).toNat + 0x4000 ≤ 2 ^ 64 := by decide
  exact le_trans (Nat.add_le_add_left hsize _) hend

/-- `2^32` elements of `2^32` bytes are given one page, and so is an aligned block of `2^64 - 1`
bytes. -/
theorem calloc_wraps :
    (∃ r, calloc pageAllocOps 0x100000000 0x100000000 fourPages.machine = some r ∧ r.ptr ≠ 0 ∧
      pageAllocOps.Gives fourPages.machine (wordSize 64) (0x100000000 * 0x100000000) 0x4000 ∧
      ¬Followed r.ptr (2 ^ 32 * 2 ^ 32) 0x4000
        (requestSize pageSize (wordSize 64) (0x100000000 * 0x100000000))) ∧
    ∃ r, memalign pageAllocOps 16 (BitVec.allOnes 64) fourPages.machine = some r ∧ r.ptr ≠ 0 ∧
      pageAllocOps.Gives fourPages.machine 16 (BitVec.allOnes 64) 0x4000 ∧
      ¬Followed r.ptr (2 ^ 64 - 1) 0x4000 (requestSize pageSize 16 (BitVec.allOnes 64)) := by
  have hcalloc : (calloc pageAllocOps 0x100000000 0x100000000 fourPages.machine).map (·.ptr) =
      some 0x4010 := by decide
  have hmemalign : (memalign pageAllocOps 16 (BitVec.allOnes 64) fourPages.machine).map (·.ptr) =
      some 0x4010 := by decide
  obtain ⟨r, hr, hptr⟩ := Option.map_eq_some_iff.mp hcalloc
  obtain ⟨r', hr', hptr'⟩ := Option.map_eq_some_iff.mp hmemalign
  -- Byte 4096 after the pointer is past the page.
  refine ⟨⟨r, hr, by rw [hptr]; decide, fourPages_gives (by decide) (by decide), fun hf => ?_⟩,
    r', hr', by rw [hptr']; decide, fourPages_gives (by decide) (by decide), fun hf => ?_⟩
  · have hlast := (hf 4096 (by norm_num)).2
    rw [hptr] at hlast
    exact absurd hlast (by decide)
  · have hlast := (hf 4096 (by norm_num)).2
    rw [hptr'] at hlast
    exact absurd hlast (by decide)

/-- Twelve elements of eight bytes lie in the page. -/
theorem allocation_followed_iff_twelve :
    ∃ r, calloc pageAllocOps 12 8 fourPages.machine = some r ∧ r.ptr ≠ 0 ∧
      Followed r.ptr 96 0x4000 (requestSize pageSize (wordSize 64) 96) := by
  have hcalloc : (calloc pageAllocOps 12 8 fourPages.machine).map (·.ptr) = some 0x4010 := by decide
  obtain ⟨r, hr, hptr⟩ := Option.map_eq_some_iff.mp hcalloc
  have h0 : r.ptr ≠ 0 := by
    rw [hptr]
    decide
  refine ⟨r, hr, h0, ?_⟩
  have hiff := (@allocation_followed_iff 64 _ _ _ pageAllocOps fourPages.machine 12 (by norm_num)
    rfl).2.2 12 8 0x4000 r (fourPages_gives (by decide) (by decide)) hr h0
  exact hiff.mpr ⟨by decide, Or.inr (by decide)⟩

end Wrap

end AcrnUt
