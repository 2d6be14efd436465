import AcrnUt.PhysAlloc
import AcrnUt.Vmalloc

/-!
# Allocation failure

What the calls of `alloc.c` do if their backend cannot satisfy them. `memalign` does not look
at the block it gets : it aligns the pointer and writes the metadata in front of it, also if
the block is null. So no failure reaches the caller (`HeapCall.not_propagates`). `vm_memalign`
does not look at its pages either, and maps the null page.
-/

set_option linter.unusedSectionVars false

namespace AcrnUt

variable {w : ℕ} [PageGeom w] [WordGeom w] {σ : Type*}

/-- `early_alloc_ops`. -/
def earlyAllocOps (w : ℕ) : AllocOps w PhysAlloc where
  memalign := earlyMemalign
  free := none
  alignMin s := s.alignMin.setWidth w

/-- A call to the heap. -/
inductive HeapCall (w : ℕ)
  | memalign (alignment size : BitVec w)
  | malloc (size : BitVec w)
  | calloc (nmemb size : BitVec w)

namespace HeapCall

/-- The alignment and the size that a call asks `memalign` for. -/
def alignment : HeapCall w → BitVec w
  | memalign alignment _ => alignment
  | malloc _ | calloc _ _ => wordSize w

@[inherit_doc alignment] def size : HeapCall w → BitVec w
  | memalign _ size => size
  | malloc size => size
  | calloc nmemb size => nmemb * size

/-- The call. -/
def exec (ops : AllocOps w σ) : HeapCall w → σ → Option (Allocation w σ)
  | memalign alignment size, s => AcrnUt.memalign ops alignment size s
  | malloc size, s => AcrnUt.malloc ops size s
  | calloc nmemb size, s => AcrnUt.calloc ops nmemb size s

/-- The request that the call makes of its backend. -/
def request (ops : AllocOps w σ) (call : HeapCall w) (s : σ) : Option (BitVec w × σ) :=
  ops.memalign (blockAlignment (ops.alignMin s) call.alignment)
    (requestSize (ops.alignMin s) call.alignment call.size) s

/-- The backend has no block for the call : it returns null, or an assertion stops it. -/
def Refused (ops : AllocOps w σ) (call : HeapCall w) (s : σ) : Prop :=
  ∀ p s', call.request ops s = some (p, s') → p = 0

/-- `alloc_page` runs out within the call. -/
def Starved [X86 w] (call : HeapCall w) (s : Vm w) : Prop :=
  s.machine.denied = false ∧
    ∀ p s', call.request vmallocOps s = some (p, s') → s'.machine.denied = true

/-- The failure reaches the caller : the result is null, and `alloc.c` has stored nothing. -/
def Propagates (r : Option (Allocation w σ)) : Prop :=
  ∃ s', r = some ⟨0, [], s'⟩

/-- What a call returns for the block `p`, and the metadata it stores. -/
structure Wraps (call : HeapCall w) (p : BitVec w) (a : Allocation w σ) : Prop where
  ptr : a.ptr = align (p + metadataExtra w) (requestAlignment call.alignment)
  slack : .word (a.ptr - metadataExtra w) (a.ptr - p) ∈ a.stores
  size : ∃ size, .word (a.ptr - wordSize w) size ∈ a.stores

variable {ops : AllocOps w σ} {call : HeapCall w} {s : σ} {a : Allocation w σ}

/-- A call that returns has stored the metadata. -/
theorem exec_spec (h : call.exec ops s = some a) :
    ∃ p s', call.request ops s = some (p, s') ∧ call.Wraps p a := by
  have key : ∀ {b}, AcrnUt.memalign ops call.alignment call.size s = some b →
      ∃ p s', call.request ops s = some (p, s') ∧ call.Wraps p b := by
    intro b hb
    rw [memalign_eq, Option.map_eq_some_iff] at hb
    obtain ⟨⟨p, s'⟩, hreq, rfl⟩ := hb
    exact ⟨p, s', hreq, rfl, List.mem_cons_self .., _,
      List.mem_cons_of_mem _ (List.mem_cons_self ..)⟩
  cases call with
  | memalign alignment size => exact key h
  | malloc size => exact key h
  | calloc nmemb size =>
    obtain ⟨b, hb, rfl⟩ := Option.map_eq_some_iff.mp h
    obtain ⟨p, s', hreq, hw⟩ := key hb
    refine ⟨p, s', hreq, ?_⟩
    split_ifs
    · exact ⟨hw.ptr, List.mem_append_left _ hw.slack,
        hw.size.imp fun _ hmem => List.mem_append_left _ hmem⟩
    · exact hw

theorem not_propagates_exec : ¬Propagates (call.exec ops s) := by
  rintro ⟨s', h⟩
  obtain ⟨p, -, -, hw⟩ := exec_spec h
  exact List.not_mem_nil hw.slack

/-- Past the metadata, a null block is not null any more. -/
theorem Wraps.ptr_ne_zero (h : call.Wraps 0 a) {k : ℕ} (hk : k < w)
    (halign : call.alignment = 1#w <<< k) : a.ptr ≠ 0 := by
  obtain ⟨k', hk', heq⟩ := requestAlignment_eq hk halign
  have hw := word_lt (w := w)
  have hw0 : 0 < w / 8 := word_pos
  have hpage := Nat.pow_le_pow_right (n := 2) (by decide)
    (show pageShift w + 1 ≤ w from pageShift_lt)
  have hhalf := Nat.pow_le_pow_right (n := 2) (by decide) (show k' + 1 ≤ w from hk')
  rw [Nat.pow_succ] at hpage hhalf
  have hpos := Nat.two_pow_pos k'
  have hx : (0 + metadataExtra w).toNat = 2 * (w / 8) := by
    rw [show 0 + metadataExtra w = metadataExtra w from BitVec.zero_add _, toNat_metadataExtra]
  have hptr := toNat_align (x := 0 + metadataExtra w) hk' (by rw [hx]; omega)
  rw [hx] at hptr
  have hdm := Nat.div_add_mod' (2 * (w / 8) + (2 ^ k' - 1)) (2 ^ k')
  have hmod := Nat.mod_lt (2 * (w / 8) + (2 ^ k' - 1)) hpos
  intro h0
  have hzero : (align (0 + metadataExtra w) (1#w <<< k')).toNat = 0 := by
    rw [← heq, ← h.ptr, h0]
    rfl
  omega

/-- A call whose backend returns null stores its metadata around address zero. -/
theorem Refused.wraps (h : call.Refused ops s) (ha : call.exec ops s = some a) :
    call.Wraps 0 a := by
  obtain ⟨p, s', hreq, hw⟩ := exec_spec ha
  exact h p s' hreq ▸ hw

/-- Whichever backend fails, for every state and every request, the failure does not reach the
caller. If the early or the page backend returns null, the call returns an aligned pointer
past the metadata, which is not null for a power-of-two alignment, and stores the metadata
there. -/
theorem not_propagates [X86 w] (call : HeapCall w) :
    (∀ s, call.Refused (earlyAllocOps w) s → ¬Propagates (call.exec (earlyAllocOps w) s) ∧
      ∀ a, call.exec (earlyAllocOps w) s = some a → call.Wraps 0 a ∧
        ((∃ k < w, call.alignment = 1#w <<< k) → a.ptr ≠ 0)) ∧
    (∀ s, call.Refused pageAllocOps s → ¬Propagates (call.exec pageAllocOps s) ∧
      ∀ a, call.exec pageAllocOps s = some a → call.Wraps 0 a ∧
        ((∃ k < w, call.alignment = 1#w <<< k) → a.ptr ≠ 0)) ∧
    ∀ s, call.Starved s → ¬Propagates (call.exec vmallocOps s) := by
  refine ⟨fun s h => ⟨not_propagates_exec, fun a ha => ⟨h.wraps ha, ?_⟩⟩,
    fun s h => ⟨not_propagates_exec, fun a ha => ⟨h.wraps ha, ?_⟩⟩, fun s _ => not_propagates_exec⟩
  · rintro ⟨k, hk, halign⟩
    exact (h.wraps ha).ptr_ne_zero hk halign
  · rintro ⟨k, hk, halign⟩
    exact (h.wraps ha).ptr_ne_zero hk halign

/-- A page allocator with no free page. -/
def noPages : Machine 64 :=
  ⟨fun _ => 0, 0, false⟩

/-- A page of memory for the early backend. -/
def onePage : PhysAlloc :=
  ⟨0x1000, 0x2000, fun _ => ⟨0, 0⟩, 0, false, 32⟩

/-- Without a free page, `malloc` returns `16`, and writes at `0` and `8`. So it does if the
early backend has too little memory. If `alloc_page` runs out at the second page of a block
of `vm_memalign`, that page is mapped to the physical page `0`. -/
theorem malloc_at_failure :
    (HeapCall.malloc 1).Refused pageAllocOps noPages ∧
      AcrnUt.malloc pageAllocOps 1 noPages = some ⟨16, [.word 0 16, .word 8 0x1000], noPages⟩ ∧
    (HeapCall.malloc 0x2000).Refused (earlyAllocOps 64) onePage ∧
      AcrnUt.malloc (earlyAllocOps 64) 0x2000 onePage =
        some ⟨16, [.word 0 16, .word 8 0x2020], onePage⟩ ∧
    ∃ a, (HeapCall.malloc 5000).Starved (⟨zeroedRoot, 0, 0x1000⟩ : Vm 64) ∧
      AcrnUt.malloc vmallocOps 5000 (⟨zeroedRoot, 0, 0x1000⟩ : Vm 64) = some a ∧ a.ptr ≠ 0 ∧
      virtToPtePhys a.state.machine 0x1000 (-0x1000) = some 0 ∧
      (x86Format 64).walk 0x1000 a.state.machine.mem (-0x1000) ≠ none := by
  have hpage : (HeapCall.malloc 1).request pageAllocOps noPages = some (0, noPages) := rfl
  have hearly : (HeapCall.malloc 0x2000).request (earlyAllocOps 64) onePage =
      some (0, onePage) := rfl
  refine ⟨fun p s' h => ?_, rfl, fun p s' h => ?_, rfl, _, ⟨rfl, fun p s' h => ?_⟩, rfl, by decide,
    by decide, by decide⟩
  · rw [hpage] at h
    cases h
    rfl
  · rw [hearly] at h
    cases h
    rfl
  · cases h
    decide

theorem not_propagates_noPages :
    ¬Propagates ((malloc 1).exec pageAllocOps noPages) ∧
      ∀ a, (malloc 1).exec pageAllocOps noPages = some a → a.ptr ≠ 0 := by
  have hpage : (HeapCall.malloc 1).request pageAllocOps noPages = some (0, noPages) := rfl
  have hrefused : (HeapCall.malloc 1).Refused pageAllocOps noPages := by
    intro p s' h
    rw [hpage] at h
    cases h
    rfl
  obtain ⟨-, h, -⟩ := not_propagates (malloc (1 : BitVec 64))
  exact ⟨(h _ hrefused).1, fun a ha => ((h _ hrefused).2 a ha).2 ⟨3, by decide, by decide⟩⟩

end HeapCall

end AcrnUt
