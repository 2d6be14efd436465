import AcrnUt.FdtRead

/-!
# Writing a device tree blob

The sequential writer of `lib/libfdt/fdt_sw.c`, on the bytes of its buffer. Tokens grow from the
reservation map upwards and strings grow from the end of the buffer downwards. `Layout` says what
stands in the buffer while it is written : the entries of the reservation map, the tokens of the
calls that have succeeded, each property with its name in the string table, and nothing has changed
outside of the buffer.

The comparison for the room of a new string is between unsigned numbers, and so is that of
`_fdt_grab_space`. A name that is longer than the buffer up to the string table gets past the first
one; where the reservation map or the string table has grown over the other's place, everything
gets past the second one. The lemmas below ask for what keeps clear of this.

Addresses count from the buffer. `w` is the number of bits of a `size_t`.
-/

set_option linter.unusedSectionVars false

namespace AcrnUt

namespace Libfdt

/-! ## The code -/

/-- `-FDT_ERR_NOSPACE`. -/
def errNospace : ℤ := -3

/-- A conversion to `size_t`. -/
def toSize (w : ℕ) (x : ℤ) : ℤ := x % 2 ^ w

/-- `FDT_ALIGN`. -/
def fdtAlign (x a : ℤ) : ℤ := (x + a - 1) / a * a

/-- `FDT_TAGALIGN` of an `int`, as a `size_t`. -/
def sizeTagalign (w : ℕ) (x : ℤ) : ℤ := toSize w (x + 3) / 4 * 4

/-- `fdt_off_mem_rsvmap`. -/
def fdtOffMemRsvmap (m : ByteMem) : ℕ := (m.be32 16).toNat

/-- `fdt_set_magic`. -/
def fdtSetMagic (m : ByteMem) (v : BitVec 32) : ByteMem := m.writeBe32 0 v

/-- `fdt_set_totalsize`. -/
def fdtSetTotalsize (m : ByteMem) (x : ℤ) : ByteMem := m.writeBe32 4 (BitVec.ofInt 32 x)

/-- `fdt_set_off_dt_struct`. -/
def fdtSetOffDtStruct (m : ByteMem) (x : ℤ) : ByteMem := m.writeBe32 8 (BitVec.ofInt 32 x)

/-- `fdt_set_off_dt_strings`. -/
def fdtSetOffDtStrings (m : ByteMem) (x : ℤ) : ByteMem := m.writeBe32 12 (BitVec.ofInt 32 x)

/-- `fdt_set_off_mem_rsvmap`. -/
def fdtSetOffMemRsvmap (m : ByteMem) (x : ℤ) : ByteMem := m.writeBe32 16 (BitVec.ofInt 32 x)

/-- `fdt_set_version`. -/
def fdtSetVersion (m : ByteMem) (x : ℤ) : ByteMem := m.writeBe32 20 (BitVec.ofInt 32 x)

/-- `fdt_set_last_comp_version`. -/
def fdtSetLastCompVersion (m : ByteMem) (x : ℤ) : ByteMem := m.writeBe32 24 (BitVec.ofInt 32 x)

/-- `fdt_set_size_dt_strings`. -/
def fdtSetSizeDtStrings (m : ByteMem) (x : ℤ) : ByteMem := m.writeBe32 32 (BitVec.ofInt 32 x)

/-- `fdt_set_size_dt_struct`. -/
def fdtSetSizeDtStruct (m : ByteMem) (x : ℤ) : ByteMem := m.writeBe32 36 (BitVec.ofInt 32 x)

/-- `_fdt_sw_check_header`. -/
def fdtSwCheckHeader (m : ByteMem) : ℤ :=
  if fdtMagic m ≠ ~~~magic then errBadmagic else 0

/-- `_fdt_grab_space` : the pointer it returns, unless it is null. -/
def fdtGrabSpace (w : ℕ) (m : ByteMem) (len : ℤ) : Option ℤ × ByteMem :=
  let offset := toInt (fdtSizeDtStruct m)
  let spaceleft := toInt (fdtTotalsize m - fdtOffDtStruct m - fdtSizeDtStrings m)
  if toSize w (offset + len) < toSize w offset ∨
      toSize w spaceleft < toSize w (offset + len) then (none, m)
  else
    let m := fdtSetSizeDtStruct m (toSize w (offset + len))
    (some (fdtOffDtStruct m + offset), m)

/-- `fdt_create`. -/
def fdtCreate (w : ℕ) (m : ByteMem) (bufsize : ℤ) : ℤ × ByteMem :=
  if toSize w bufsize < 40 then (errNospace, m)
  else
    let m := m.write 0 (List.replicate bufsize.toNat 0)
    let m := fdtSetMagic m (~~~magic)
    let m := fdtSetVersion m 0x11
    let m := fdtSetLastCompVersion m 0x10
    let m := fdtSetTotalsize m bufsize
    let m := fdtSetOffMemRsvmap m (fdtAlign 40 16)
    let m := fdtSetOffDtStruct m (fdtOffMemRsvmap m)
    let m := fdtSetOffDtStrings m bufsize
    (0, m)

/-- The bytes of a double word, the most significant one first. -/
def be64Bytes (v : BitVec 64) : List (BitVec 8) :=
  ByteMem.be32Bytes (v.extractLsb' 32 32) ++ ByteMem.be32Bytes (v.extractLsb' 0 32)

/-- `fdt_add_reservemap_entry`. -/
def fdtAddReservemapEntry (w : ℕ) (m : ByteMem) (addr size : BitVec 64) : ℤ × ByteMem :=
  if fdtSwCheckHeader m ≠ 0 then (fdtSwCheckHeader m, m)
  else if fdtSizeDtStruct m ≠ 0 then (errBadstate, m)
  else
    let offset := toInt (fdtOffDtStruct m)
    if fdtTotalsize m < toSize w (offset + 16) then (errNospace, m)
    else
      let m := m.write offset (be64Bytes addr)
      let m := m.write (offset + 8) (be64Bytes size)
      (0, fdtSetOffDtStruct m (toSize w (offset + 16)))

/-- `fdt_finish_reservemap`. -/
def fdtFinishReservemap (w : ℕ) (m : ByteMem) : ℤ × ByteMem :=
  fdtAddReservemapEntry w m 0 0

/-- `fdt_begin_node`. -/
def fdtBeginNode (w : ℕ) (m : ByteMem) (name : List (BitVec 8)) : ℤ × ByteMem :=
  if fdtSwCheckHeader m ≠ 0 then (fdtSwCheckHeader m, m)
  else
    match fdtGrabSpace w m (toSize w (4 + sizeTagalign w (name.length + 1))) with
    | (none, m) => (errNospace, m)
    | (some nh, m) => (0, (m.writeBe32 nh beginNode).write (nh + 4) (name ++ [0]))

/-- `fdt_end_node`. -/
def fdtEndNode (w : ℕ) (m : ByteMem) : ℤ × ByteMem :=
  if fdtSwCheckHeader m ≠ 0 then (fdtSwCheckHeader m, m)
  else
    match fdtGrabSpace w m 4 with
    | (none, m) => (errNospace, m)
    | (some en, m) => (0, m.writeBe32 en endNode)

/-- The loop of `_fdt_find_string`, which compares with `memcmp`, over `n` places. -/
def findStringLoop (m : ByteMem) (s : List (BitVec 8)) : ℕ → ℤ → Option ℤ
  | 0, _ => none
  | n + 1, p =>
    if m.read p (s.length + 1) = s ++ [0] then some p else findStringLoop m s n (p + 1)

/-- `_fdt_find_string`. -/
def fdtFindString (m : ByteMem) (strtab tabsize : ℤ) (s : List (BitVec 8)) : Option ℤ :=
  let last := strtab + tabsize - (s.length + 1)
  findStringLoop m s (last + 1 - strtab).toNat strtab

/-- What `_fdt_find_add_string` does with what `_fdt_find_string` returns. -/
def addUnlessFound (m : ByteMem) (s : List (BitVec 8)) : Option ℤ → ℤ × ByteMem
  | some p => (p - fdtTotalsize m, m)
  | none =>
    let strtab : ℤ := fdtTotalsize m
    let strtabsize := toInt (fdtSizeDtStrings m)
    let len : ℤ := s.length + 1
    let offset := -strtabsize - len
    let structTop := toInt (fdtOffDtStruct m + fdtSizeDtStruct m)
    if toUnsigned (fdtTotalsize m + offset) < toUnsigned structTop then (0, m)
    else
      let m := m.write (strtab + offset) (s ++ [0])
      (offset, fdtSetSizeDtStrings m (strtabsize + len))

/-- `_fdt_find_add_string`. -/
def fdtFindAddString (m : ByteMem) (s : List (BitVec 8)) : ℤ × ByteMem :=
  let strtabsize := toInt (fdtSizeDtStrings m)
  addUnlessFound m s (fdtFindString m (fdtTotalsize m - strtabsize) strtabsize s)

/-- `fdt_property`. -/
def fdtProperty (w : ℕ) (m : ByteMem) (name val : List (BitVec 8)) : ℤ × ByteMem :=
  if fdtSwCheckHeader m ≠ 0 then (fdtSwCheckHeader m, m)
  else
    match fdtFindAddString m name with
    | (nameoff, m) =>
      if nameoff = 0 then (errNospace, m)
      else
        match fdtGrabSpace w m (toSize w (12 + sizeTagalign w val.length)) with
        | (none, m) => (errNospace, m)
        | (some p, m) => (0, (((m.writeBe32 p prop).writeBe32 (p + 8)
            (BitVec.ofInt 32 nameoff)).writeBe32 (p + 4) (BitVec.ofInt 32 val.length)).write
              (p + 12) val)

/-- The loop of `fdt_finish` : the last `nextoffset`. -/
def relocateLoop (fuel : ℕ) : ℕ → ByteMem → ℤ → Option (ℤ × ByteMem)
  | 0, _, _ => none
  | n + 1, m, offset =>
    match fdtNextTag fuel m offset with
    | none => none
    | some r =>
      if r.1 = fin then some (r.2, m)
      else if r.1 = prop then
        let p := fdtOffDtStruct m + offset
        -- `nameoff += fdt_size_dt_strings(fdt)`
        relocateLoop fuel n (m.writeBe32 (p + 8) (m.be32 (p + 8) + m.be32 32)) r.2
      else relocateLoop fuel n m r.2

/-- `fdt_finish` relocates the string table. -/
def relocateStrings (m : ByteMem) (newstroffset : ℤ) : ByteMem :=
  let oldstroffset := toInt (fdtTotalsize m - fdtSizeDtStrings m)
  -- `memmove`
  let m := m.write newstroffset (m.read oldstroffset (fdtSizeDtStrings m))
  fdtSetOffDtStrings m newstroffset

/-- `fdt_finish`, once it has added the terminator. -/
def finishTerminated (fuel : ℕ) (m : ByteMem) : Option (ℤ × ByteMem) :=
  let newstroffset := toInt (fdtOffDtStruct m + fdtSizeDtStruct m)
  match relocateLoop fuel fuel (relocateStrings m newstroffset) 0 with
  | none => none
  | some (nextoffset, m) =>
    if nextoffset < 0 then some (nextoffset, m)
    else some (0, fdtSetMagic (fdtSetTotalsize m (newstroffset + fdtSizeDtStrings m)) magic)

/-- `fdt_finish`. -/
def fdtFinish (w fuel : ℕ) (m : ByteMem) : Option (ℤ × ByteMem) :=
  if fdtSwCheckHeader m ≠ 0 then some (fdtSwCheckHeader m, m)
  else
    match fdtGrabSpace w m 4 with
    | (none, m) => some (errNospace, m)
    | (some p, m) => finishTerminated fuel (m.writeBe32 p fin)

/-! ## Tokens in a memory that changes -/

section Tokens

variable {m m' : ByteMem} {a o : ℤ} {t : Token} {ts us : List Token}

/-- A token is decided by its bytes. -/
theorem TokenAt.congr (h : TokenAt m a t) (heq : ∀ x, a ≤ x → x < a + t.bytes → m' x = m x) :
    TokenAt m' a t := by
  have hfour := t.four_le_bytes
  refine ⟨(ByteMem.be32_congr fun x hx hx' => heq x hx (by omega)).trans h.1, ?_⟩
  cases t with
  | beginNode name =>
    rw [Token.bytes] at heq
    refine ⟨h.2.1, h.2.2.congr fun x hx hx' => heq x (by omega) ?_⟩
    simp only [List.length_append, List.length_cons, List.length_nil] at hx'
    push_cast at hx' ⊢
    omega
  | prop nameoff data =>
    obtain ⟨hlen, hoff, hdata⟩ := h.2
    rw [Token.bytes] at heq
    push_cast at heq
    refine ⟨?_, ?_, hdata.congr fun x hx hx' => heq x (by omega) (by omega)⟩
    · exact (ByteMem.be32_congr fun x hx hx' => heq x (by omega) (by omega)).trans hlen
    · exact (ByteMem.be32_congr fun x hx hx' => heq x (by omega) (by omega)).trans hoff
  | _ => trivial

theorem sizes_append (ts us : List Token) : sizes (ts ++ us) = sizes ts + sizes us := by
  simp [sizes]

theorem structAt_append :
    StructAt m o (ts ++ us) ↔ StructAt m o ts ∧ StructAt m (o + sizes ts) us := by
  induction ts generalizing o with
  | nil => simp [StructAt, sizes]
  | cons t ts ih =>
    simp only [List.cons_append, StructAt, ih, sizes_cons, and_assoc]
    rw [show o + ((t.size + sizes ts : ℕ) : ℤ) = o + t.size + sizes ts by push_cast; ring]

/-- Tokens are decided by where the block is and by its bytes. -/
theorem StructAt.congr (h : StructAt m o ts) (hoff : fdtOffDtStruct m' = fdtOffDtStruct m)
    (heq : ∀ x, fdtOffDtStruct m + o ≤ x → x < fdtOffDtStruct m + o + sizes ts → m' x = m x) :
    StructAt m' o ts := by
  induction ts generalizing o with
  | nil => trivial
  | cons t ts ih =>
    rw [sizes_cons] at heq
    push_cast at heq
    have hle := t.bytes_le_size
    refine ⟨?_, ih h.2 fun x hx hx' => heq x (by omega) (by omega)⟩
    rw [hoff]
    exact h.1.congr fun x hx hx' => heq x hx (by omega)

end Tokens

/-! ## What stands in the buffer -/

/-- A call of the writer. -/
inductive Call
  | reserve (addr size : BitVec 64)
  | beginNode (name : List (BitVec 8))
  | endNode
  | property (name val : List (BitVec 8))
  | finish

/-- The call adds a string, and so may change the string table. -/
def Call.IsProperty : Call → Prop
  | property _ _ => True
  | _ => False

/-- The call adds an entry to the reservation map. -/
def Call.IsReserve : Call → Prop
  | reserve _ _ => True
  | _ => False

/-- The strings of a call end with their first 0, and the lengths are `int`s. -/
def Call.Valid : Call → Prop
  | beginNode name => 0 ∉ name ∧ name.length + 1 < 2 ^ 31
  | property name val => 0 ∉ name ∧ name.length + 1 < 2 ^ 31 ∧ val.length < 2 ^ 31
  | _ => True

/-- The string stands in the string table. Its offset counts from the end of the buffer. -/
def Named (bufsize : ℕ) (m : ByteMem) (nameoff : BitVec 32) (s : List (BitVec 8)) : Prop :=
  ∃ k : ℕ, nameoff = BitVec.ofInt 32 (-k) ∧ s.length < k ∧ k ≤ fdtSizeDtStrings m ∧
    m.Holds (bufsize - k) (s ++ [0])

/-- The token that a call writes. -/
inductive Writes (bufsize : ℕ) (m : ByteMem) : Call → Token → Prop
  | beginNode (name : List (BitVec 8)) : Writes bufsize m (.beginNode name) (.beginNode name)
  | endNode : Writes bufsize m .endNode .endNode
  | property {name val : List (BitVec 8)} {nameoff : BitVec 32} (h : 0 ∉ name)
      (hname : Named bufsize m nameoff name) :
      Writes bufsize m (.property name val) (.prop nameoff val)
  | finish : Writes bufsize m .finish .fin

/-- The bytes of the entries of the reservation map. -/
def rsvBytes (rsv : List (BitVec 64 × BitVec 64)) : List (BitVec 8) :=
  rsv.flatMap fun e => be64Bytes e.1 ++ be64Bytes e.2

/-- The buffer of `bufsize` bytes holds the entries `rsv` and the tokens `ts` of the calls `done`,
and outside of it the memory is still `m₀`. -/
structure Layout (bufsize : ℕ) (m₀ m : ByteMem) (rsv : List (BitVec 64 × BitVec 64))
    (done : List Call) (ts : List Token) : Prop where
  magic : fdtMagic m = ~~~magic
  version : fdtVersion m = 17
  lastComp : fdtLastCompVersion m = 16
  total : fdtTotalsize m = bufsize
  rsvmap : fdtOffMemRsvmap m = 48
  off : fdtOffDtStruct m = 48 + 16 * rsv.length
  reserved : m.Holds 48 (rsvBytes rsv)
  size : fdtSizeDtStruct m = sizes ts
  room : fdtOffDtStruct m + fdtSizeDtStruct m + fdtSizeDtStrings m ≤ bufsize
  tokens : StructAt m 0 ts
  written : List.Forall₂ (Writes bufsize m) done ts
  outside : ∀ x : ℤ, x < 0 ∨ bufsize ≤ x → m x = m₀ x

theorem length_rsvBytes (rsv : List (BitVec 64 × BitVec 64)) :
    (rsvBytes rsv).length = 16 * rsv.length := by
  induction rsv with
  | nil => rfl
  | cons e rsv ih =>
    rw [rsvBytes, List.flatMap_cons, List.length_append, ← rsvBytes, ih, List.length_cons]
    show 16 + _ = _
    ring

theorem rsvBytes_concat (rsv : List (BitVec 64 × BitVec 64)) (addr size : BitVec 64) :
    rsvBytes (rsv ++ [(addr, size)]) = rsvBytes rsv ++ (be64Bytes addr ++ be64Bytes size) := by
  simp [rsvBytes]

section Layout

variable {bufsize w : ℕ} {m₀ m m' : ByteMem} {rsv : List (BitVec 64 × BitVec 64)}
  {done cs : List Call} {c : Call} {ts new : List Token} {t : Token}

/-- A string stays in the table while that grows. -/
theorem Named.congr {nameoff : BitVec 32} {s : List (BitVec 8)} (h : Named bufsize m nameoff s)
    (hstr : fdtSizeDtStrings m ≤ fdtSizeDtStrings m')
    (htab : ∀ x : ℤ, bufsize - fdtSizeDtStrings m ≤ x → x < bufsize → m' x = m x) :
    Named bufsize m' nameoff s := by
  obtain ⟨k, hoff, hlen, hk, hholds⟩ := h
  refine ⟨k, hoff, hlen, hk.trans hstr, hholds.congr fun x hx hx' => htab x (by omega) ?_⟩
  simp only [List.length_append, List.length_cons, List.length_nil] at hx'
  omega

theorem Writes.congr (h : Writes bufsize m c t)
    (hstr : fdtSizeDtStrings m ≤ fdtSizeDtStrings m')
    (htab : ∀ x : ℤ, bufsize - fdtSizeDtStrings m ≤ x → x < bufsize → m' x = m x) :
    Writes bufsize m' c t := by
  cases h with
  | beginNode name => exact .beginNode name
  | endNode => exact .endNode
  | property hzero hname => exact .property hzero (hname.congr hstr htab)
  | finish => exact .finish

/-- The words of the header that no call changes. -/
theorem header_congr (heq : ∀ x : ℤ, 16 ≤ x → x < 28 → m' x = m x) :
    fdtOffMemRsvmap m' = fdtOffMemRsvmap m ∧ fdtVersion m' = fdtVersion m ∧
      fdtLastCompVersion m' = fdtLastCompVersion m := by
  have hword : ∀ a : ℤ, 16 ≤ a → a + 4 ≤ 28 → m'.be32 a = m.be32 a := fun a ha ha' =>
    ByteMem.be32_congr fun x hx hx' => heq x (by omega) (by omega)
  refine ⟨?_, ?_, ?_⟩
  · exact congrArg BitVec.toNat (hword 16 (by omega) (by omega))
  · exact congrArg BitVec.toNat (hword 20 (by omega) (by omega))
  · exact congrArg BitVec.toNat (hword 24 (by omega) (by omega))

/-- The map, the tokens and the strings that are there stay while tokens or strings are added
between them. -/
theorem Layout.update (h : Layout bufsize m₀ m rsv done ts)
    (hhead : ∀ x : ℤ, 0 ≤ x → x < 32 → m' x = m x)
    (hblock : ∀ x : ℤ, 48 ≤ x → x < fdtOffDtStruct m + fdtSizeDtStruct m → m' x = m x)
    (htab : ∀ x : ℤ, bufsize - fdtSizeDtStrings m ≤ x → x < bufsize → m' x = m x)
    (hout : ∀ x : ℤ, x < 0 ∨ bufsize ≤ x → m' x = m x)
    (hsize : fdtSizeDtStruct m' = fdtSizeDtStruct m + sizes new)
    (hstr : fdtSizeDtStrings m ≤ fdtSizeDtStrings m')
    (hroom : fdtOffDtStruct m + fdtSizeDtStruct m' + fdtSizeDtStrings m' ≤ bufsize)
    (hnew : fdtOffDtStruct m' = fdtOffDtStruct m → StructAt m' (sizes ts) new)
    (hwrites : List.Forall₂ (Writes bufsize m') cs new) :
    Layout bufsize m₀ m' rsv (done ++ cs) (ts ++ new) := by
  have hword : ∀ a : ℤ, 0 ≤ a → a + 4 ≤ 32 → m'.be32 a = m.be32 a := fun a ha ha' =>
    ByteMem.be32_congr fun x hx hx' => hhead x (by omega) (by omega)
  have hoff : fdtOffDtStruct m' = fdtOffDtStruct m := by
    unfold fdtOffDtStruct
    rw [hword 8 (by omega) (by omega)]
  obtain ⟨hrsvmap, hversion, hlast⟩ :=
    header_congr fun x hx hx' => hhead x (by omega) (by omega)
  have hoff' := h.off
  have hsize' := h.size
  refine ⟨?_, hversion.trans h.version, hlast.trans h.lastComp, ?_, hrsvmap.trans h.rsvmap,
    hoff.trans h.off, ?_, ?_, hoff ▸ hroom, ?_, ?_, ?_⟩
  · exact (hword 0 le_rfl (by omega)).trans h.magic
  · rw [fdtTotalsize, hword 4 (by omega) (by omega)]
    exact h.total
  · refine h.reserved.congr fun x hx hx' => hblock x hx ?_
    rw [length_rsvBytes] at hx'
    omega
  · rw [hsize, h.size, sizes_append]
  · rw [structAt_append, zero_add]
    refine ⟨h.tokens.congr hoff fun x hx hx' => hblock x (by omega) (by omega), hnew hoff⟩
  · refine List.rel_append (h.written.imp fun c t hct => hct.congr hstr htab) hwrites
  · exact fun x hx => (hout x hx).trans (h.outside x hx)

/-! ## Adding a token -/

theorem toNat_ofInt_of_lt {n : ℕ} (h : n < 2 ^ 32) : (BitVec.ofInt 32 n).toNat = n := by
  rw [BitVec.toNat_ofInt]
  omega

theorem toSize_of_lt (hw : 32 ≤ w) {x : ℤ} (h₀ : 0 ≤ x) (h : x < 2 ^ 32) : toSize w x = x := by
  have hpow : (2 : ℤ) ^ 32 ≤ 2 ^ w := pow_le_pow_right₀ (by omega) hw
  exact Int.emod_eq_of_lt h₀ (by omega)

theorem sizeTagalign_of_lt (hw : 32 ≤ w) {n : ℕ} (h : n + 3 < 2 ^ 32) :
    sizeTagalign w n = Token.align n := by
  rw [sizeTagalign, toSize_of_lt hw (by omega) (by omega), Token.align]
  push_cast
  rfl

theorem fdtSizeDtStruct_set {n : ℕ} (h : n < 2 ^ 32) :
    fdtSizeDtStruct (fdtSetSizeDtStruct m n) = n := by
  rw [fdtSizeDtStruct, fdtSetSizeDtStruct, ByteMem.be32_writeBe32, toNat_ofInt_of_lt h]

/-- The space that is grabbed starts behind the tokens. -/
theorem Layout.grab (h : Layout bufsize m₀ m rsv done ts) (hw : 32 ≤ w) (hb : bufsize < 2 ^ 31)
    {len : ℕ} (hlen : len < 2 ^ 32) :
    fdtGrabSpace w m len =
      if fdtOffDtStruct m + fdtSizeDtStruct m + len + fdtSizeDtStrings m ≤ bufsize then
        (some ((fdtOffDtStruct m : ℤ) + fdtSizeDtStruct m),
          fdtSetSizeDtStruct m (fdtSizeDtStruct m + len : ℕ))
      else (none, m) := by
  have hroom := h.room
  have hpow : (2 : ℤ) ^ 32 ≤ 2 ^ w := pow_le_pow_right₀ (by omega) hw
  have hoffset : toInt (fdtSizeDtStruct m) = fdtSizeDtStruct m :=
    toInt_of_lt (by omega) (by omega)
  have hspace : toInt (fdtTotalsize m - fdtOffDtStruct m - fdtSizeDtStrings m) =
      bufsize - fdtOffDtStruct m - fdtSizeDtStrings m := by
    rw [h.total]
    exact toInt_of_lt (by omega) (by omega)
  unfold fdtGrabSpace
  dsimp only
  rw [hoffset, hspace, toSize_of_lt hw (x := bufsize - _ - _) (by omega) (by omega),
    toSize_of_lt hw (x := fdtSizeDtStruct m) (by omega) (by omega)]
  by_cases hwrap : (fdtSizeDtStruct m : ℤ) + len < 2 ^ w
  · have hsum : toSize w (fdtSizeDtStruct m + len) = fdtSizeDtStruct m + len :=
      Int.emod_eq_of_lt (by omega) hwrap
    rw [hsum]
    split_ifs with h₁ h₂ h₂
    · omega
    · rfl
    · rw [fdtOffDtStruct, fdtSetSizeDtStruct, ByteMem.be32_writeBe32_of_ne (by omega)]
      push_cast
      rfl
    · omega
  · -- The sum of two numbers that wraps around is less than each of them.
    have hsum : toSize w (fdtSizeDtStruct m + len) = fdtSizeDtStruct m + len - 2 ^ w := by
      unfold toSize
      rw [← Int.sub_emod_right]
      exact Int.emod_eq_of_lt (by omega) (by omega)
    rw [hsum, if_pos (Or.inl (by omega)), if_neg (by omega)]

/-- A token is written behind those that are there. -/
theorem Layout.append (h : Layout bufsize m₀ m rsv done ts) (hb : bufsize < 2 ^ 31)
    (hroom : fdtOffDtStruct m + fdtSizeDtStruct m + t.size + fdtSizeDtStrings m ≤ bufsize)
    (heq : ∀ x : ℤ, x < fdtOffDtStruct m + fdtSizeDtStruct m ∨
      fdtOffDtStruct m + fdtSizeDtStruct m + t.bytes ≤ x →
        m' x = fdtSetSizeDtStruct m (fdtSizeDtStruct m + t.size : ℕ) x)
    (hat : TokenAt m' (fdtOffDtStruct m + fdtSizeDtStruct m) t) (hwrites : Writes bufsize m c t) :
    Layout bufsize m₀ m' rsv (done ++ [c]) (ts ++ [t]) ∧
      fdtSizeDtStruct m' = fdtSizeDtStruct m + t.size ∧
      fdtSizeDtStrings m' = fdtSizeDtStrings m := by
  have hoff := h.off
  have hbytes := t.bytes_le_size
  have hset : ∀ x : ℤ, x < 36 ∨ 40 ≤ x →
      fdtSetSizeDtStruct m (fdtSizeDtStruct m + t.size : ℕ) x = m x := fun x hx =>
    ByteMem.write_of_outside hx
  have hsize : fdtSizeDtStruct m' = fdtSizeDtStruct m + t.size := by
    have hword := fdtSizeDtStruct_set (m := m) (n := fdtSizeDtStruct m + t.size) (by omega)
    rw [← hword, fdtSizeDtStruct, fdtSizeDtStruct]
    rw [ByteMem.be32_congr fun x hx hx' => heq x (by omega)]
  have hstr : fdtSizeDtStrings m' = fdtSizeDtStrings m := by
    rw [fdtSizeDtStrings, fdtSizeDtStrings]
    rw [ByteMem.be32_congr fun x hx hx' => (heq x (by omega)).trans (hset x (by omega))]
  have htab : ∀ x : ℤ, bufsize - fdtSizeDtStrings m ≤ x → x < bufsize → m' x = m x :=
    fun x hx hx' => (heq x (by omega)).trans (hset x (by omega))
  refine ⟨h.update ?_ ?_ htab ?_ ?_ hstr.ge ?_ ?_ ?_, hsize, hstr⟩
  · exact fun x hx hx' => (heq x (by omega)).trans (hset x (by omega))
  · exact fun x hx hx' => (heq x (by omega)).trans (hset x (by omega))
  · exact fun x hx => (heq x (by omega)).trans (hset x (by omega))
  · rw [hsize, sizes_cons]
    rfl
  · omega
  · intro hoff'
    refine ⟨?_, trivial⟩
    rw [hoff', ← h.size]
    exact hat
  · exact .cons (hwrites.congr hstr.ge htab) .nil

end Layout

/-! ## The calls -/

/-- The bytes that a call may need. -/
def Call.need : Call → ℕ
  | reserve _ _ => 16
  | beginNode name => (Token.beginNode name).size
  | endNode => Token.endNode.size
  | property name val => (Token.prop 0 val).size + (name.length + 1)
  | finish => Token.fin.size

/-- What a call leads to that needs at most `need` bytes : it has written its token, or there was
no room. -/
def Outcome (bufsize : ℕ) (m₀ m : ByteMem) (rsv : List (BitVec 64 × BitVec 64))
    (done : List Call) (ts : List Token) (c : Call) (need : ℕ) (r : ℤ × ByteMem) : Prop :=
  (r.1 = 0 ∧ (∃ t, Layout bufsize m₀ r.2 rsv (done ++ [c]) (ts ++ [t])) ∧
      fdtSizeDtStruct r.2 + fdtSizeDtStrings r.2 ≤
        fdtSizeDtStruct m + fdtSizeDtStrings m + need) ∨
    (r.1 = errNospace ∧ Layout bufsize m₀ r.2 rsv done ts ∧ (c.IsProperty ∨ r.2 = m) ∧
      bufsize < fdtOffDtStruct m + fdtSizeDtStruct m + fdtSizeDtStrings m + need)

section Calls

variable {bufsize w : ℕ} {m₀ m : ByteMem} {rsv : List (BitVec 64 × BitVec 64)}
  {done : List Call} {c : Call} {ts : List Token} {t : Token} {name val s : List (BitVec 8)}
  (h : Layout bufsize m₀ m rsv done ts) (hw : 32 ≤ w) (hb : bufsize < 2 ^ 31)

include h

theorem Layout.check : fdtSwCheckHeader m = 0 :=
  if_neg (not_not.mpr h.magic)

include hw hb

/-- Space for a token is grabbed and filled, or there is none. -/
theorem Layout.grabToken (hsize : t.size < 2 ^ 32) (hwrites : Writes bufsize m c t) :
    (fdtGrabSpace w m t.size = (none, m) ∧
        Outcome bufsize m₀ m rsv done ts c t.size (errNospace, m)) ∨
      ∃ (p : ℤ) (m₁ : ByteMem), fdtGrabSpace w m t.size = (some p, m₁) ∧
        ∀ m', (∀ x, x < p ∨ p + t.bytes ≤ x → m' x = m₁ x) → TokenAt m' p t →
          Outcome bufsize m₀ m rsv done ts c t.size (0, m') := by
  rw [h.grab hw hb hsize]
  split_ifs with hroom
  · refine Or.inr ⟨_, _, rfl, fun m' heq hat => Or.inl ⟨rfl, ?_⟩⟩
    obtain ⟨hlayout, hsize', hstr⟩ := h.append hb hroom heq hat hwrites
    exact ⟨⟨_, hlayout⟩, by dsimp only; omega⟩
  · exact Or.inl ⟨rfl, Or.inr ⟨rfl, h, Or.inr rfl, by omega⟩⟩

/-- `fdt_begin_node`. -/
theorem Layout.beginNode (hname : 0 ∉ name) (hlen : name.length + 1 < 2 ^ 31) :
    Outcome bufsize m₀ m rsv done ts (.beginNode name) (Call.beginNode name).need
      (fdtBeginNode w m name) := by
  have hle : Token.align (name.length + 1) ≤ name.length + 4 := by
    unfold Token.align
    omega
  have hsize : (Token.beginNode name).size = 4 + Token.align (name.length + 1) := by
    rw [Token.size, Token.bytes, Token.align, Token.align]
    omega
  have hspace : toSize w (4 + sizeTagalign w (name.length + 1)) =
      ((Token.beginNode name).size : ℕ) := by
    have hcast : sizeTagalign w (name.length + 1) = Token.align (name.length + 1) := by
      exact_mod_cast sizeTagalign_of_lt hw (n := name.length + 1) (by omega)
    rw [hcast, toSize_of_lt hw (by omega) (by omega), hsize]
    push_cast
    rfl
  unfold fdtBeginNode
  rw [if_neg (not_not.mpr h.check), hspace]
  rcases h.grabToken hw hb (by omega) (.beginNode name) with
    ⟨hgrab, hout⟩ | ⟨p, m₁, hgrab, hout⟩
  · rw [hgrab]
    exact hout
  · rw [hgrab]
    refine hout _ (fun x hx => ?_) ⟨?_, hname, ByteMem.holds_write _ _ _⟩
    · rw [Token.bytes] at hx
      push_cast at hx
      have hlen' : ((name ++ [0]).length : ℤ) = name.length + 1 := by simp
      rw [ByteMem.write_of_outside (by omega), ByteMem.writeBe32_of_outside (by omega)]
    · rw [ByteMem.be32_write (by omega), ByteMem.be32_writeBe32]
      rfl

/-- `fdt_end_node`. -/
theorem Layout.endNode :
    Outcome bufsize m₀ m rsv done ts .endNode Call.endNode.need (fdtEndNode w m) := by
  unfold fdtEndNode
  rw [if_neg (not_not.mpr h.check)]
  rcases h.grabToken hw hb (by decide) .endNode with
    ⟨hgrab, hout⟩ | ⟨p, m₁, hgrab, hout⟩
  · rw [show (4 : ℤ) = (Token.endNode.size : ℕ) from rfl, hgrab]
    exact hout
  · rw [show (4 : ℤ) = (Token.endNode.size : ℕ) from rfl, hgrab]
    refine hout _ (fun x hx => ?_) ⟨ByteMem.be32_writeBe32 _ _ _, trivial⟩
    exact ByteMem.write_of_outside hx

omit h hw hb in
/-- A string that is found stands in the table. -/
theorem holds_of_findStringLoop {n : ℕ} {p q : ℤ} (hfind : findStringLoop m s n p = some q) :
    p ≤ q ∧ q < p + n ∧ m.Holds q (s ++ [0]) := by
  induction n generalizing p with
  | zero => simp [findStringLoop] at hfind
  | succ n ih =>
    rw [findStringLoop] at hfind
    split at hfind
    · rename_i hread
      obtain rfl := Option.some.inj hfind
      refine ⟨le_rfl, by push_cast; omega, ByteMem.holds_iff_read.mpr ?_⟩
      rwa [List.length_append]
    · obtain ⟨hle, hlt, hholds⟩ := ih hfind
      exact ⟨by omega, by push_cast; omega, hholds⟩

omit hw in
/-- A string is written in front of the table. -/
theorem Layout.addString
    (hroom : fdtOffDtStruct m + fdtSizeDtStruct m + fdtSizeDtStrings m + (s.length + 1) ≤ bufsize)
    {m' : ByteMem} (hm' : m' = fdtSetSizeDtStrings (m.write
      (bufsize + (-(fdtSizeDtStrings m : ℤ) - (s.length + 1))) (s ++ [0]))
        (fdtSizeDtStrings m + (s.length + 1))) :
    Layout bufsize m₀ m' rsv done ts ∧
      Named bufsize m' (BitVec.ofInt 32 (-(fdtSizeDtStrings m : ℤ) - (s.length + 1))) s ∧
      fdtSizeDtStruct m' = fdtSizeDtStruct m ∧
      fdtSizeDtStrings m' = fdtSizeDtStrings m + (s.length + 1) := by
  have hoff := h.off
  have hlen : ((s ++ [0]).length : ℤ) = s.length + 1 := by simp
  have hcast : (fdtSizeDtStrings m + (s.length + 1) : ℤ) =
      ((fdtSizeDtStrings m + (s.length + 1) : ℕ) : ℤ) := by push_cast; ring
  have hplace : (bufsize : ℤ) + (-(fdtSizeDtStrings m : ℤ) - (s.length + 1)) =
      bufsize - (fdtSizeDtStrings m + (s.length + 1) : ℕ) := by push_cast; ring
  have hstr : fdtSizeDtStrings m' = fdtSizeDtStrings m + (s.length + 1) := by
    rw [hm', fdtSetSizeDtStrings, hcast, fdtSizeDtStrings, ByteMem.be32_writeBe32,
      toNat_ofInt_of_lt (by omega)]
  have hset : ∀ x : ℤ, x < 32 ∨ 36 ≤ x → m' x = m.write
      (bufsize + (-(fdtSizeDtStrings m : ℤ) - (s.length + 1))) (s ++ [0]) x := fun x hx =>
    hm' ▸ ByteMem.write_of_outside hx
  have heq : ∀ x : ℤ, x < 32 ∨ 36 ≤ x →
      x < bufsize - fdtSizeDtStrings m - (s.length + 1) ∨ bufsize - fdtSizeDtStrings m ≤ x →
        m' x = m x := fun x hx hx' =>
    (hset x hx).trans (ByteMem.write_of_outside (by omega))
  have hsize : fdtSizeDtStruct m' = fdtSizeDtStruct m :=
    congrArg BitVec.toNat (ByteMem.be32_congr fun x hx hx' => heq x (by omega) (by omega))
  have hlayout : Layout bufsize m₀ m' rsv (done ++ []) (ts ++ []) := by
    refine h.update ?_ ?_ ?_ ?_ ?_ (by omega) (by omega) (fun _ => trivial) .nil
    · exact fun x hx hx' => heq x (by omega) (by omega)
    · exact fun x hx hx' => heq x (by omega) (by omega)
    · exact fun x hx hx' => heq x (by omega) (by omega)
    · exact fun x hx => heq x (by omega) (by omega)
    · rw [hsize]
      rfl
  rw [List.append_nil, List.append_nil] at hlayout
  refine ⟨hlayout, ⟨fdtSizeDtStrings m + (s.length + 1), ?_, by omega, hstr.ge, ?_⟩, hsize, hstr⟩
  · exact congrArg (BitVec.ofInt 32) (by push_cast; ring)
  · rw [← hplace]
    exact (ByteMem.holds_write _ _ _).congr fun x hx _ => hset x (by omega)

omit hw in
/-- `_fdt_find_add_string`, for a string that is not longer than the buffer up to the table. -/
theorem Layout.findAddString (hs : s.length + 1 + fdtSizeDtStrings m ≤ bufsize) :
    (fdtFindAddString m s = (0, m) ∧ bufsize < fdtOffDtStruct m + fdtSizeDtStruct m +
      fdtSizeDtStrings m + (s.length + 1)) ∨
    ∃ (nameoff : ℤ) (m' : ByteMem), fdtFindAddString m s = (nameoff, m') ∧ nameoff ≠ 0 ∧
      Layout bufsize m₀ m' rsv done ts ∧ Named bufsize m' (BitVec.ofInt 32 nameoff) s ∧
      fdtSizeDtStruct m' = fdtSizeDtStruct m ∧
      fdtSizeDtStrings m' ≤ fdtSizeDtStrings m + (s.length + 1) := by
  have hroom := h.room
  have hoff := h.off
  have hstrings : toInt (fdtSizeDtStrings m) = fdtSizeDtStrings m :=
    toInt_of_lt (by omega) (by omega)
  have htop : toInt (fdtOffDtStruct m + fdtSizeDtStruct m) =
      fdtOffDtStruct m + fdtSizeDtStruct m :=
    toInt_of_lt (by omega) (by omega)
  unfold fdtFindAddString
  dsimp only
  rw [hstrings, h.total]
  cases hfind : fdtFindString m (bufsize - fdtSizeDtStrings m) (fdtSizeDtStrings m) s with
  | some q =>
    obtain ⟨hle, hlt, hholds⟩ := holds_of_findStringLoop hfind
    obtain ⟨k, hk⟩ : ∃ k : ℕ, q = bufsize - k := ⟨(bufsize - q).toNat, by omega⟩
    subst hk
    have hk : BitVec.ofInt 32 (bufsize - k - bufsize) = BitVec.ofInt 32 (-k) :=
      congrArg (BitVec.ofInt 32) (by ring)
    rw [addUnlessFound, h.total]
    exact Or.inr ⟨_, m, rfl, by omega, h, ⟨k, hk, by omega, by omega, hholds⟩, rfl, by omega⟩
  | none =>
    unfold addUnlessFound
    dsimp only
    rw [hstrings, htop, h.total, toUnsigned_of_lt (x := bufsize + _) (by omega) (by omega),
      toUnsigned_of_lt (x := fdtOffDtStruct m + _) (by omega) (by omega)]
    split_ifs with hlt
    · exact Or.inl ⟨rfl, by omega⟩
    · obtain ⟨hlayout, hnamed, hsize, hstr⟩ := h.addString hb (s := s) (by omega) rfl
      exact Or.inr ⟨_, _, rfl, by omega, hlayout, hnamed, hsize, hstr.le⟩

omit hw hb in
/-- A call that begins after a string has been added. -/
theorem Layout.of_added {m₁ : ByteMem} (h₁ : Layout bufsize m₀ m₁ rsv done ts) {n k : ℕ}
    {r : ℤ × ByteMem} (hc : c.IsProperty) (hout : Outcome bufsize m₀ m₁ rsv done ts c n r)
    (hstruct : fdtSizeDtStruct m₁ = fdtSizeDtStruct m)
    (hstr : fdtSizeDtStrings m₁ ≤ fdtSizeDtStrings m + k) :
    Outcome bufsize m₀ m rsv done ts c (n + k) r := by
  have hoff := h.off
  have hoff₁ := h₁.off
  rcases hout with ⟨hr, ht, hle⟩ | ⟨hr, ht, -, hlt⟩
  · exact Or.inl ⟨hr, ht, by omega⟩
  · exact Or.inr ⟨hr, ht, Or.inl hc, by omega⟩

/-- `fdt_property`, for a name that is not longer than the buffer up to the table. -/
theorem Layout.property (hname : 0 ∉ name) (hval : val.length < 2 ^ 31)
    (hs : name.length + 1 + fdtSizeDtStrings m ≤ bufsize) :
    Outcome bufsize m₀ m rsv done ts (.property name val) (Call.property name val).need
      (fdtProperty w m name val) := by
  have hsize : ∀ nameoff, (Token.prop nameoff val).size = 12 + Token.align val.length := by
    intro nameoff
    rw [Token.size, Token.bytes, Token.align, Token.align]
    omega
  have hle : Token.align val.length ≤ val.length + 3 := by
    unfold Token.align
    omega
  have hspace : ∀ nameoff, toSize w (12 + sizeTagalign w val.length) =
      ((Token.prop nameoff val).size : ℕ) := by
    intro nameoff
    rw [sizeTagalign_of_lt hw (by omega), toSize_of_lt hw (by omega) (by omega), hsize]
    push_cast
    rfl
  have hneed : (Call.property name val).need = (Token.prop 0 val).size + (name.length + 1) := rfl
  rw [fdtProperty, if_neg (not_not.mpr h.check), hneed]
  rcases h.findAddString hb hs with
    ⟨hadd, hfull⟩ | ⟨nameoff, m₁, hadd, hne, h₁, hnamed, hstruct, hstr⟩
  · rw [hadd]
    exact Or.inr ⟨rfl, h, Or.inl trivial, by omega⟩
  · rw [hadd]
    dsimp only
    rw [if_neg hne, hspace (BitVec.ofInt 32 nameoff)]
    refine h.of_added h₁ trivial ?_ hstruct hstr
    rw [hsize 0, ← hsize (BitVec.ofInt 32 nameoff)]
    rcases h₁.grabToken hw hb (by rw [hsize]; omega) (.property hname hnamed) with
      ⟨hgrab, hout⟩ | ⟨p, m₂, hgrab, hout⟩
    · rw [hgrab]
      exact hout
    · rw [hgrab]
      refine hout _ (fun x hx => ?_) ⟨?_, ?_, ?_, ByteMem.holds_write _ _ _⟩
      · rw [Token.bytes] at hx
        push_cast at hx
        rw [ByteMem.write_of_outside (by omega)]
        simp (disch := omega) only [ByteMem.writeBe32_of_outside]
      · rw [ByteMem.be32_write (by omega), ByteMem.be32_writeBe32_of_ne (by omega),
          ByteMem.be32_writeBe32_of_ne (by omega), ByteMem.be32_writeBe32]
        rfl
      · rw [ByteMem.be32_write (by omega), ByteMem.be32_writeBe32]
        exact BitVec.ofInt_natCast ..
      · rw [ByteMem.be32_write (by omega), ByteMem.be32_writeBe32_of_ne (by omega),
          ByteMem.be32_writeBe32]

omit h hw in
/-- An entry is written where the tokens would begin. -/
theorem Layout.addEntry (h : Layout bufsize m₀ m rsv done []) (hstr : fdtSizeDtStrings m = 0)
    (hroom : fdtOffDtStruct m + 16 ≤ bufsize) {addr size : BitVec 64} {m' : ByteMem}
    (hm' : m' = fdtSetOffDtStruct ((m.write (fdtOffDtStruct m) (be64Bytes addr)).write
      (fdtOffDtStruct m + 8) (be64Bytes size)) (fdtOffDtStruct m + 16)) :
    Layout bufsize m₀ m' (rsv ++ [(addr, size)]) done [] ∧ fdtSizeDtStrings m' = 0 := by
  have hoff := h.off
  have hlen : ∀ v, ((be64Bytes v).length : ℤ) = 8 := fun _ => rfl
  have hset : ∀ x : ℤ, x < 8 ∨ 12 ≤ x → m' x = (m.write (fdtOffDtStruct m)
      (be64Bytes addr)).write (fdtOffDtStruct m + 8) (be64Bytes size) x := fun x hx =>
    hm' ▸ ByteMem.write_of_outside hx
  have heq : ∀ x : ℤ, x < 8 ∨ 12 ≤ x → x < fdtOffDtStruct m ∨ fdtOffDtStruct m + 16 ≤ x →
      m' x = m x := by
    intro x hx hx'
    rw [hset x hx, ByteMem.write_of_outside (by rw [hlen]; omega),
      ByteMem.write_of_outside (by rw [hlen]; omega)]
  have hentry : m'.Holds (fdtOffDtStruct m) (be64Bytes addr ++ be64Bytes size) := by
    refine ByteMem.Holds.congr ?_ fun x hx _ => hset x (by omega)
    rw [ByteMem.holds_append, hlen]
    exact ⟨(ByteMem.holds_write _ _ _).write (Or.inl (by rw [hlen])), ByteMem.holds_write _ _ _⟩
  have hword : ∀ a : ℤ, 0 ≤ a → a + 4 ≤ 8 ∨ 12 ≤ a ∧ a + 4 ≤ 48 → m'.be32 a = m.be32 a :=
    fun a ha ha' => ByteMem.be32_congr fun x hx hx' => heq x (by omega) (by omega)
  obtain ⟨hrsvmap, hversion, hlast⟩ :=
    header_congr fun x hx hx' => heq x (by omega) (by omega)
  have hoff' : fdtOffDtStruct m' = fdtOffDtStruct m + 16 := by
    have hcast : (fdtOffDtStruct m + 16 : ℤ) = ((fdtOffDtStruct m + 16 : ℕ) : ℤ) := by
      push_cast
      rfl
    rw [hm', fdtSetOffDtStruct, hcast, fdtOffDtStruct, ByteMem.be32_writeBe32,
      toNat_ofInt_of_lt (by omega)]
  have hstr' : fdtSizeDtStrings m' = 0 :=
    (congrArg BitVec.toNat (hword 32 (by omega) (by omega))).trans hstr
  have hsize' : fdtSizeDtStruct m' = 0 :=
    (congrArg BitVec.toNat (hword 36 (by omega) (by omega))).trans h.size
  refine ⟨⟨?_, hversion.trans h.version, hlast.trans h.lastComp, ?_, hrsvmap.trans h.rsvmap, ?_,
    ?_, hsize', by omega, trivial, ?_, ?_⟩, hstr'⟩
  · exact (hword 0 le_rfl (by omega)).trans h.magic
  · rw [fdtTotalsize, hword 4 (by omega) (by omega)]
    exact h.total
  · rw [hoff', List.length_append, List.length_singleton]
    omega
  · rw [rsvBytes_concat, ByteMem.holds_append, length_rsvBytes]
    refine ⟨h.reserved.congr fun x hx hx' => ?_, ?_⟩
    · rw [length_rsvBytes] at hx'
      exact heq x (by omega) (by omega)
    · rw [show (48 : ℤ) + (16 * rsv.length : ℕ) = fdtOffDtStruct m by rw [hoff]; push_cast; rfl]
      exact hentry
  · cases h.written
    exact .nil
  · exact fun x hx => (heq x (by omega) (by omega)).trans (h.outside x hx)

/-- `fdt_add_reservemap_entry`, if there are no strings before the first token. -/
theorem Layout.reserve (hstr : ts = [] → fdtSizeDtStrings m = 0) (addr size : BitVec 64) :
    (∃ m', fdtAddReservemapEntry w m addr size = (0, m') ∧ ts = [] ∧
      Layout bufsize m₀ m' (rsv ++ [(addr, size)]) done ts ∧ fdtSizeDtStrings m' = 0) ∨
    ∃ e, fdtAddReservemapEntry w m addr size = (e, m) ∧ e ≠ 0 ∧
      (ts = [] → bufsize < fdtOffDtStruct m + 16) := by
  have hroom := h.room
  have hoff := h.off
  have hoffset : toInt (fdtOffDtStruct m) = fdtOffDtStruct m := toInt_of_lt (by omega) (by omega)
  unfold fdtAddReservemapEntry
  rw [if_neg (not_not.mpr h.check)]
  split_ifs with hsize
  · refine Or.inr ⟨_, rfl, by decide, ?_⟩
    rintro rfl
    exact absurd h.size hsize
  · have hnil : ts = [] := by
      have hlen := length_le_sizes ts
      rw [← h.size] at hlen
      exact List.length_eq_zero_iff.mp (by omega)
    subst hnil
    dsimp only
    rw [hoffset, h.total, toSize_of_lt hw (by omega) (by omega)]
    split_ifs with hlt
    · exact Or.inr ⟨_, rfl, by decide, fun _ => by omega⟩
    · obtain ⟨hlayout, hstr'⟩ := h.addEntry hb (hstr rfl) (by omega) rfl
      exact Or.inl ⟨_, rfl, rfl, hlayout, hstr'⟩

/-- The header that `fdt_create` writes, and the rest of the memory. -/
structure Created (bufsize : ℕ) (m₀ m : ByteMem) : Prop where
  magic : fdtMagic m = ~~~magic
  version : fdtVersion m = 17
  lastComp : fdtLastCompVersion m = 16
  total : fdtTotalsize m = bufsize
  rsvmap : fdtOffMemRsvmap m = 48
  off : fdtOffDtStruct m = 48
  size : fdtSizeDtStruct m = 0
  strings : fdtSizeDtStrings m = 0
  outside : ∀ x : ℤ, x < 0 ∨ bufsize ≤ x → m x = m₀ x

omit h in
/-- `fdt_create`, in a buffer with room for the header. -/
theorem exists_created (hmin : 40 ≤ bufsize) (m : ByteMem) :
    ∃ m', fdtCreate w m bufsize = (0, m') ∧ Created bufsize m m' := by
  unfold fdtCreate
  rw [toSize_of_lt hw (by omega) (by omega), if_neg (by omega)]
  refine ⟨_, rfl, ?_⟩
  generalize hm₁ : m.write 0 (List.replicate (bufsize : ℤ).toNat 0) = m₁
  have hlen : ((List.replicate (bufsize : ℤ).toNat (0 : BitVec 8)).length : ℤ) = bufsize := by
    simp
  have hzero : ∀ x : ℤ, 0 ≤ x → x < bufsize → m₁ x = 0 := by
    intro x hx hx'
    rw [← hm₁, ByteMem.write, if_pos (by omega), List.getD_eq_getElem?_getD,
      List.getElem?_replicate]
    split <;> rfl
  have hzero' : ∀ a : ℤ, 0 ≤ a → a + 4 ≤ bufsize → m₁.be32 a = 0 := by
    intro a ha ha'
    rw [ByteMem.be32, hzero a (by omega) (by omega), hzero (a + 1) (by omega) (by omega),
      hzero (a + 2) (by omega) (by omega), hzero (a + 3) (by omega) (by omega)]
    rfl
  have hout : ∀ x : ℤ, x < 0 ∨ bufsize ≤ x → m₁ x = m x := fun x hx =>
    hm₁ ▸ ByteMem.write_of_outside (by omega)
  have halign : fdtAlign 40 16 = (48 : ℕ) := rfl
  simp only [fdtSetMagic, fdtSetVersion, fdtSetLastCompVersion, fdtSetTotalsize,
    fdtSetOffMemRsvmap, fdtSetOffDtStruct, fdtSetOffDtStrings, fdtOffMemRsvmap,
    ByteMem.be32_writeBe32, halign, toNat_ofInt_of_lt (show 48 < 2 ^ 32 by omega)]
  generalize hm' : ((((((m₁.writeBe32 0 (~~~Libfdt.magic)).writeBe32 20
    (BitVec.ofInt 32 17)).writeBe32 24 (BitVec.ofInt 32 16)).writeBe32 4
      (BitVec.ofInt 32 bufsize)).writeBe32 16 (BitVec.ofInt 32 (48 : ℕ))).writeBe32 8
        (BitVec.ofInt 32 (48 : ℕ))).writeBe32 12 (BitVec.ofInt 32 bufsize) = m'
  have heq : ∀ x : ℤ, x < 0 ∨ 28 ≤ x → m' x = m₁ x := by
    intro x hx
    rw [← hm']
    simp (disch := omega) only [ByteMem.writeBe32_of_outside]
  have hsize : m'.be32 36 = 0 :=
    (ByteMem.be32_congr fun x hx _ => heq x (by omega)).trans (hzero' 36 (by omega) (by omega))
  have hstr : m'.be32 32 = 0 :=
    (ByteMem.be32_congr fun x hx _ => heq x (by omega)).trans (hzero' 32 (by omega) (by omega))
  refine ⟨?_, ?_, ?_, ?_, ?_, ?_, congrArg BitVec.toNat hsize, congrArg BitVec.toNat hstr, ?_⟩
  · rw [fdtMagic, ← hm']
    simp (disch := omega) only [ByteMem.be32_writeBe32_of_ne, ByteMem.be32_writeBe32]
  · rw [fdtVersion, ← hm']
    simp (disch := omega) only [ByteMem.be32_writeBe32_of_ne, ByteMem.be32_writeBe32]
    rfl
  · rw [fdtLastCompVersion, ← hm']
    simp (disch := omega) only [ByteMem.be32_writeBe32_of_ne, ByteMem.be32_writeBe32]
    rfl
  · rw [fdtTotalsize, ← hm']
    simp (disch := omega) only [ByteMem.be32_writeBe32_of_ne, ByteMem.be32_writeBe32]
    exact toNat_ofInt_of_lt (by omega)
  · rw [fdtOffMemRsvmap, ← hm']
    simp (disch := omega) only [ByteMem.be32_writeBe32_of_ne, ByteMem.be32_writeBe32]
    rfl
  · rw [fdtOffDtStruct, ← hm']
    simp (disch := omega) only [ByteMem.be32_writeBe32_of_ne, ByteMem.be32_writeBe32]
    rfl
  · exact fun x hx => (heq x (by omega)).trans (hout x hx)

omit h hw hb in
/-- With room for the alignment of the map, too, the buffer can be written to. -/
theorem Created.layout (hc : Created bufsize m₀ m) (hmin : 48 ≤ bufsize) :
    Layout bufsize m₀ m [] [] [] := by
  have hoff := hc.off
  have hsize := hc.size
  have hstr := hc.strings
  exact ⟨hc.magic, hc.version, hc.lastComp, hc.total, hc.rsvmap, hoff, trivial, hsize, by omega,
    trivial, .nil, hc.outside⟩

omit h in
/-- Without it, the room that `_fdt_grab_space` sees is negative, and so no bound. -/
theorem Created.beginNode_of_lt (hc : Created bufsize m₀ m) (hmin : bufsize < 48) :
    ∃ m', fdtBeginNode w m [] = (0, m') ∧ m' 48 = 0 := by
  have hpow : (2 : ℤ) ^ 32 ≤ 2 ^ w := pow_le_pow_right₀ (by omega) hw
  have halign : toSize w (4 + sizeTagalign w (([] : List (BitVec 8)).length + 1)) = 8 := by
    have hone : sizeTagalign w (([] : List (BitVec 8)).length + 1) = 4 :=
      sizeTagalign_of_lt hw (n := 1) (by omega)
    rw [hone, toSize_of_lt hw (by omega) (by omega)]
    rfl
  have hgrab : fdtGrabSpace w m 8 = (some 48, fdtSetSizeDtStruct m 8) := by
    have hspace : toInt (bufsize - (48 : ℕ) - (0 : ℕ)) = bufsize - 48 := by
      rw [toInt, Int.bmod_eq_of_le (by omega) (by omega)]
      omega
    unfold fdtGrabSpace
    dsimp only
    rw [hc.total, hc.off, hc.size, hc.strings, hspace,
      show toSize w (toInt (0 : ℕ) + 8) = 8 from toSize_of_lt hw (by decide) (by decide), if_neg]
    · rw [fdtOffDtStruct, fdtSetSizeDtStruct, ByteMem.be32_writeBe32_of_ne (by omega)]
      have hoff := hc.off
      rw [fdtOffDtStruct] at hoff
      rw [hoff]
      rfl
    · have hzero : toSize w (toInt (0 : ℕ)) = 0 := toSize_of_lt hw (by decide) (by decide)
      have hneg : toSize w (bufsize - 48) = bufsize - 48 + 2 ^ w := by
        rw [toSize, ← Int.add_emod_right, Int.emod_eq_of_lt (by omega) (by omega)]
      rw [hzero, hneg]
      omega
  have hcheck : fdtSwCheckHeader m = 0 := if_neg (not_not.mpr hc.magic)
  rw [fdtBeginNode, if_neg (not_not.mpr hcheck), halign, hgrab]
  refine ⟨_, rfl, ?_⟩
  rw [ByteMem.write_of_outside (by decide)]
  exact (ByteMem.holds_write _ 48 (ByteMem.be32Bytes Libfdt.beginNode)).1

end Calls

end Libfdt

end AcrnUt
