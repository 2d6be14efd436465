import AcrnUt.FdtWrite

/-!
# Finishing a device tree blob

`fdt_finish` of `lib/libfdt/fdt_sw.c` ends the tokens, moves the string table down to them and goes
over the properties to correct their names' offsets, which have counted from the end of the buffer
(`Libfdt.Layout.finish`). Afterwards the magic number is that of a blob, and every call fails.

So no run of the writer changes a byte outside of its buffer, whatever the calls are and wherever
they fail, if the buffer has 48 bytes, no name of a property is longer than 47 characters and no
property comes before an entry of the reservation map (`Libfdt.runCalls_inside`).
-/

set_option linter.unusedSectionVars false

namespace AcrnUt

namespace Libfdt

/-! ## The walk over the properties -/

/-- A property whose name has moved by `d` bytes. -/
def Token.relocate (d : BitVec 32) : Token → Token
  | prop nameoff data => prop (nameoff + d) data
  | t => t

@[simp] theorem Token.bytes_relocate (d : BitVec 32) (t : Token) :
    (t.relocate d).bytes = t.bytes := by
  cases t <;> rfl

@[simp] theorem Token.size_relocate (d : BitVec 32) (t : Token) : (t.relocate d).size = t.size := by
  rw [Token.size, Token.bytes_relocate, Token.size]

theorem sizes_map_relocate (d : BitVec 32) (ts : List Token) :
    sizes (ts.map (Token.relocate d)) = sizes ts := by
  simp only [sizes, List.map_map, Function.comp_def, Token.size_relocate]

section Walk

variable {m : ByteMem} {ts : List Token} {t : Token} {fuel : ℕ} {o : ℤ}

/-- A step of the walk : the token at `o` is relocated, and nothing else changes. -/
theorem relocateLoop_step (hat : TokenAt m (fdtOffDtStruct m + o) t) (hfin : t ≠ .fin)
    (hnext : fdtNextTag fuel m o = some (t.tag, o + t.size)) (k : ℕ) :
    ∃ m₁, relocateLoop fuel (k + 1) m o = relocateLoop fuel k m₁ (o + t.size) ∧
      TokenAt m₁ (fdtOffDtStruct m + o) (t.relocate (m.be32 32)) ∧
      ∀ x, x < fdtOffDtStruct m + o ∨ fdtOffDtStruct m + o + t.bytes ≤ x → m₁ x = m x := by
  rw [relocateLoop, hnext]
  dsimp only
  cases t with
  | prop nameoff data =>
    obtain ⟨htag, hlen, hoff, hdata⟩ := hat
    rw [Token.tag, if_neg (by decide), if_pos rfl, hoff]
    refine ⟨_, rfl, ⟨?_, ?_, ByteMem.be32_writeBe32 _ _ _, ?_⟩, fun x hx => ?_⟩
    · rw [ByteMem.be32_writeBe32_of_ne (by omega), htag]
      rfl
    · rw [ByteMem.be32_writeBe32_of_ne (by omega), hlen]
    · exact hdata.congr fun x hx _ => ByteMem.writeBe32_of_outside (by omega)
    · rw [Token.bytes] at hx
      push_cast at hx
      exact ByteMem.writeBe32_of_outside (by omega)
  | fin => exact absurd rfl hfin
  | beginNode name =>
    rw [Token.tag, if_neg (by decide), if_neg (by decide)]
    exact ⟨m, rfl, hat, fun _ _ => rfl⟩
  | endNode =>
    rw [Token.tag, if_neg (by decide), if_neg (by decide)]
    exact ⟨m, rfl, hat, fun _ _ => rfl⟩
  | nop =>
    rw [Token.tag, if_neg (by decide), if_neg (by decide)]
    exact ⟨m, rfl, hat, fun _ _ => rfl⟩

/-- The walk relocates each property in front of the end, and changes nothing else. -/
theorem relocateLoop_eq (hat : StructAt m o (ts ++ [.fin])) (hfin : .fin ∉ ts) (ho : 0 ≤ o)
    (halign : o % 4 = 0) (hoff : 40 ≤ fdtOffDtStruct m)
    (hsize : o + sizes (ts ++ [.fin]) ≤ fdtSizeDtStruct m) (hsmall : fdtSizeDtStruct m < 2 ^ 31)
    (hfuel : fdtSizeDtStruct m ≤ fuel) {k : ℕ} (hk : ts.length < k) :
    ∃ m', relocateLoop fuel k m o = some (o + sizes (ts ++ [.fin]), m') ∧
      StructAt m' o (ts.map (Token.relocate (m.be32 32)) ++ [.fin]) ∧
      ∀ x, x < fdtOffDtStruct m + o ∨ fdtOffDtStruct m + o + sizes ts ≤ x → m' x = m x := by
  obtain ⟨k, rfl⟩ := Nat.exists_eq_add_one_of_ne_zero (Nat.ne_of_gt (Nat.zero_lt_of_lt hk))
  induction ts generalizing m o k with
  | nil =>
    obtain ⟨htag, -⟩ := step_cons hat ho halign hsize hsmall hfuel
    refine ⟨m, ?_, hat, fun _ _ => rfl⟩
    rw [relocateLoop, htag]
    rfl
  | cons t ts ih =>
    rw [List.cons_append] at hat hsize
    obtain ⟨htag, -, hn, hmod, hsize'⟩ := step_cons hat ho halign hsize hsmall hfuel
    rw [List.mem_cons, not_or] at hfin
    rw [List.length_cons] at hk
    obtain ⟨m₁, hloop, hat₁, heq⟩ := relocateLoop_step hat.1 (Ne.symm hfin.1) htag k
    obtain ⟨k, rfl⟩ := Nat.exists_eq_add_one_of_ne_zero (show k ≠ 0 by omega)
    have hle := t.bytes_le_size
    have hword : ∀ a : ℤ, a + 4 ≤ 40 → m₁.be32 a = m.be32 a := fun a ha =>
      ByteMem.be32_congr fun x hx hx' => heq x (by omega)
    have hoff₁ : fdtOffDtStruct m₁ = fdtOffDtStruct m := congrArg BitVec.toNat (hword 8 (by omega))
    have hsize₁ : fdtSizeDtStruct m₁ = fdtSizeDtStruct m :=
      congrArg BitVec.toNat (hword 36 (by omega))
    have hrest : StructAt m₁ (o + t.size) (ts ++ [.fin]) :=
      hat.2.congr hoff₁ fun x hx _ => heq x (by omega)
    obtain ⟨m', hloop', hat', heq'⟩ := ih hrest hfin.2 hn hmod (hoff₁ ▸ hoff) (hsize₁ ▸ hsize')
      (hsize₁ ▸ hsmall) (hsize₁ ▸ hfuel) k (by omega)
    rw [hoff₁] at heq'
    rw [hword 32 (by omega)] at hat'
    have hoff' : fdtOffDtStruct m' = fdtOffDtStruct m := by
      rw [← hoff₁]
      exact congrArg BitVec.toNat (ByteMem.be32_congr fun x hx hx' => heq' x (by omega))
    refine ⟨m', ?_, ⟨?_, ?_⟩, fun x hx => ?_⟩
    · rw [hloop, hloop', List.cons_append, sizes_cons]
      push_cast
      rw [add_assoc]
    · rw [hoff']
      refine hat₁.congr fun x hx hx' => heq' x ?_
      rw [Token.bytes_relocate] at hx'
      omega
    · rwa [Token.size_relocate]
    · rw [sizes_cons] at hx
      push_cast at hx
      exact (heq' x (by omega)).trans (heq x (by omega))

end Walk

/-! ## The finished blob -/

/-- The string stands in the string table. Its offset counts from the start of the table. -/
def Stored (m : ByteMem) (nameoff : BitVec 32) (s : List (BitVec 8)) : Prop :=
  ∃ j : ℕ, nameoff = BitVec.ofNat 32 j ∧ j + s.length < fdtSizeDtStrings m ∧
    m.Holds (fdtOffDtStrings m + j) (s ++ [0])

/-- The token that stands for a call. -/
inductive Stands (m : ByteMem) : Call → Token → Prop
  | beginNode (name : List (BitVec 8)) : Stands m (.beginNode name) (.beginNode name)
  | endNode : Stands m .endNode .endNode
  | property {name val : List (BitVec 8)} {nameoff : BitVec 32} (h : 0 ∉ name)
      (hname : Stored m nameoff name) : Stands m (.property name val) (.prop nameoff val)

/-- The buffer holds a blob with the entries `rsv` and the tokens `ts` of the calls `done`, and
outside of it the memory is still `m₀`. -/
structure Finished (bufsize : ℕ) (m₀ m : ByteMem) (rsv : List (BitVec 64 × BitVec 64))
    (done : List Call) (ts : List Token) : Prop where
  magic : fdtMagic m = Libfdt.magic
  version : fdtVersion m = 17
  lastComp : fdtLastCompVersion m = 16
  rsvmap : fdtOffMemRsvmap m = 48
  off : fdtOffDtStruct m = 48 + 16 * rsv.length
  reserved : m.Holds 48 (rsvBytes rsv)
  size : fdtSizeDtStruct m = sizes (ts ++ [.fin])
  offStrings : fdtOffDtStrings m = fdtOffDtStruct m + fdtSizeDtStruct m
  total : fdtTotalsize m = fdtOffDtStrings m + fdtSizeDtStrings m
  fits : fdtTotalsize m ≤ bufsize
  tokens : StructAt m 0 (ts ++ [.fin])
  written : List.Forall₂ (Stands m) done ts
  outside : ∀ x : ℤ, x < 0 ∨ bufsize ≤ x → m x = m₀ x

section Finish

variable {bufsize w fuel : ℕ} {m₀ m m' : ByteMem} {rsv : List (BitVec 64 × BitVec 64)}
  {done : List Call} {c : Call} {ts : List Token} {t : Token}

/-- The string table is moved down to the tokens. -/
theorem Layout.relocateStrings_eq (h : Layout bufsize m₀ m rsv done ts) (hb : bufsize < 2 ^ 31)
    {new : ℕ} (hnew : new = fdtOffDtStruct m + fdtSizeDtStruct m) :
    (relocateStrings m new).be32 12 = BitVec.ofNat 32 new ∧
      (∀ i : ℕ, i < fdtSizeDtStrings m →
        relocateStrings m new (new + i) = m (bufsize - fdtSizeDtStrings m + i)) ∧
      ∀ x : ℤ, (x < 12 ∨ 16 ≤ x) → (x < new ∨ new + fdtSizeDtStrings m ≤ x) →
        relocateStrings m new x = m x := by
  have hroom := h.room
  have hoff := h.off
  have hold : toInt (fdtTotalsize m - fdtSizeDtStrings m) = bufsize - fdtSizeDtStrings m := by
    rw [h.total]
    exact toInt_of_lt (by omega) (by omega)
  unfold relocateStrings fdtSetOffDtStrings
  rw [hold]
  dsimp only
  refine ⟨?_, fun i hi => ?_, fun x hx hx' => ?_⟩
  · rw [ByteMem.be32_writeBe32, BitVec.ofInt_natCast]
  · rw [ByteMem.writeBe32_of_outside (by omega), ByteMem.write_read m _ _ hi]
  · rw [ByteMem.writeBe32_of_outside (by omega),
      ByteMem.write_of_outside (by rw [ByteMem.length_read]; omega)]

/-- A name is found at its new place. -/
theorem Named.stored {nameoff : BitVec 32} {s : List (BitVec 8)} (h : Named bufsize m nameoff s)
    (hstr : fdtSizeDtStrings m' = fdtSizeDtStrings m)
    (hmove : ∀ i : ℕ, i < fdtSizeDtStrings m →
      m' (fdtOffDtStrings m' + i) = m (bufsize - fdtSizeDtStrings m + i)) :
    Stored m' (nameoff + m.be32 32) s := by
  obtain ⟨k, rfl, hlen, hk, hholds⟩ := h
  have hword : m.be32 32 = BitVec.ofInt 32 (fdtSizeDtStrings m) := by
    rw [BitVec.ofInt_natCast, fdtSizeDtStrings, BitVec.ofNat_toNat, BitVec.setWidth_eq]
  refine ⟨fdtSizeDtStrings m - k, ?_, by omega, hholds.copy fun i hi => ?_⟩
  · rw [hword, ← BitVec.ofInt_add, ← BitVec.ofInt_natCast]
    exact congrArg (BitVec.ofInt 32) (by omega)
  · simp only [List.length_append, List.length_cons, List.length_nil] at hi
    have hi' := hmove (fdtSizeDtStrings m - k + i) (by omega)
    rw [show (fdtOffDtStrings m' : ℤ) + (fdtSizeDtStrings m - k : ℕ) + i =
      fdtOffDtStrings m' + (fdtSizeDtStrings m - k + i : ℕ) by push_cast; ring, hi']
    congr 1
    omega

theorem Writes.stands (h : Writes bufsize m c t) (hfin : c ≠ .finish)
    (hstr : fdtSizeDtStrings m' = fdtSizeDtStrings m)
    (hmove : ∀ i : ℕ, i < fdtSizeDtStrings m →
      m' (fdtOffDtStrings m' + i) = m (bufsize - fdtSizeDtStrings m + i)) :
    Stands m' c (t.relocate (m.be32 32)) := by
  cases h with
  | beginNode name => exact .beginNode name
  | endNode => exact .endNode
  | property hzero hname => exact .property hzero (hname.stored hstr hmove)
  | finish => exact absurd rfl hfin

/-- Only `fdt_finish` writes the end. -/
theorem fin_notMem (h : List.Forall₂ (Writes bufsize m) done ts) (hfin : .finish ∉ done) :
    .fin ∉ ts := by
  induction h with
  | nil => simp
  | cons hwrites _ ih =>
    rw [List.mem_cons, not_or] at hfin ⊢
    refine ⟨?_, ih hfin.2⟩
    rintro rfl
    cases hwrites
    exact hfin.1 rfl

/-- The table has been moved and the properties have been relocated. -/
theorem Layout.relocated (h : Layout bufsize m₀ m rsv (done ++ [.finish]) (ts ++ [.fin]))
    (hb : bufsize < 2 ^ 31) (hfin : .fin ∉ ts) (hfuel : bufsize ≤ fuel) {new : ℕ}
    (hnew : new = fdtOffDtStruct m + fdtSizeDtStruct m) :
    ∃ m', relocateLoop fuel fuel (relocateStrings m new) 0 =
        some ((sizes (ts ++ [.fin]) : ℤ), m') ∧
      StructAt m' 0 (ts.map (Token.relocate (m.be32 32)) ++ [.fin]) ∧
      m'.be32 12 = BitVec.ofNat 32 new ∧
      (∀ i : ℕ, i < fdtSizeDtStrings m → m' (new + i) = m (bufsize - fdtSizeDtStrings m + i)) ∧
      ∀ x : ℤ, x < 12 ∨ 16 ≤ x → x < fdtOffDtStruct m ∨ new + fdtSizeDtStrings m ≤ x →
        m' x = m x := by
  have hroom := h.room
  have hoff := h.off
  have hsize := h.size
  obtain ⟨hstrings, hmove, heq₁⟩ := h.relocateStrings_eq hb hnew
  generalize relocateStrings m new = m₁ at hstrings hmove heq₁
  have hword : ∀ a : ℤ, 16 ≤ a → a + 4 ≤ 48 → m₁.be32 a = m.be32 a := fun a ha ha' =>
    ByteMem.be32_congr fun x hx hx' => heq₁ x (by omega) (by omega)
  have hoff₁ : fdtOffDtStruct m₁ = fdtOffDtStruct m :=
    congrArg BitVec.toNat (ByteMem.be32_congr fun x hx hx' => heq₁ x (by omega) (by omega))
  have hsize₁ : fdtSizeDtStruct m₁ = fdtSizeDtStruct m :=
    congrArg BitVec.toNat (hword 36 (by omega) (by omega))
  have htokens₁ : StructAt m₁ 0 (ts ++ [.fin]) :=
    h.tokens.congr hoff₁ fun x hx hx' => heq₁ x (by omega) (by omega)
  have hlen : ts.length < fuel := by
    have hle := length_le_sizes (ts ++ [.fin])
    rw [List.length_append, List.length_singleton] at hle
    omega
  obtain ⟨m', hloop, htokens, heq₂⟩ := relocateLoop_eq htokens₁ hfin le_rfl rfl
    (by omega) (by omega) (by omega) (by omega : fdtSizeDtStruct m₁ ≤ fuel) hlen
  rw [hword 32 (by omega) (by omega)] at htokens
  rw [sizes_append] at hsize
  refine ⟨m', by rw [hloop, zero_add], htokens, ?_, fun i hi => ?_, fun x hx hx' => ?_⟩
  · rw [← hstrings]
    exact ByteMem.be32_congr fun x hx hx' => heq₂ x (by omega)
  · rw [heq₂ (new + i) (by omega)]
    exact hmove i hi
  · exact (heq₂ x (by omega)).trans (heq₁ x hx (by omega))

/-- The rest of `fdt_finish`, once the end stands behind the tokens. -/
theorem Layout.terminated (h : Layout bufsize m₀ m rsv (done ++ [.finish]) (ts ++ [.fin]))
    (hb : bufsize < 2 ^ 31) (hopen : .finish ∉ done) (hfuel : bufsize ≤ fuel) :
    ∃ m', finishTerminated fuel m = some (0, m') ∧
      Finished bufsize m₀ m' rsv done (ts.map (Token.relocate (m.be32 32))) := by
  have hroom := h.room
  have hoff := h.off
  have hsize := h.size
  have hwritten : List.Forall₂ (Writes bufsize m) done ts := by
    have htake := List.forall₂_take done.length h.written
    have hlen := h.written.length_eq
    simp only [List.length_append, List.length_singleton, Nat.add_right_cancel_iff] at hlen
    rwa [List.take_left, hlen, List.take_left] at htake
  obtain ⟨new, hnew⟩ : ∃ n, n = fdtOffDtStruct m + fdtSizeDtStruct m := ⟨_, rfl⟩
  have hnew' : toInt (fdtOffDtStruct m + fdtSizeDtStruct m) = new := by
    rw [toInt_of_lt (by omega) (by omega), hnew]
    push_cast
    rfl
  obtain ⟨m₁, hloop, htokens, hstrings, hmove, heq₁⟩ :=
    h.relocated hb (fin_notMem hwritten hopen) hfuel hnew
  have hstr₁ : fdtSizeDtStrings m₁ = fdtSizeDtStrings m :=
    congrArg BitVec.toNat (ByteMem.be32_congr fun x hx hx' => heq₁ x (by omega) (by omega))
  unfold finishTerminated
  rw [hnew']
  dsimp only
  rw [hloop]
  dsimp only
  rw [if_neg (by omega), hstr₁,
    show (new : ℤ) + fdtSizeDtStrings m = (new + fdtSizeDtStrings m : ℕ) by push_cast; rfl]
  refine ⟨_, rfl, ?_⟩
  generalize hm' : fdtSetMagic (fdtSetTotalsize m₁ (new + fdtSizeDtStrings m : ℕ)) Libfdt.magic = m'
  have heq : ∀ x : ℤ, x < 0 ∨ 8 ≤ x → m' x = m₁ x := by
    intro x hx
    rw [← hm', fdtSetMagic, fdtSetTotalsize]
    simp (disch := omega) only [ByteMem.writeBe32_of_outside]
  have hkept : ∀ x : ℤ, x < 0 ∨ 8 ≤ x ∧ x < 12 ∨ 16 ≤ x →
      x < fdtOffDtStruct m ∨ new + fdtSizeDtStrings m ≤ x → m' x = m x := fun x hx hx' =>
    (heq x (by omega)).trans (heq₁ x (by omega) hx')
  obtain ⟨hrsvmap, hversion, hlast⟩ :=
    header_congr fun x hx hx' => hkept x (by omega) (by omega)
  have hoff' : fdtOffDtStruct m' = fdtOffDtStruct m :=
    congrArg BitVec.toNat (ByteMem.be32_congr fun x hx hx' => hkept x (by omega) (by omega))
  have hsize' : fdtSizeDtStruct m' = fdtSizeDtStruct m :=
    congrArg BitVec.toNat (ByteMem.be32_congr fun x hx hx' => hkept x (by omega) (by omega))
  have hstr' : fdtSizeDtStrings m' = fdtSizeDtStrings m :=
    congrArg BitVec.toNat (ByteMem.be32_congr fun x hx hx' => hkept x (by omega) (by omega))
  have hstrings' : fdtOffDtStrings m' = new := by
    rw [fdtOffDtStrings, ByteMem.be32_congr fun x hx _ => heq x (by omega), hstrings,
      BitVec.toNat_ofNat]
    exact Nat.mod_eq_of_lt (by omega)
  have htotal' : fdtTotalsize m' = new + fdtSizeDtStrings m := by
    rw [← hm', fdtSetMagic, fdtSetTotalsize, fdtTotalsize,
      ByteMem.be32_writeBe32_of_ne (by omega), ByteMem.be32_writeBe32, toNat_ofInt_of_lt (by omega)]
  refine ⟨?_, hversion.trans h.version, hlast.trans h.lastComp, hrsvmap.trans h.rsvmap,
    hoff'.trans h.off, ?_, ?_, ?_, ?_, ?_, ?_, ?_, ?_⟩
  · rw [← hm', fdtSetMagic, fdtMagic, ByteMem.be32_writeBe32]
  · refine h.reserved.congr fun x hx hx' => hkept x (by omega) ?_
    rw [length_rsvBytes] at hx'
    omega
  · rw [hsize', hsize, sizes_append, sizes_append, sizes_map_relocate]
  · rw [hstrings', hoff', hsize', hnew]
  · rw [htotal', hstrings', hstr']
  · rw [htotal']
    omega
  · have hoff₁ : fdtOffDtStruct m₁ = fdtOffDtStruct m :=
      congrArg BitVec.toNat (ByteMem.be32_congr fun x hx hx' => heq₁ x (by omega) (by omega))
    exact htokens.congr (hoff'.trans hoff₁.symm) fun x hx _ => heq x (by omega)
  · rw [List.forall₂_map_right_iff]
    refine ((List.forall₂_and_left (p := (· ≠ .finish)) ..).mpr ⟨fun c hc => ?_, hwritten⟩).imp ?_
    · rintro rfl
      exact hopen hc
    · rintro c t ⟨hc, hwrites⟩
      refine hwrites.stands hc hstr' fun i hi => ?_
      rw [hstrings', heq (new + i) (by omega)]
      exact hmove i hi
  · exact fun x hx => (hkept x (by omega) (by omega)).trans (h.outside x hx)

/-- `fdt_finish` leaves a blob, or there is no room for the end. -/
theorem Layout.finish (h : Layout bufsize m₀ m rsv done ts) (hw : 32 ≤ w) (hb : bufsize < 2 ^ 31)
    (hopen : .finish ∉ done) (hfuel : bufsize ≤ fuel) :
    (fdtFinish w fuel m = some (errNospace, m) ∧
      bufsize < fdtOffDtStruct m + fdtSizeDtStruct m + fdtSizeDtStrings m + Call.finish.need) ∨
    ∃ m' ts', fdtFinish w fuel m = some (0, m') ∧ Finished bufsize m₀ m' rsv done ts' := by
  have hfour : (4 : ℤ) = (Token.fin.size : ℕ) := rfl
  have hsize : Token.fin.size = Call.finish.need := rfl
  unfold fdtFinish
  rw [if_neg (not_not.mpr h.check), hfour, h.grab hw hb (by decide)]
  by_cases hroom : fdtOffDtStruct m + fdtSizeDtStruct m + Token.fin.size + fdtSizeDtStrings m ≤
      bufsize
  · rw [if_pos hroom]
    have hlayout : Layout bufsize m₀ ((fdtSetSizeDtStruct m
        (fdtSizeDtStruct m + Token.fin.size : ℕ)).writeBe32
          (fdtOffDtStruct m + fdtSizeDtStruct m) fin) rsv (done ++ [.finish]) (ts ++ [.fin]) :=
      (h.append hb hroom (fun x hx => ByteMem.writeBe32_of_outside hx)
        ⟨ByteMem.be32_writeBe32 _ _ _, trivial⟩ .finish).1
    obtain ⟨m', hfinish, hblob⟩ := hlayout.terminated hb hopen hfuel
    exact Or.inr ⟨m', _, hfinish, hblob⟩
  · rw [if_neg hroom]
    exact Or.inl ⟨rfl, by omega⟩

end Finish

/-! ## Runs -/

/-- What a call returns, and what it leaves in memory. -/
def Call.exec (w fuel : ℕ) (m : ByteMem) : Call → Option (ℤ × ByteMem)
  | reserve addr size => some (fdtAddReservemapEntry w m addr size)
  | beginNode name => some (fdtBeginNode w m name)
  | endNode => some (fdtEndNode w m)
  | property name val => some (fdtProperty w m name val)
  | finish => fdtFinish w fuel m

/-- What the calls return one after the other, and what they leave in memory. -/
def runCalls (w fuel : ℕ) : ByteMem → List Call → Option (List ℤ × ByteMem)
  | m, [] => some ([], m)
  | m, c :: cs =>
    match c.exec w fuel m with
    | none => none
    | some (r, m) => (runCalls w fuel m cs).map fun p => (r :: p.1, p.2)

/-- The name of a property fits in a header, and so in front of every string table. -/
def Call.Short : Call → Prop
  | property name _ => name.length + 1 ≤ 48
  | _ => True

section Runs

variable {bufsize w fuel : ℕ} {m₀ m m' : ByteMem} {rsv : List (BitVec 64 × BitVec 64)}
  {done cs : List Call} {c : Call} {ts : List Token} {r : ℤ}

theorem runCalls_cons (h : c.exec w fuel m = some (r, m')) :
    runCalls w fuel m (c :: cs) = (runCalls w fuel m' cs).map fun p => (r :: p.1, p.2) := by
  rw [runCalls, h]

/-- Before `fdt_create` and after `fdt_finish`, a call only fails. -/
theorem exec_of_magic (h : fdtMagic m ≠ ~~~magic) (c : Call) :
    c.exec w fuel m = some (errBadmagic, m) := by
  have hcheck : fdtSwCheckHeader m = errBadmagic := if_pos h
  have hne : fdtSwCheckHeader m ≠ 0 := by rw [hcheck]; decide
  cases c with
  | reserve addr size => rw [Call.exec, fdtAddReservemapEntry, if_pos hne, hcheck]
  | beginNode name => rw [Call.exec, fdtBeginNode, if_pos hne, hcheck]
  | endNode => rw [Call.exec, fdtEndNode, if_pos hne, hcheck]
  | property name val => rw [Call.exec, fdtProperty, if_pos hne, hcheck]
  | finish => rw [Call.exec, fdtFinish, if_pos hne, hcheck]

/-- The buffer can be written to, or has been finished. There are no strings while entries can
still come. -/
inductive Writer (bufsize : ℕ) (m₀ m : ByteMem) (cs : List Call) : Prop
  | writing {rsv : List (BitVec 64 × BitVec 64)} {done : List Call} {ts : List Token} :
      Layout bufsize m₀ m rsv done ts → .finish ∉ done →
      ((ts = [] → fdtSizeDtStrings m = 0) ∨ ∀ c ∈ cs, ¬ c.IsReserve) → Writer bufsize m₀ m cs
  | finished : fdtMagic m ≠ ~~~magic → (∀ x : ℤ, x < 0 ∨ bufsize ≤ x → m x = m₀ x) →
      Writer bufsize m₀ m cs

theorem Writer.outside (h : Writer bufsize m₀ m cs) {x : ℤ} (hx : x < 0 ∨ bufsize ≤ x) :
    m x = m₀ x := by
  cases h with
  | writing hlayout => exact hlayout.outside x hx
  | finished _ hout => exact hout x hx

/-- After a call that writes a token or fails, the buffer can still be written to. -/
theorem Outcome.writer {need : ℕ} {p : ℤ × ByteMem}
    (hout : Outcome bufsize m₀ m rsv done ts c need p) (hopen : .finish ∉ done)
    (hc : c ≠ .finish)
    (hstr : (ts = [] → fdtSizeDtStrings m = 0) ∨ ∀ c' ∈ c :: cs, ¬ c'.IsReserve)
    (horder : c.IsProperty → ∀ c' ∈ cs, ¬ c'.IsReserve) : Writer bufsize m₀ p.2 cs := by
  have hrest : (ts = [] → fdtSizeDtStrings m = 0) ∨ ∀ c' ∈ cs, ¬ c'.IsReserve :=
    hstr.imp_right fun h c' hc' => h c' (List.mem_cons_of_mem _ hc')
  rcases hout with ⟨-, ⟨t, hlayout⟩, -⟩ | ⟨-, hlayout, hsame, -⟩
  · refine .writing hlayout ?_ (Or.inl fun hnil => absurd hnil (by simp))
    rw [List.mem_append, List.mem_singleton, not_or]
    exact ⟨hopen, Ne.symm hc⟩
  · refine .writing hlayout hopen ?_
    rcases hsame with hprop | hsame
    · exact Or.inr (horder hprop)
    · rwa [hsame]

/-- A call leaves a buffer that can be written to, or that has been finished. -/
theorem Writer.exec (h : Writer bufsize m₀ m (c :: cs)) (hw : 32 ≤ w) (hb : bufsize < 2 ^ 31)
    (hfuel : bufsize ≤ fuel) (hvalid : c.Valid) (hshort : c.Short)
    (horder : c.IsProperty → ∀ c' ∈ cs, ¬ c'.IsReserve) :
    ∃ r m', c.exec w fuel m = some (r, m') ∧ Writer bufsize m₀ m' cs := by
  cases h with
  | finished hmagic hout => exact ⟨_, _, exec_of_magic hmagic c, .finished hmagic hout⟩
  | @writing rsv done ts hlayout hopen hstr =>
    cases c with
    | reserve addr size =>
      have hnil : ts = [] → fdtSizeDtStrings m = 0 :=
        hstr.resolve_right fun hno => hno _ List.mem_cons_self trivial
      rcases hlayout.reserve hw hb hnil addr size with ⟨m', hr, -, hlayout', hstr'⟩ | ⟨e, hr, -⟩
      · exact ⟨_, _, congrArg some hr, .writing hlayout' hopen (Or.inl fun _ => hstr')⟩
      · exact ⟨_, _, congrArg some hr, .writing hlayout hopen (Or.inl hnil)⟩
    | beginNode name =>
      have hout := hlayout.beginNode hw hb hvalid.1 hvalid.2
      exact ⟨_, _, rfl, hout.writer hopen (by simp) hstr horder⟩
    | endNode =>
      have hout := hlayout.endNode hw hb
      exact ⟨_, _, rfl, hout.writer hopen (by simp) hstr horder⟩
    | property name val =>
      have hfit : name.length + 1 + fdtSizeDtStrings m ≤ bufsize := by
        have hroom := hlayout.room
        have hoff := hlayout.off
        have hle : name.length + 1 ≤ 48 := hshort
        omega
      have hout := hlayout.property hw hb hvalid.1 hvalid.2.2 hfit
      exact ⟨_, _, rfl, hout.writer hopen (by simp) hstr horder⟩
    | finish =>
      rcases hlayout.finish hw hb hopen hfuel with ⟨hr, -⟩ | ⟨m', ts', hr, hblob⟩
      · exact ⟨_, _, hr, .writing hlayout hopen (hstr.imp_right fun hno c' hc' =>
          hno c' (List.mem_cons_of_mem _ hc'))⟩
      · refine ⟨_, _, hr, .finished ?_ hblob.outside⟩
        rw [hblob.magic]
        decide

/-- So do all of them. -/
theorem Writer.run (h : Writer bufsize m₀ m cs) (hw : 32 ≤ w) (hb : bufsize < 2 ^ 31)
    (hfuel : bufsize ≤ fuel) (hvalid : ∀ c ∈ cs, c.Valid) (hshort : ∀ c ∈ cs, c.Short)
    (horder : cs.Pairwise fun c c' => c.IsProperty → ¬ c'.IsReserve) :
    ∃ rs m', runCalls w fuel m cs = some (rs, m') ∧ Writer bufsize m₀ m' [] := by
  induction cs generalizing m with
  | nil => exact ⟨[], m, rfl, h⟩
  | cons c cs ih =>
    rw [List.pairwise_cons] at horder
    obtain ⟨r, m₁, hexec, h₁⟩ := h.exec hw hb hfuel (hvalid c List.mem_cons_self)
      (hshort c List.mem_cons_self) fun hprop c' hc' => horder.1 c' hc' hprop
    obtain ⟨rs, m', hrun, h'⟩ := ih h₁ (fun c hc => hvalid c (List.mem_cons_of_mem _ hc))
      (fun c hc => hshort c (List.mem_cons_of_mem _ hc)) horder.2
    exact ⟨r :: rs, m', by rw [runCalls_cons hexec, hrun]; rfl, h'⟩

/-- The calls return, and change nothing outside of the buffer. -/
theorem runCalls_inside (hw : 32 ≤ w) (hmin : 48 ≤ bufsize) (hb : bufsize < 2 ^ 31)
    (hfuel : bufsize ≤ fuel) (m : ByteMem) (hvalid : ∀ c ∈ cs, c.Valid)
    (hshort : ∀ c ∈ cs, c.Short)
    (horder : cs.Pairwise fun c c' => c.IsProperty → ¬ c'.IsReserve) :
    ∃ rs m', runCalls w fuel (fdtCreate w m bufsize).2 cs = some (rs, m') ∧
      ∀ x : ℤ, x < 0 ∨ bufsize ≤ x → m' x = m x := by
  obtain ⟨m₁, hcreate, hcreated⟩ := exists_created hw hb (by omega) m
  have hwriter : Writer bufsize m m₁ cs :=
    .writing (hcreated.layout hmin) (by simp) (Or.inl fun _ => hcreated.strings)
  obtain ⟨rs, m', hrun, h'⟩ := hwriter.run hw hb hfuel hvalid hshort horder
  rw [hcreate]
  exact ⟨rs, m', hrun, fun x hx => h'.outside hx⟩

/-- After `fdt_create` has returned 0, whatever the calls are and return, each of them returns and
the memory outside of the buffer stays as it is, if no name of a property is longer than 47
characters and no property comes before an entry of the reservation map : this is so exactly for
the sizes of the buffer for which `fdt_create` fails and for those from 48 on. -/
theorem runCalls_outside_iff (hw : 32 ≤ w) (hb : bufsize < 2 ^ 31) (hfuel : bufsize ≤ fuel) :
    (∀ (m : ByteMem) (cs : List Call), (fdtCreate w m bufsize).1 = 0 → (∀ c ∈ cs, c.Valid) →
      (∀ c ∈ cs, c.Short) → (cs.Pairwise fun c c' => c.IsProperty → ¬ c'.IsReserve) →
        ∃ rs m', runCalls w fuel (fdtCreate w m bufsize).2 cs = some (rs, m') ∧
          ∀ x : ℤ, x < 0 ∨ bufsize ≤ x → m' x = m x) ↔
      bufsize < 40 ∨ 48 ≤ bufsize := by
  constructor
  · intro h
    by_contra hbad
    obtain ⟨m₁, hcreate, hcreated⟩ := exists_created hw hb (by omega) (fun _ => 1)
    obtain ⟨m₂, hbegin, hbyte⟩ := hcreated.beginNode_of_lt hw hb (by omega)
    obtain ⟨rs, m', hrun, hout⟩ := h (fun _ => 1) [.beginNode []] (by rw [hcreate])
      (by simp [Call.Valid]) (by simp [Call.Short]) (by simp)
    have hexec : (Call.beginNode []).exec w fuel m₁ = some (0, m₂) := congrArg some hbegin
    rw [hcreate, runCalls_cons hexec] at hrun
    simp only [runCalls, Option.map_some, Option.some.injEq, Prod.mk.injEq] at hrun
    have hsame := hout 48 (by omega)
    rw [← hrun.2, hbyte] at hsame
    exact absurd hsame (by decide)
  · rintro (hsmall | hmin) m cs hok hvalid hshort horder
    · refine absurd hok ?_
      rw [fdtCreate, toSize_of_lt hw (by omega) (by omega), if_pos (by omega)]
      exact (by decide : errNospace ≠ 0)
    · exact runCalls_inside hw hmin hb hfuel m hvalid hshort horder

/-- In a buffer of 64 bytes. -/
theorem runCalls_outside_iff_sample :
    (∀ (m : ByteMem) (cs : List Call), (fdtCreate 64 m (64 : ℕ)).1 = 0 → (∀ c ∈ cs, c.Valid) →
      (∀ c ∈ cs, c.Short) → (cs.Pairwise fun c c' => c.IsProperty → ¬ c'.IsReserve) →
        ∃ rs m', runCalls 64 64 (fdtCreate 64 m (64 : ℕ)).2 cs = some (rs, m') ∧
          ∀ x : ℤ, x < 0 ∨ (64 : ℕ) ≤ x → m' x = m x) ↔
      (64 < 40 ∨ 48 ≤ 64) :=
  runCalls_outside_iff (by decide) (by decide) le_rfl

end Runs

end Libfdt

end AcrnUt
