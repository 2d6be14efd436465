import AcrnUt.PciWindows

/-!
# Translating what was drawn

`pci_alloc_resource` draws from the first window of the BAR's type, and
`pci_host_bridge_get_paddr` translates with the first window that holds the address,
whatever its type. I/O and memory are two address spaces of PCI, so a window of the other
type may hold the same number. What was drawn is translated by its own window exactly if the
first window that holds it moves it as far (`getPaddr_drawn_iff`), which is so if no window
before its own meets it (`Reached.of_first`).
-/

set_option linter.unusedSectionVars false

namespace AcrnUt

variable {spaces spaces' : List AddrSpace} {as w : AddrSpace} {a : BitVec 64} {i : ℕ}

/-- The CPU address at which a window shows a PCI address. -/
def AddrSpace.translate (as : AddrSpace) (a : BitVec 64) : BitVec 64 :=
  as.start + (a - as.pciStart)

/-- The first window that holds an address moves it as far as `w` does. If there is none, the
address is invalid, and so it is in `w`. -/
def Reached (spaces : List AddrSpace) (w : AddrSpace) (a : BitVec 64) : Prop :=
  match spaces.find? fun as => as.Contains a with
  | some as => as.start - as.pciStart = w.start - w.pciStart
  | none => w.translate a = invalidPhysAddr

/-- What the next draw for a BAR takes is reached in its window. -/
def DrawReached (spaces : List AddrSpace) (b : Bar) : Prop :=
  ∃ i w, windowOf spaces b = some i ∧ spaces[i]? = some w ∧ Reached spaces w (w.place b.size)

/-- Two windows translate an address alike if they move it as far. -/
theorem translate_eq_iff :
    as.translate a = w.translate a ↔ as.start - as.pciStart = w.start - w.pciStart := by
  have hring : ∀ x y : BitVec 64, x + (a - y) = a + (x - y) := by
    intro x y
    bv_omega
  unfold AddrSpace.translate
  rw [hring, hring]
  exact BitVec.add_right_inj a

theorem getPaddr_eq_translate_iff :
    pciHostBridgeGetPaddr spaces a = w.translate a ↔ Reached spaces w a := by
  rw [pciHostBridgeGetPaddr_eq]
  unfold Reached
  cases spaces.find? fun as => as.Contains a with
  | some as => exact translate_eq_iff
  | none => exact eq_comm

/-- A draw moves no window. -/
theorem getPaddr_set_draw (size : BitVec 64) (hw : spaces[i]? = some w) :
    pciHostBridgeGetPaddr (spaces.set i (w.draw size)) a = pciHostBridgeGetPaddr spaces a := by
  induction spaces generalizing i with
  | nil => rfl
  | cons as spaces ih =>
    cases i with
    | zero =>
      obtain rfl : as = w := by simpa using hw
      rfl
    | succ i =>
      rw [List.set_cons_succ]
      unfold pciHostBridgeGetPaddr
      rw [ih hw]

/-- An address is reached in the first window that holds it. -/
theorem Reached.of_first (hw : spaces[i]? = some w) (ha : w.Contains a)
    (hfirst : ∀ as ∈ spaces.take i, ¬as.Contains a) : Reached spaces w a := by
  obtain ⟨hi, rfl⟩ := List.getElem?_eq_some_iff.mp hw
  have hsplit : spaces = spaces.take i ++ spaces[i] :: spaces.drop (i + 1) := by simp
  have hnone : (spaces.take i).find? (fun as => as.Contains a) = none := by
    simpa using hfirst
  have hfind : spaces.find? (fun as => as.Contains a) = some spaces[i] := by
    conv_lhs => rw [hsplit]
    rw [List.find?_append, hnone, List.find?_cons_of_pos (by simpa using ha)]
    rfl
  unfold Reached
  rw [hfind]

/-- A draw that the window has room for. -/
theorem pciAllocResource_eq {c : PciConf} {n : ℕ} (hn : n < 6) (hb : c.bar n ≠ .upper)
    (hsize : (c.bar n).size ≠ 0) (hwin : windowOf spaces (c.bar n) = some i)
    (hw : spaces[i]? = some w) (hfits : w.allocated + w.taken (c.bar n).size ≤ w.size) :
    pciAllocResource spaces c n =
      some (some (i, w.place (c.bar n).size), spaces.set i (w.draw (c.bar n).size), c) := by
  unfold windowOf at hwin
  unfold pciAllocResource
  rw [pciBarSize_eq hn hb]
  simp only [Option.bind_eq_bind, Option.bind_some, if_neg hsize, pciBarGet_eq hn, type_eq hb,
    hwin, hw, assert_eq hfits]
  rfl

/-- The address that `pci_alloc_resource` draws from a window is translated to its place in the
window, exactly if the first window that holds it moves it as far. -/
theorem getPaddr_drawn_iff {c c' : PciConf} {n : ℕ} (hn : n < 6) (hb : c.bar n ≠ .upper)
    (h : pciAllocResource spaces c n = some (some (i, a), spaces', c')) :
    (∃ w, spaces[i]? = some w ∧ pciHostBridgeGetPaddr spaces' a = w.start + (a - w.pciStart)) ↔
      DrawReached spaces (c.bar n) := by
  rcases pciAllocResource_cases hn hb h with ⟨hr, -⟩ | ⟨j, w, -, hwin, hw, -, hr⟩
  · cases hr
  · cases hr
    simp only [getPaddr_set_draw _ hw]
    constructor
    · rintro ⟨w', hw', hpaddr⟩
      cases hw.symm.trans hw'
      exact ⟨i, w, hwin, hw, getPaddr_eq_translate_iff.mp hpaddr⟩
    · rintro ⟨i', w', hwin', hw', hreach⟩
      cases hwin.symm.trans hwin'
      cases hw.symm.trans hw'
      exact ⟨w, hw, getPaddr_eq_translate_iff.mpr hreach⟩

/-! ## An I/O window and a memory window -/

/-- A `ranges` property : 64K of I/O at 0, shown at `0x3eff0000`, and 256M of memory, shown at
`0x10000000`. -/
def ioMemCells (pciStart : BitVec 32) : List (BitVec 32) :=
  [0x01000000, 0, 0, 0, 0x3eff0000, 0, 0x10000, 0x02000000, 0, pciStart, 0, 0x10000000, 0,
    0x10000000]

/-- The I/O window. -/
def ioMemIo : AddrSpace :=
  ⟨0, 0x3eff0000, 0x10000, 0, 1⟩

/-- The memory window. -/
def ioMemMem (pciStart : BitVec 64) : AddrSpace :=
  ⟨pciStart, 0x10000000, 0x10000000, 0, 0⟩

/-- Its windows. -/
def ioMemSpaces (pciStart : BitVec 64) : List AddrSpace :=
  [ioMemIo, ioMemMem pciStart]

theorem ioMemSpaces_draw {pciStart : BitVec 64}
    (hfits : (ioMemMem pciStart).allocated + (ioMemMem pciStart).taken 0x1000 ≤ 0x10000000) :
    pciAllocResource (ioMemSpaces pciStart) memFunction 0 =
      some (some (1, (ioMemMem pciStart).place 0x1000),
        (ioMemSpaces pciStart).set 1 ((ioMemMem pciStart).draw 0x1000), memFunction) :=
  pciAllocResource_eq (by norm_num) Bar.noConfusion (by decide) rfl rfl hfits

/-- Memory above the I/O addresses. -/
theorem getPaddr_drawn_apart :
    ((∃ w, (ioMemSpaces 0x10000000)[1]? = some w ∧
        pciHostBridgeGetPaddr ((ioMemSpaces 0x10000000).set 1
          ((ioMemMem 0x10000000).draw 0x1000)) ((ioMemMem 0x10000000).place 0x1000) =
            w.start + ((ioMemMem 0x10000000).place 0x1000 - w.pciStart)) ↔
      DrawReached (ioMemSpaces 0x10000000) (memFunction.bar 0)) ∧
      DrawReached (ioMemSpaces 0x10000000) (memFunction.bar 0) := by
  refine ⟨getPaddr_drawn_iff (by norm_num) Bar.noConfusion (ioMemSpaces_draw (by decide)),
    1, ioMemMem 0x10000000, rfl, rfl, ?_⟩
  refine Reached.of_first (i := 1) rfl (by decide) fun as has => ?_
  obtain rfl : as = ioMemIo := by simpa [ioMemSpaces] using has
  decide

/-- Memory at the numbers of the I/O addresses : the BAR gets `0x1000`, which its window shows
at `0x10000000`, and the translation finds the I/O window. -/
theorem getPaddr_drawn_io :
    pciDtProbe 2 (ioMemCells 0x1000) (fun _ => 0) = some (ioMemSpaces 0x1000) ∧
      ∃ w spaces', (ioMemSpaces 0x1000)[1]? = some w ∧
        pciAllocResource (ioMemSpaces 0x1000) memFunction 0 =
          some (some (1, 0x1000), spaces', memFunction) ∧
        w.start + (0x1000 - w.pciStart) = 0x10000000 ∧
        pciHostBridgeGetPaddr spaces' 0x1000 = 0x3eff1000 := by
  refine ⟨rfl, ioMemMem 0x1000, _, rfl, ioMemSpaces_draw (by decide), rfl, ?_⟩
  decide

end AcrnUt
