import AcrnUt.WordStack
import Mathlib.Data.List.GetD

/-!
# The interrupt thunks

`handle_irq` of `lib/x86/isr.c` assembles a thunk for a vector on the heap : it makes
room for a word on the stack, stores the address of the handler there in two halves,
and jumps to `isr_entry_point` with a 32-bit displacement. `isr_entry_point` pushes the
general registers, so that the stack holds an `isr_regs_t` of `lib/x86/isr.h` in front
of the interrupt frame, calls the handler with a pointer to it, pops the registers
again and returns.

The thunk is modelled by its bytes and a decoder for the instructions they spell, the
entry point by its instructions. Control that leaves the thunk for another address than
`isr_entry_point` is not followed. The handler may do anything to the registers and the
memory, but returns with the stack pointer behind its return address.

Everything comes out as it should exactly if the displacement from the end of the thunk
to `isr_entry_point` fits its 32 bits (`interrupt_dispatches_iff`).
-/

set_option linter.unusedSectionVars false

namespace AcrnUt

/-- The general registers, by their numbers. -/
inductive Reg64
  | rax | rcx | rdx | rbx | rsp | rbp | rsi | rdi
  | r8 | r9 | r10 | r11 | r12 | r13 | r14 | r15
  deriving DecidableEq

/-- The number of a register, which is its index in `regs` of `isr_regs_t`. -/
def Reg64.index : Reg64 → ℕ
  | .rax => 0 | .rcx => 1 | .rdx => 2 | .rbx => 3 | .rsp => 4 | .rbp => 5 | .rsi => 6 | .rdi => 7
  | .r8 => 8 | .r9 => 9 | .r10 => 10 | .r11 => 11
  | .r12 => 12 | .r13 => 13 | .r14 => 14 | .r15 => 15

/-- The registers and the memory. -/
structure IsrCpu where
  regs : Reg64 → BitVec 64
  mem : BitVec 64 → BitVec 8

/-- `isr_regs_t` of a 64-bit build. -/
structure IsrRegs where
  regs : ℕ → BitVec 64
  func : BitVec 64
  rip : BitVec 64
  cs : BitVec 64
  rflags : BitVec 64

/-- The `isr_regs_t` at `p`. -/
def isrRegsAt (mem : BitVec 64 → BitVec 8) (p : BitVec 64) : IsrRegs where
  regs i := loadWord mem (p + wordSpan 64 i)
  func := loadWord mem (p + wordSpan 64 16)
  rip := loadWord mem (p + wordSpan 64 17)
  cs := loadWord mem (p + wordSpan 64 18)
  rflags := loadWord mem (p + wordSpan 64 19)

/-- A function as the code that calls it sees it : it returns behind its return address. -/
structure IsrHandler where
  run : IsrCpu → IsrCpu
  returns : ∀ s, (run s).regs .rsp = s.regs .rsp + 8

namespace IsrCpu

/-- Set a register. -/
def set (s : IsrCpu) (r : Reg64) (x : BitVec 64) : IsrCpu :=
  { s with regs := Function.update s.regs r x }

/-- Push a word. -/
def push (s : IsrCpu) (x : BitVec 64) : IsrCpu where
  regs := Function.update s.regs .rsp (s.regs .rsp - 8)
  mem := storeWord s.mem (s.regs .rsp - 8) x

@[simp] theorem set_self (s : IsrCpu) (r : Reg64) (x : BitVec 64) : (s.set r x).regs r = x := by
  change Function.update s.regs r x r = x
  rw [Function.update_self]

theorem set_other (s : IsrCpu) {r r' : Reg64} (x : BitVec 64) (h : r' ≠ r) :
    (s.set r x).regs r' = s.regs r' := by
  change Function.update s.regs r x r' = s.regs r'
  rw [Function.update_of_ne h]

/-- Pop a word into a register. -/
def pop (s : IsrCpu) (r : Reg64) : IsrCpu :=
  (s.set .rsp (s.regs .rsp + 8)).set r (loadWord s.mem (s.regs .rsp))

end IsrCpu

/-! ## `isr_entry_point` -/

/-- The instructions of `isr_entry_point`. -/
inductive IsrInsn
  | push (r : Reg64)
  | pop (r : Reg64)
  | mov (src dst : Reg64)
  | call (disp : BitVec 64)
  | add (imm : BitVec 64) (r : Reg64)
  | iretq

/-- The text of `isr_entry_point`. -/
def isrEntryPoint : List IsrInsn :=
  [.push .r15, .push .r14, .push .r13, .push .r12, .push .r11, .push .r10, .push .r9, .push .r8,
    .push .rdi, .push .rsi, .push .rbp, .push .rsp, .push .rbx, .push .rdx, .push .rcx, .push .rax,
    .mov .rsp .rdi, .call (8 * 16),
    .pop .rax, .pop .rcx, .pop .rdx, .pop .rbx, .pop .rbp, .pop .rbp, .pop .rsi, .pop .rdi,
    .pop .r8, .pop .r9, .pop .r10, .pop .r11, .pop .r12, .pop .r13, .pop .r14, .pop .r15,
    .add 8 .rsp, .iretq]

/-- The functions called so far, each with the state it was entered in. -/
abbrev CallLog := List (BitVec 64 × IsrCpu)

/-- Execute up to `iretq`. A call goes through the word at `disp` from the stack pointer,
with `ret` as its return address. -/
def runStub (handlers : BitVec 64 → IsrHandler) (ret : BitVec 64) :
    List IsrInsn → IsrCpu → CallLog → Option (IsrCpu × CallLog)
  | [], _, _ => none
  | .push r :: code, s, log => runStub handlers ret code (s.push (s.regs r)) log
  | .pop r :: code, s, log => runStub handlers ret code (s.pop r) log
  | .mov src dst :: code, s, log => runStub handlers ret code (s.set dst (s.regs src)) log
  | .call disp :: code, s, log =>
    let target := loadWord s.mem (s.regs .rsp + disp)
    let entered := s.push ret
    runStub handlers ret code ((handlers target).run entered) (log ++ [(target, entered)])
  | .add imm r :: code, s, log => runStub handlers ret code (s.set r (s.regs r + imm)) log
  | .iretq :: _, s, log => some (s, log)

/-! ## The thunk -/

/-- The bytes of a 32-bit value in memory order. -/
def le32 (x : BitVec 32) : List (BitVec 8) :=
  [x.extractLsb' 0 8, x.extractLsb' 8 8, x.extractLsb' 16 8, x.extractLsb' 24 8]

/-- The bytes that `handle_irq` emits at `thunk`. -/
def thunkBytes (func isrEntry thunk : BitVec 64) : List (BitVec 8) :=
  [0x48#8, 0x83#8, 0xec#8, 0x08#8] ++
    ([0xc7#8, 0x04#8, 0x24#8] ++ le32 (func.setWidth 32)) ++
    ([0xc7#8, 0x44#8, 0x24#8, 0x04#8] ++ le32 ((func >>> 32).setWidth 32)) ++
    ([0xe9#8] ++ le32 ((isrEntry - (thunk + 24)).setWidth 32))

/-- `handle_irq` : the memory with the thunk assembled at `thunk`. -/
def handleIrq (mem : BitVec 64 → BitVec 8) (func isrEntry thunk : BitVec 64) :
    BitVec 64 → BitVec 8 :=
  fun b => (thunkBytes func isrEntry thunk).getD (b - thunk).toNat (mem b)

/-- The 32-bit value at `a`. -/
def loadDword (mem : BitVec 64 → BitVec 8) (a : BitVec 64) : BitVec 32 :=
  mem (a + 3) ++ mem (a + 2) ++ mem (a + 1) ++ mem a

/-- Store a 32-bit value at `a`. -/
def storeDword (mem : BitVec 64 → BitVec 8) (a : BitVec 64) (x : BitVec 32) :
    BitVec 64 → BitVec 8 := fun b =>
  if (b - a).toNat < 4 then x.extractLsb' (8 * (b - a).toNat) 8 else mem b

/-- The instructions that a thunk may spell. -/
inductive ThunkInsn
  | subRsp (imm : BitVec 8)
  | movl (disp : BitVec 8) (imm : BitVec 32)
  | jmp (rel : BitVec 32)

/-- The instruction at `rip`, with its length. -/
def decodeThunk (mem : BitVec 64 → BitVec 8) (rip : BitVec 64) : Option (ThunkInsn × BitVec 64) :=
  if mem rip = 0x48 ∧ mem (rip + 1) = 0x83 ∧ mem (rip + 2) = 0xec then
    some (.subRsp (mem (rip + 3)), 4)
  else if mem rip = 0xc7 ∧ mem (rip + 1) = 0x04 ∧ mem (rip + 2) = 0x24 then
    some (.movl 0 (loadDword mem (rip + 3)), 7)
  else if mem rip = 0xc7 ∧ mem (rip + 1) = 0x44 ∧ mem (rip + 2) = 0x24 then
    some (.movl (mem (rip + 3)) (loadDword mem (rip + 4)), 8)
  else if mem rip = 0xe9 then some (.jmp (loadDword mem (rip + 1)), 5)
  else none

/-- Execute from `rip` up to a jump, which has to go to `isrEntry`. -/
def runThunk (isrEntry : BitVec 64) : ℕ → BitVec 64 → IsrCpu → Option IsrCpu
  | 0, _, _ => none
  | fuel + 1, rip, s =>
    match decodeThunk s.mem rip with
    | none => none
    | some (.subRsp imm, len) =>
      runThunk isrEntry fuel (rip + len) (s.set .rsp (s.regs .rsp - imm.signExtend 64))
    | some (.movl disp imm, len) =>
      runThunk isrEntry fuel (rip + len)
        { s with mem := storeDword s.mem (s.regs .rsp + disp.signExtend 64) imm }
    | some (.jmp rel, len) => if rip + len + rel.signExtend 64 = isrEntry then some s else none

/-- An interrupt through the thunk, up to `iretq`. -/
def interrupt (handlers : BitVec 64 → IsrHandler) (ret isrEntry thunk : BitVec 64) (s : IsrCpu) :
    Option (IsrCpu × CallLog) :=
  (runThunk isrEntry 24 thunk s).bind fun s => runStub handlers ret isrEntryPoint s []

/-! ## Executing the thunk -/

/-- The bytes stand in memory from `rip` on. -/
def CodeAt (mem : BitVec 64 → BitVec 8) (rip : BitVec 64) (bytes : List (BitVec 8)) : Prop :=
  ∀ i (hi : i < bytes.length), mem (rip + BitVec.ofNat 64 i) = bytes[i]

theorem codeAt_append {mem : BitVec 64 → BitVec 8} {rip : BitVec 64} {l l' : List (BitVec 8)} :
    CodeAt mem rip (l ++ l') ↔
      CodeAt mem rip l ∧ CodeAt mem (rip + BitVec.ofNat 64 l.length) l' := by
  constructor
  · intro h
    refine ⟨fun i hi => ?_, fun i hi => ?_⟩
    · rw [h i (by rw [List.length_append]; omega), List.getElem_append_left hi]
    · rw [add_assoc, ← BitVec.ofNat_add, h (l.length + i) (by rw [List.length_append]; omega),
        List.getElem_append_right (by omega)]
      congr 1
      omega
  · rintro ⟨h, h'⟩ i hi
    rcases Nat.lt_or_ge i l.length with hl | hl
    · rw [h i hl, List.getElem_append_left hl]
    · rw [List.length_append] at hi
      have hrest := h' (i - l.length) (by omega)
      rw [add_assoc, ← BitVec.ofNat_add, show l.length + (i - l.length) = i by omega] at hrest
      rw [hrest, List.getElem_append_right hl]

theorem mem_of_codeAt {mem : BitVec 64 → BitVec 8} {rip : BitVec 64} {x : BitVec 8}
    {l : List (BitVec 8)} (h : CodeAt mem rip (x :: l)) : mem rip = x := by
  have h0 := h 0 (Nat.succ_pos _)
  rwa [show rip + BitVec.ofNat 64 0 = rip from BitVec.add_zero rip] at h0

/-- The four bytes of a value put together again. -/
theorem append_le32 (x : BitVec 32) :
    x.extractLsb' 24 8 ++ x.extractLsb' 16 8 ++ x.extractLsb' 8 8 ++ x.extractLsb' 0 8 = x := by
  ext i hi
  simp only [BitVec.getElem_append, BitVec.getElem_extractLsb']
  have hbit : ∀ k, k = i → x.getLsbD k = x[i] := by
    rintro _ rfl
    exact BitVec.getLsbD_eq_getElem hi
  split_ifs with h₁ h₂ h₃
  · exact hbit _ (by omega)
  · exact hbit _ (by omega)
  · exact hbit _ (by omega)
  · exact hbit _ (by omega)

theorem loadDword_of_codeAt {mem : BitVec 64 → BitVec 8} {a : BitVec 64} {x : BitVec 32}
    (h : CodeAt mem a (le32 x)) : loadDword mem a = x := by
  have h0 : mem a = x.extractLsb' 0 8 := mem_of_codeAt h
  have h1 : mem (a + 1) = x.extractLsb' 8 8 := h 1 (by simp [le32])
  have h2 : mem (a + 2) = x.extractLsb' 16 8 := h 2 (by simp [le32])
  have h3 : mem (a + 3) = x.extractLsb' 24 8 := h 3 (by simp [le32])
  unfold loadDword
  rw [h0, h1, h2, h3]
  exact append_le32 x

/-- The bytes of an instruction. -/
def ThunkInsn.bytes : ThunkInsn → List (BitVec 8)
  | .subRsp imm => [0x48, 0x83, 0xec, imm]
  | .movl disp imm =>
    if disp = 0 then [0xc7#8, 0x04#8, 0x24#8] ++ le32 imm
    else [0xc7#8, 0x44#8, 0x24#8, disp] ++ le32 imm
  | .jmp rel => [0xe9#8] ++ le32 rel

/-- The decoder reads an instruction back. -/
theorem decodeThunk_of_codeAt {mem : BitVec 64 → BitVec 8} {rip : BitVec 64} {insn : ThunkInsn}
    (h : CodeAt mem rip insn.bytes) :
    decodeThunk mem rip = some (insn, BitVec.ofNat 64 insn.bytes.length) := by
  cases insn with
  | subRsp imm =>
    have h0 : mem rip = 0x48 := mem_of_codeAt h
    have h1 : mem (rip + 1) = 0x83 := h 1 (by simp [ThunkInsn.bytes])
    have h2 : mem (rip + 2) = 0xec := h 2 (by simp [ThunkInsn.bytes])
    have h3 : mem (rip + 3) = imm := h 3 (by simp [ThunkInsn.bytes])
    unfold decodeThunk
    rw [if_pos ⟨h0, h1, h2⟩, h3]
    rfl
  | movl disp imm =>
    by_cases hdisp : disp = 0
    · subst hdisp
      obtain ⟨hop, himm⟩ := codeAt_append.mp (show CodeAt mem rip (_ ++ le32 imm) from h)
      have h0 : mem rip = 0xc7 := mem_of_codeAt hop
      have h1 : mem (rip + 1) = 0x04 := hop 1 (by simp)
      have h2 : mem (rip + 2) = 0x24 := hop 2 (by simp)
      have himm : loadDword mem (rip + 3) = imm := loadDword_of_codeAt himm
      unfold decodeThunk
      rw [if_neg (by simp [h0]), if_pos ⟨h0, h1, h2⟩, himm]
      rfl
    · have hbytes : (ThunkInsn.movl disp imm).bytes
          = [0xc7#8, 0x44#8, 0x24#8, disp] ++ le32 imm := if_neg hdisp
      rw [hbytes] at h ⊢
      obtain ⟨hop, himm⟩ := codeAt_append.mp h
      have h0 : mem rip = 0xc7 := mem_of_codeAt hop
      have h1 : mem (rip + 1) = 0x44 := hop 1 (by simp)
      have h2 : mem (rip + 2) = 0x24 := hop 2 (by simp)
      have h3 : mem (rip + 3) = disp := hop 3 (by simp)
      have himm : loadDword mem (rip + 4) = imm := loadDword_of_codeAt himm
      unfold decodeThunk
      have hother : ¬ (mem rip = 0xc7 ∧ mem (rip + 1) = 0x04 ∧ mem (rip + 2) = 0x24) :=
        fun hc => absurd (h1.symm.trans hc.2.1) (by decide)
      rw [if_neg (by simp [h0]), if_neg hother, if_pos ⟨h0, h1, h2⟩, himm, h3]
      rfl
  | jmp rel =>
    obtain ⟨hop, himm⟩ := codeAt_append.mp h
    have h0 : mem rip = 0xe9 := mem_of_codeAt hop
    have hrel : loadDword mem (rip + 1) = rel := loadDword_of_codeAt himm
    unfold decodeThunk
    rw [if_neg (by simp [h0]), if_neg (by simp [h0]), if_neg (by simp [h0]), if_pos h0, hrel]
    rfl

/-- The instructions of a thunk. -/
theorem thunkBytes_eq (func isrEntry thunk : BitVec 64) :
    thunkBytes func isrEntry thunk =
      (ThunkInsn.subRsp 8).bytes ++ (ThunkInsn.movl 0 (func.setWidth 32)).bytes ++
        (ThunkInsn.movl 4 ((func >>> 32).setWidth 32)).bytes ++
        (ThunkInsn.jmp ((isrEntry - (thunk + 24)).setWidth 32)).bytes := rfl

/-- What `handle_irq` leaves at the thunk spells its bytes. -/
theorem codeAt_of_handleIrq {mem before : BitVec 64 → BitVec 8} {func isrEntry thunk : BitVec 64}
    (h : ∀ b ∈ byteRange thunk 24, mem b = handleIrq before func isrEntry thunk b) :
    CodeAt mem thunk (thunkBytes func isrEntry thunk) := by
  intro i hi
  have hi24 : i < 24 := hi
  have hofs : (thunk + BitVec.ofNat 64 i - thunk).toNat = i := by
    rw [add_sub_cancel_left, BitVec.toNat_ofNat]
    omega
  rw [h _ (show (_ - thunk).toNat < 24 by rw [hofs]; exact hi24)]
  unfold handleIrq
  rw [hofs]
  exact List.getD_eq_getElem _ _ hi

/-- The two halves of a word stored one behind the other. -/
theorem storeDword_halves (mem : BitVec 64 → BitVec 8) (a x : BitVec 64) :
    storeDword (storeDword mem a (x.setWidth 32)) (a + 4) ((x >>> 32).setWidth 32)
      = storeWord mem a x := by
  funext b
  have hd : b - (a + 4) = b - a - 4 := sub_add_eq_sub_sub b a 4
  unfold storeDword storeWord
  rw [hd]
  generalize b - a = d
  have hsub : (d - 4).toNat = if 4 ≤ d.toNat then d.toNat - 4 else d.toNat + (2 ^ 64 - 4) := by
    have := d.isLt
    split_ifs with h
    · exact BitVec.toNat_sub_of_le (BitVec.le_def.mpr h)
    · rw [BitVec.toNat_sub]
      change (2 ^ 64 - 4 + d.toNat) % 2 ^ 64 = _
      omega
  change _ = if d.toNat < 8 then _ else _
  rcases Nat.lt_or_ge d.toNat 4 with hlow | hhigh
  · rw [hsub, if_neg (by omega : ¬ 4 ≤ d.toNat), if_neg (by omega), if_pos hlow, if_pos (by omega)]
    ext i hi
    simp only [BitVec.getElem_extractLsb', BitVec.getLsbD_setWidth]
    simp [show 8 * d.toNat + i < 32 by omega]
  · rw [hsub, if_pos hhigh]
    by_cases hin : d.toNat < 8
    · rw [if_pos (by omega), if_pos hin]
      ext i hi
      simp only [BitVec.getElem_extractLsb', BitVec.getLsbD_setWidth, BitVec.getLsbD_ushiftRight]
      rw [decide_eq_true (by omega : 8 * (d.toNat - 4) + i < 32), Bool.true_and]
      congr 1
      omega
    · rw [if_neg (by omega), if_neg (by omega), if_neg hin]

section Steps

variable {isrEntry rip : BitVec 64} {s : IsrCpu} {fuel : ℕ}

theorem runThunk_subRsp {imm : BitVec 8} (h : CodeAt s.mem rip (ThunkInsn.subRsp imm).bytes) :
    runThunk isrEntry (fuel + 1) rip s =
      runThunk isrEntry fuel (rip + BitVec.ofNat 64 (ThunkInsn.subRsp imm).bytes.length)
        (s.set .rsp (s.regs .rsp - imm.signExtend 64)) := by
  rw [runThunk, decodeThunk_of_codeAt h]

theorem runThunk_movl {disp : BitVec 8} {imm : BitVec 32}
    (h : CodeAt s.mem rip (ThunkInsn.movl disp imm).bytes) :
    runThunk isrEntry (fuel + 1) rip s =
      runThunk isrEntry fuel (rip + BitVec.ofNat 64 (ThunkInsn.movl disp imm).bytes.length)
        { s with mem := storeDword s.mem (s.regs .rsp + disp.signExtend 64) imm } := by
  rw [runThunk, decodeThunk_of_codeAt h]

theorem runThunk_jmp {rel : BitVec 32} (h : CodeAt s.mem rip (ThunkInsn.jmp rel).bytes) :
    runThunk isrEntry (fuel + 1) rip s =
      if rip + BitVec.ofNat 64 (ThunkInsn.jmp rel).bytes.length + rel.signExtend 64 = isrEntry then
        some s
      else none := by
  rw [runThunk, decodeThunk_of_codeAt h]

end Steps

/-- A thunk stays as it is where nothing is stored into it. -/
theorem CodeAt.congr {mem mem' : BitVec 64 → BitVec 8} {rip : BitVec 64} {l : List (BitVec 8)}
    (h : CodeAt mem rip l) (hlen : l.length < 2 ^ 64)
    (heq : ∀ b ∈ byteRange rip l.length, mem' b = mem b) : CodeAt mem' rip l := by
  intro i hi
  rw [heq, h i hi]
  change (_ - rip).toNat < _
  rw [add_sub_cancel_left, BitVec.toNat_ofNat, Nat.mod_eq_of_lt (by omega)]
  exact hi

theorem storeDword_of_notMem {mem : BitVec 64 → BitVec 8} {a b : BitVec 64} {x : BitVec 32}
    (h : b ∉ byteRange a 4) : storeDword mem a x b = mem b := if_neg h

/-- The instructions of a thunk, each at its address. -/
theorem codeAt_thunkBytes {mem : BitVec 64 → BitVec 8} {func isrEntry thunk : BitVec 64}
    (h : CodeAt mem thunk (thunkBytes func isrEntry thunk)) :
    CodeAt mem thunk (ThunkInsn.subRsp 8).bytes ∧
      CodeAt mem (thunk + BitVec.ofNat 64 4) (ThunkInsn.movl 0 (func.setWidth 32)).bytes ∧
      CodeAt mem (thunk + BitVec.ofNat 64 11)
        (ThunkInsn.movl 4 ((func >>> 32).setWidth 32)).bytes ∧
      CodeAt mem (thunk + BitVec.ofNat 64 19)
        (ThunkInsn.jmp ((isrEntry - (thunk + 24)).setWidth 32)).bytes := by
  have hl₁ : (ThunkInsn.subRsp 8).bytes.length = 4 := rfl
  have hl₂ : (ThunkInsn.movl 0 (func.setWidth 32)).bytes.length = 7 := rfl
  have hl₃ : (ThunkInsn.movl 4 ((func >>> 32).setWidth 32)).bytes.length = 8 := rfl
  simp only [thunkBytes_eq, codeAt_append, List.length_append, hl₁, hl₂, hl₃] at h
  obtain ⟨⟨⟨hsub, hlow⟩, hhigh⟩, hjmp⟩ := h
  exact ⟨hsub, hlow, hhigh, hjmp⟩

/-- The instructions of a thunk on a stack that does not reach into it. -/
theorem runThunk_eq {s : IsrCpu} {func isrEntry thunk : BitVec 64}
    (hcode : CodeAt s.mem thunk (thunkBytes func isrEntry thunk))
    (hapart : ∀ b ∈ byteRange thunk 24, b ∉ byteRange (s.regs .rsp - 8) 8) :
    runThunk isrEntry 24 thunk s =
      if thunk + 24 + ((isrEntry - (thunk + 24)).setWidth 32).signExtend 64 = isrEntry then
        some (s.push func)
      else none := by
  have hlow : byteRange (s.regs .rsp - 8) 4 ⊆ byteRange (s.regs .rsp - 8) 8 := by
    intro b hb
    have hb : (b - (s.regs .rsp - 8)).toNat < 4 := hb
    exact lt_trans hb (by omega)
  -- each instruction, in the code as it is after the stores before it
  obtain ⟨hsub, hmovLow, -⟩ := codeAt_thunkBytes hcode
  have hcode₁ : CodeAt (storeDword s.mem (s.regs .rsp - 8) (func.setWidth 32)) thunk
      (thunkBytes func isrEntry thunk) :=
    hcode.congr (show 24 < 2 ^ 64 by omega) fun b hb =>
      storeDword_of_notMem fun hmem => hapart b hb (hlow hmem)
  obtain ⟨-, -, hmovHigh, -⟩ := codeAt_thunkBytes hcode₁
  have hcode₂ : CodeAt (storeWord s.mem (s.regs .rsp - 8) func) thunk
      (thunkBytes func isrEntry thunk) :=
    hcode.congr (show 24 < 2 ^ 64 by omega) fun b hb =>
      storeWord_of_notMem fun hmem => hapart b hb hmem
  obtain ⟨-, -, -, hjmp⟩ := codeAt_thunkBytes hcode₂
  have hrip : ∀ j k : ℕ, thunk + BitVec.ofNat 64 j + BitVec.ofNat 64 k
      = thunk + BitVec.ofNat 64 (j + k) := fun j k => by
    rw [add_assoc, ← BitVec.ofNat_add]
  let regs := Function.update s.regs .rsp (s.regs .rsp - 8)
  have hsp : regs .rsp = s.regs .rsp - 8 := Function.update_self _ _ _
  have e₁ : runThunk isrEntry 24 thunk s
      = runThunk isrEntry 23 (thunk + BitVec.ofNat 64 4) ⟨regs, s.mem⟩ := by
    have hlen : (ThunkInsn.subRsp 8).bytes.length = 4 := rfl
    rw [runThunk_subRsp hsub, hlen]
    rfl
  have e₂ : runThunk isrEntry 23 (thunk + BitVec.ofNat 64 4) ⟨regs, s.mem⟩
      = runThunk isrEntry 22 (thunk + BitVec.ofNat 64 11)
        ⟨regs, storeDword s.mem (s.regs .rsp - 8) (func.setWidth 32)⟩ := by
    have haddr : regs .rsp + (0 : BitVec 8).signExtend 64 = s.regs .rsp - 8 := by
      rw [hsp, show (0 : BitVec 8).signExtend 64 = 0 from rfl, add_zero]
    have hlen : (ThunkInsn.movl 0 (func.setWidth 32)).bytes.length = 7 := rfl
    rw [runThunk_movl (s := ⟨regs, s.mem⟩) hmovLow, hlen, hrip, haddr]
  have e₃ : runThunk isrEntry 22 (thunk + BitVec.ofNat 64 11)
        ⟨regs, storeDword s.mem (s.regs .rsp - 8) (func.setWidth 32)⟩
      = runThunk isrEntry 21 (thunk + BitVec.ofNat 64 19)
        ⟨regs, storeWord s.mem (s.regs .rsp - 8) func⟩ := by
    have haddr : regs .rsp + (4 : BitVec 8).signExtend 64 = s.regs .rsp - 8 + 4 := by
      rw [hsp]
      rfl
    have hlen : (ThunkInsn.movl 4 ((func >>> 32).setWidth 32)).bytes.length = 8 := rfl
    rw [runThunk_movl (s := ⟨regs, storeDword s.mem (s.regs .rsp - 8) (func.setWidth 32)⟩)
      hmovHigh, hlen, hrip, haddr, storeDword_halves]
  have hlen : (ThunkInsn.jmp ((isrEntry - (thunk + 24)).setWidth 32)).bytes.length = 5 := rfl
  rw [e₁, e₂, e₃, runThunk_jmp (s := ⟨regs, storeWord s.mem (s.regs .rsp - 8) func⟩) hjmp, hlen,
    hrip]
  rfl

/-- A 32-bit displacement reaches its target exactly if it is not cut. -/
theorem add_signExtend_eq_iff (a target : BitVec 64) :
    a + ((target - a).setWidth 32).signExtend 64 = target ↔
      -2 ^ 31 ≤ (target - a).toInt ∧ (target - a).toInt < 2 ^ 31 := by
  rw [← eq_sub_iff_add_eq']
  generalize target - a = d
  have hrange := BitVec.toInt_eq_toNat_cond d
  have hd := d.isLt
  constructor
  · intro h
    rw [← h, BitVec.toInt_signExtend_of_le (by omega)]
    exact ⟨BitVec.le_toInt _, BitVec.toInt_lt⟩
  · rintro ⟨hlo, hhi⟩
    apply BitVec.eq_of_toInt_eq
    rw [BitVec.toInt_signExtend_of_le (by omega), BitVec.toInt_setWidth]
    unfold Int.bmod
    push_cast
    split_ifs at hrange ⊢ with hneg hhalf hhalf
    · omega
    · omega
    · omega
    · omega

/-! ## Executing `isr_entry_point` -/

/-- The registers that `isr_entry_point` pushes, in this order. -/
def pushedRegs : List Reg64 :=
  [.r15, .r14, .r13, .r12, .r11, .r10, .r9, .r8, .rdi, .rsi, .rbp, .rsp, .rbx, .rdx, .rcx, .rax]

/-- The registers that it pops; what was pushed for `rsp` goes to `rbp` and is lost. -/
def poppedRegs : List Reg64 :=
  [.rax, .rcx, .rdx, .rbx, .rbp, .rbp, .rsi, .rdi, .r8, .r9, .r10, .r11, .r12, .r13, .r14, .r15]

theorem isrEntryPoint_eq :
    isrEntryPoint = pushedRegs.map IsrInsn.push ++
      (.mov .rsp .rdi :: .call (8 * 16) ::
        (poppedRegs.map IsrInsn.pop ++ [.add 8 .rsp, .iretq])) := rfl

/-- What pushing the registers stores : `rsp` is pushed as it stands then. -/
def pushedValues (regs : Reg64 → BitVec 64) : List Reg64 → BitVec 64 → List (BitVec 64)
  | [], _ => []
  | r :: rs, sp => (if r = .rsp then sp else regs r) :: pushedValues regs rs (sp - 8)

theorem pushedValues_update (regs : Reg64 → BitVec 64) (x : BitVec 64) :
    ∀ (rs : List Reg64) (sp : BitVec 64),
      pushedValues (Function.update regs .rsp x) rs sp = pushedValues regs rs sp
  | [], _ => rfl
  | r :: rs, sp => by
    rw [pushedValues, pushedValues, pushedValues_update regs x rs]
    by_cases hr : r = .rsp
    · rw [if_pos hr, if_pos hr]
    · rw [if_neg hr, if_neg hr, Function.update_of_ne hr]

section Stub

variable {handlers : BitVec 64 → IsrHandler} {ret : BitVec 64} {code : List IsrInsn} {log : CallLog}

/-- A run of pushes. -/
theorem runStub_push (rs : List Reg64) (s : IsrCpu) :
    runStub handlers ret (rs.map IsrInsn.push ++ code) s log =
      runStub handlers ret code
        ⟨Function.update s.regs .rsp (s.regs .rsp - wordSpan 64 rs.length),
          pushAll (pushedValues s.regs rs (s.regs .rsp)) (s.regs .rsp) s.mem⟩ log := by
  induction rs generalizing s with
  | nil =>
    rw [List.length_nil, wordSpan_zero, sub_zero, Function.update_eq_self]
    rfl
  | cons r rs ih =>
    have hval : (if r = .rsp then s.regs .rsp else s.regs r) = s.regs r := by
      split_ifs with hr
      · rw [hr]
      · rfl
    rw [List.map_cons, List.cons_append, runStub, ih, pushedValues, hval, List.length_cons,
      sub_wordSpan_succ _ rs.length, pushAll]
    unfold IsrCpu.push
    dsimp only
    rw [Function.update_self, Function.update_idem, pushedValues_update]
    rfl

/-- A run of pops. -/
theorem runStub_pop (rs : List Reg64) (s : IsrCpu) :
    runStub handlers ret (rs.map IsrInsn.pop ++ code) s log =
      runStub handlers ret code (rs.foldl IsrCpu.pop s) log := by
  induction rs generalizing s with
  | nil => rfl
  | cons r rs ih => exact ih (s.pop r)

end Stub

/-! ## Popped registers -/

section Pops

variable {s : IsrCpu} {r : Reg64}

theorem pop_mem : (s.pop r).mem = s.mem := rfl

theorem pop_rsp (hr : r ≠ .rsp) : (s.pop r).regs .rsp = s.regs .rsp + 8 := by
  unfold IsrCpu.pop
  rw [IsrCpu.set_other _ _ hr.symm, IsrCpu.set_self]

theorem pop_self : (s.pop r).regs r = loadWord s.mem (s.regs .rsp) := IsrCpu.set_self _ _ _

theorem pop_other {r' : Reg64} (hr : r' ≠ r) (hsp : r' ≠ .rsp) :
    (s.pop r).regs r' = s.regs r' :=
  (IsrCpu.set_other _ _ hr).trans (IsrCpu.set_other _ _ hsp)

theorem foldl_pop_rsp (rs : List Reg64) (s : IsrCpu) (hrs : .rsp ∉ rs) :
    (rs.foldl IsrCpu.pop s).regs .rsp = s.regs .rsp + wordSpan 64 rs.length := by
  induction rs generalizing s with
  | nil => exact (add_zero _).symm
  | cons r rs ih =>
    obtain ⟨hr, hrs⟩ := not_or.mp (mt List.mem_cons.mpr hrs)
    rw [List.foldl_cons, ih _ hrs, pop_rsp (Ne.symm hr), List.length_cons, wordSpan_succ,
      add_comm (wordSpan 64 rs.length), add_assoc]
    rfl

theorem foldl_pop_other (rs : List Reg64) (s : IsrCpu) (hr : r ∉ rs) (hsp : r ≠ .rsp) :
    (rs.foldl IsrCpu.pop s).regs r = s.regs r := by
  induction rs generalizing s with
  | nil => rfl
  | cons r' rs ih =>
    obtain ⟨hr', hr⟩ := not_or.mp (mt List.mem_cons.mpr hr)
    rw [List.foldl_cons, ih _ hr, pop_other hr' hsp]

/-- A register gets the word that stands where it is popped for the last time. -/
theorem foldl_pop_at (rs : List Reg64) (s : IsrCpu) (hrs : .rsp ∉ rs) (i : ℕ)
    (hi : rs[i]? = some r) (hlast : r ∉ rs.drop (i + 1)) :
    (rs.foldl IsrCpu.pop s).regs r = loadWord s.mem (s.regs .rsp + wordSpan 64 i) := by
  induction rs generalizing s i with
  | nil => exact absurd hi (by simp)
  | cons r' rs ih =>
    obtain ⟨hr', hrs'⟩ := not_or.mp (mt List.mem_cons.mpr hrs)
    rw [List.foldl_cons]
    rcases i with _ | i
    · obtain rfl : r' = r := by simpa using hi
      rw [foldl_pop_other rs _ hlast (Ne.symm hr'), pop_self, wordSpan_zero, add_zero]
    · rw [ih _ hrs' i (by simpa using hi) (by simpa using hlast), pop_mem, pop_rsp (Ne.symm hr'),
        wordSpan_succ, add_comm (wordSpan 64 i), add_assoc]
      rfl

end Pops

/-! ## The interrupt as a whole -/

/-- The structure holds the registers of the interrupted state `s`, the handler and the
frame at the stack pointer; `rsp` stands there as it was when it was pushed. -/
structure HoldsInterrupted (s : IsrCpu) (func : BitVec 64) (seen : IsrRegs) : Prop where
  regs : ∀ r, r ≠ .rsp → seen.regs r.index = s.regs r
  rsp : seen.regs Reg64.rsp.index = s.regs .rsp - 96
  func : seen.func = func
  rip : seen.rip = loadWord s.mem (s.regs .rsp)
  cs : seen.cs = loadWord s.mem (s.regs .rsp + 8)
  rflags : seen.rflags = loadWord s.mem (s.regs .rsp + 16)

/-- What an interrupt in state `s`, with the frame at the stack pointer, should do : the
handler is called once, with a pointer to an `isr_regs_t` that holds the interrupted
state; and `iretq` is reached with the registers that stand there when the handler
returns, and the stack pointer at the frame. -/
def Dispatches (handlers : BitVec 64 → IsrHandler) (func : BitVec 64) (s : IsrCpu)
    (out : IsrCpu × CallLog) : Prop :=
  ∃ entered : IsrCpu, out.2 = [(func, entered)] ∧
    HoldsInterrupted s func (isrRegsAt entered.mem (entered.regs .rdi)) ∧
    (∀ r, r ≠ .rsp → out.1.regs r =
      (isrRegsAt ((handlers func).run entered).mem (entered.regs .rdi)).regs r.index) ∧
    out.1.regs .rsp = s.regs .rsp

/-- The displacement from the end of the thunk to `isr_entry_point` fits 32 bits. -/
def WithinReach (isrEntry thunk : BitVec 64) : Prop :=
  -2 ^ 31 ≤ (isrEntry - (thunk + 24)).toInt ∧ (isrEntry - (thunk + 24)).toInt < 2 ^ 31

/-- The words that `isr_entry_point` stores, from the interrupt frame down : the handler,
the registers and the return address. -/
def storedWords (s : IsrCpu) (func ret : BitVec 64) : List (BitVec 64) :=
  func :: (pushedValues s.regs pushedRegs (s.regs .rsp - 8) ++ [ret])

section Entered

variable {handlers : BitVec 64 → IsrHandler} {ret func : BitVec 64} {s : IsrCpu}

theorem storedWords_length : (storedWords s func ret).length = 18 := rfl

/-- The word at index `i` of the structure. -/
theorem loadWord_storedWords {i : ℕ} (hi : i ≤ 16) :
    loadWord (pushAll (storedWords s func ret) (s.regs .rsp) s.mem)
        (s.regs .rsp - wordSpan 64 17 + wordSpan 64 i)
      = (storedWords s func ret).get ⟨16 - i, by rw [storedWords_length]; omega⟩ := by
  have hsplit : s.regs .rsp - wordSpan 64 17 + wordSpan 64 i
      = s.regs .rsp - wordSpan 64 (16 - i + 1) := by
    rw [show 17 = (16 - i + 1) + i by omega, wordSpan_add, sub_add_eq_sub_sub, sub_add_cancel]
  rw [hsplit]
  exact loadWord_pushAll _ _ _ _ (by rw [storedWords_length]; omega)
    (by rw [storedWords_length]; norm_num)

/-- The frame is not written. -/
theorem loadWord_frame (i : ℕ) (hi : i ≤ 2) :
    loadWord (pushAll (storedWords s func ret) (s.regs .rsp) s.mem)
        (s.regs .rsp - wordSpan 64 17 + wordSpan 64 (17 + i))
      = loadWord s.mem (s.regs .rsp + wordSpan 64 i) := by
  have haddr : s.regs .rsp - wordSpan 64 17 + wordSpan 64 (17 + i)
      = s.regs .rsp + wordSpan 64 i := by
    rw [wordSpan_add, ← add_assoc, sub_add_cancel]
  have hd : (wordSpan 64 (18 + i)).toNat = 8 * (18 + i) := toNat_wordSpan (by omega)
  have hapart : ∀ b ∈ byteRange (s.regs .rsp - wordSpan 64 18 + 0) (64 / 8 * 18),
      b ∉ byteRange (s.regs .rsp - wordSpan 64 18 + wordSpan 64 (18 + i)) (64 / 8) := by
    refine byteRange_disjoint ?_ ?_
    · rw [hd, BitVec.ofNat_eq_ofNat, BitVec.toNat_zero]
      omega
    · rw [hd]
      omega
  rw [wordSpan_add, ← add_assoc, sub_add_cancel, add_zero] at hapart
  rw [haddr]
  refine loadWord_congr fun b hb => ?_
  exact pushAll_of_notMem _ _ _ b (by rw [storedWords_length]; norm_num)
    fun hmem => hapart b hmem hb

/-- The state behind the pushes. -/
def pushedState (s : IsrCpu) (func : BitVec 64) : IsrCpu where
  regs := Function.update s.regs .rsp (s.regs .rsp - wordSpan 64 17)
  mem := pushAll (func :: pushedValues s.regs pushedRegs (s.regs .rsp - 8)) (s.regs .rsp) s.mem

/-- The state in which the handler is entered. -/
def enteredState (s : IsrCpu) (func ret : BitVec 64) : IsrCpu where
  regs := Function.update (Function.update (Function.update s.regs .rsp
    (s.regs .rsp - wordSpan 64 17)) .rdi (s.regs .rsp - wordSpan 64 17)) .rsp
    (s.regs .rsp - wordSpan 64 17 - 8)
  mem := pushAll (storedWords s func ret) (s.regs .rsp) s.mem

theorem enteredState_rsp :
    (enteredState s func ret).regs .rsp = s.regs .rsp - wordSpan 64 17 - 8 := by
  unfold enteredState
  dsimp only
  rw [Function.update_self]

theorem enteredState_rdi :
    (enteredState s func ret).regs .rdi = s.regs .rsp - wordSpan 64 17 := by
  unfold enteredState
  dsimp only
  rw [Function.update_of_ne (by decide), Function.update_self]

/-- The pushes of `isr_entry_point` behind that of the thunk. -/
theorem pushedState_eq :
    (⟨Function.update (s.push func).regs .rsp
        ((s.push func).regs .rsp - wordSpan 64 pushedRegs.length),
      pushAll (pushedValues (s.push func).regs pushedRegs ((s.push func).regs .rsp))
        ((s.push func).regs .rsp) (s.push func).mem⟩ : IsrCpu) = pushedState s func := by
  have hsp : s.regs .rsp - 8 - wordSpan 64 16 = s.regs .rsp - wordSpan 64 17 :=
    (sub_wordSpan_succ (s.regs .rsp) 16).symm
  unfold IsrCpu.push pushedState
  dsimp only
  rw [Function.update_self, Function.update_idem, pushedValues_update, ← hsp]
  rfl

/-- The target of the call is the word that the thunk pushed. -/
theorem loadWord_pushedState :
    loadWord (pushedState s func).mem (s.regs .rsp - wordSpan 64 17 + 8 * 16) = func := by
  have hlen : (pushedValues s.regs pushedRegs (s.regs .rsp - 8)).length = 16 := rfl
  have haddr : s.regs .rsp - wordSpan 64 17 + 8 * 16 = s.regs .rsp - wordSpan 64 (0 + 1) := by
    rw [sub_wordSpan_succ (s.regs .rsp) 16]
    exact sub_add_cancel _ (wordSpan 64 16)
  rw [haddr]
  exact loadWord_pushAll (func :: _) _ _ 0 (Nat.succ_pos _)
    (by rw [List.length_cons, hlen]; norm_num)

/-- The call pushes its return address behind the words. -/
theorem storeWord_pushedState :
    storeWord (pushedState s func).mem (s.regs .rsp - wordSpan 64 17 - 8) ret
      = (enteredState s func ret).mem := by
  unfold enteredState storedWords
  rw [← List.cons_append, pushAll_append]
  rfl

/-- `isr_entry_point` up to the return of the handler. -/
theorem runStub_call :
    runStub handlers ret isrEntryPoint (s.push func) [] =
      runStub handlers ret (poppedRegs.map IsrInsn.pop ++ [.add 8 .rsp, .iretq])
        ((handlers func).run (enteredState s func ret)) [(func, enteredState s func ret)] := by
  have hmoved : IsrCpu.set (pushedState s func) .rdi ((pushedState s func).regs .rsp) =
      ⟨Function.update (Function.update s.regs .rsp (s.regs .rsp - wordSpan 64 17)) .rdi
          (s.regs .rsp - wordSpan 64 17), (pushedState s func).mem⟩ := by
    unfold pushedState
    dsimp only
    rw [Function.update_self]
    rfl
  have hrsp : Function.update (Function.update s.regs .rsp (s.regs .rsp - wordSpan 64 17)) .rdi
      (s.regs .rsp - wordSpan 64 17) .rsp = s.regs .rsp - wordSpan 64 17 := by
    rw [Function.update_of_ne (by decide), Function.update_self]
  rw [isrEntryPoint_eq, runStub_push, pushedState_eq, runStub, hmoved, runStub]
  dsimp only
  unfold IsrCpu.push
  dsimp only
  rw [hrsp, loadWord_pushedState, storeWord_pushedState]
  rfl

/-- `isr_entry_point` does what it should with what the thunk leaves. -/
theorem runStub_dispatches :
    ∃ out, runStub handlers ret isrEntryPoint (s.push func) [] = some out ∧
      Dispatches handlers func s out := by
  have hrdi : (enteredState s func ret).regs .rdi = s.regs .rsp - wordSpan 64 17 :=
    enteredState_rdi
  have hreturn : ((handlers func).run (enteredState s func ret)).regs .rsp
      = s.regs .rsp - wordSpan 64 17 := by
    rw [(handlers func).returns, enteredState_rsp, sub_add_cancel]
  have hnot : Reg64.rsp ∉ poppedRegs := by decide
  rw [runStub_call, runStub_pop]
  refine ⟨_, rfl, enteredState s func ret, rfl, ⟨?_, ?_, ?_, ?_, ?_, ?_⟩, ?_, ?_⟩
  · intro r hr
    rw [hrdi]
    refine (loadWord_storedWords (by cases r <;> decide)).trans ?_
    cases r with
    | rsp => exact absurd rfl hr
    | _ => rfl
  · rw [hrdi]
    refine (loadWord_storedWords (by decide)).trans ?_
    change s.regs .rsp - 8 - 8 - 8 - 8 - 8 - 8 - 8 - 8 - 8 - 8 - 8 - 8 = _
    bv_omega
  · rw [hrdi]
    exact loadWord_storedWords (Nat.le_refl 16)
  · rw [hrdi]
    refine (loadWord_frame 0 (by omega)).trans ?_
    rw [wordSpan_zero, add_zero]
  · rw [hrdi]
    exact loadWord_frame 1 (by omega)
  · rw [hrdi]
    exact loadWord_frame 2 (by omega)
  · intro r hr
    refine (IsrCpu.set_other _ _ hr).trans ?_
    rw [foldl_pop_at poppedRegs _ hnot r.index, hreturn, hrdi]
    · rfl
    · cases r with
      | rsp => exact absurd rfl hr
      | _ => rfl
    · cases r with
      | rsp => exact absurd rfl hr
      | _ => decide
  · refine (IsrCpu.set_self _ _ _).trans ?_
    rw [foldl_pop_rsp _ _ hnot, hreturn, add_assoc]
    exact sub_add_cancel _ (wordSpan 64 17)

end Entered

/-- A jump that does not reach ends up elsewhere. -/
theorem interrupt_of_not_withinReach {s : IsrCpu} {before : BitVec 64 → BitVec 8}
    {func isrEntry thunk : BitVec 64}
    (hcode : ∀ b ∈ byteRange thunk 24, s.mem b = handleIrq before func isrEntry thunk b)
    (hapart : ∀ b ∈ byteRange thunk 24, b ∉ byteRange (s.regs .rsp - 8) 8)
    (handlers : BitVec 64 → IsrHandler) (ret : BitVec 64) (h : ¬ WithinReach isrEntry thunk) :
    interrupt handlers ret isrEntry thunk s = none := by
  unfold interrupt
  rw [runThunk_eq (codeAt_of_handleIrq hcode) hapart,
    if_neg fun hjump => h ((add_signExtend_eq_iff _ _).mp hjump), Option.bind_none]

/-- An interrupt calls the handler with the interrupted state and returns as it should
exactly if `isr_entry_point` is within reach of the thunk. -/
theorem interrupt_dispatches_iff {s : IsrCpu} {before : BitVec 64 → BitVec 8}
    {func isrEntry thunk : BitVec 64}
    (hcode : ∀ b ∈ byteRange thunk 24, s.mem b = handleIrq before func isrEntry thunk b)
    (hapart : ∀ b ∈ byteRange thunk 24, b ∉ byteRange (s.regs .rsp - 8) 8)
    (handlers : BitVec 64 → IsrHandler) (ret : BitVec 64) :
    (∃ out, interrupt handlers ret isrEntry thunk s = some out ∧ Dispatches handlers func s out) ↔
      WithinReach isrEntry thunk := by
  constructor
  · rintro ⟨out, hout, -⟩
    by_contra h
    rw [interrupt_of_not_withinReach hcode hapart handlers ret h] at hout
    exact absurd hout (by simp)
  · intro h
    unfold interrupt
    rw [runThunk_eq (codeAt_of_handleIrq hcode) hapart,
      if_pos ((add_signExtend_eq_iff _ _).mpr h), Option.bind_some]
    exact runStub_dispatches

/-- A handler that does nothing. -/
def emptyIsrHandler : IsrHandler where
  run s := s.set .rsp (s.regs .rsp + 8)
  returns s := s.set_self _ _

/-- An interrupted state with nothing in memory but a thunk at `thunk` for the handler at
`0x401000`, with `isr_entry_point` at `0x400000`. -/
def thunkOnly (thunk : BitVec 64) : IsrCpu where
  regs r := BitVec.ofNat 64 (if r = .rsp then 0x600000 else r.index)
  mem := handleIrq (fun _ => 0) 0x401000 0x400000 thunk

/-- A thunk in the first page below the end of the address space. -/
theorem interrupt_dispatches_iff_topPage :
    ∃ out, interrupt (fun _ => emptyIsrHandler) 0x400020 0x400000 0xfffffffffffff000#64
        (thunkOnly 0xfffffffffffff000#64) = some out ∧
      Dispatches (fun _ => emptyIsrHandler) 0x401000 (thunkOnly 0xfffffffffffff000#64) out :=
  (interrupt_dispatches_iff (s := thunkOnly 0xfffffffffffff000#64) (fun _ _ => rfl) (by
      intro b hb hb'
      have hb : (b - 0xfffffffffffff000#64).toNat < 24 := hb
      have hb' : (b - 0x5ffff8#64).toNat < 8 := hb'
      bv_omega) (fun _ => emptyIsrHandler) 0x400020).mpr ⟨by decide, by decide⟩

/-- Below two GiB of virtual pages the jump of a thunk ends up elsewhere. -/
theorem interrupt_belowTwoGiB :
    ¬ ∃ out, interrupt (fun _ => emptyIsrHandler) 0x400020 0x400000 0xffffffff7ffff000#64
        (thunkOnly 0xffffffff7ffff000#64) = some out ∧
      Dispatches (fun _ => emptyIsrHandler) 0x401000 (thunkOnly 0xffffffff7ffff000#64) out := by
  have hnone : interrupt (fun _ => emptyIsrHandler) 0x400020 0x400000 0xffffffff7ffff000#64
      (thunkOnly 0xffffffff7ffff000#64) = none := by
    refine interrupt_of_not_withinReach (s := thunkOnly 0xffffffff7ffff000#64)
      (fun _ _ => rfl) ?_ _ _ (fun h => absurd h.2 (by decide))
    intro b hb hb'
    have hb : (b - 0xffffffff7ffff000#64).toNat < 24 := hb
    have hb' : (b - 0x5ffff8#64).toNat < 8 := hb'
    bv_omega
  rw [hnone]
  rintro ⟨out, hout, -⟩
  exact absurd hout (by simp)

end AcrnUt
