import AcrnUt.ByteMem
import Mathlib.Tactic

/-!
# The structure block of a device tree blob

`lib/libfdt/fdt.c` on the bytes of a blob. The structure block is a sequence of tokens, each
padded to four bytes : nodes begin and end, properties stand in them, and an end token comes last
(`Libfdt.Shaped`). Where the bytes are those of tokens (`Libfdt.StructAt`), `fdt_next_tag` steps
from each token to the next (`Libfdt.fdtNextTag_eq`).

Whatever the bytes are, `fdt_next_tag` either moves ahead inside the block or fails, with one
exception : a property whose length is `0xfffffff4` leads back to itself
(`Libfdt.fdtNextTag_progress`).

An offset is an `int` and counts from the start of the block. Loops take fuel, and what runs out of
it has no result : that is kept apart from the errors of the code.
-/

set_option linter.unusedSectionVars false

namespace AcrnUt

namespace Libfdt

/-! ## The code -/

/-- `FDT_MAGIC`. -/
def magic : BitVec 32 := 0xd00dfeed

/-- `FDT_BEGIN_NODE`. -/
def beginNode : BitVec 32 := 1

/-- `FDT_END_NODE`. -/
def endNode : BitVec 32 := 2

/-- `FDT_PROP`. -/
def prop : BitVec 32 := 3

/-- `FDT_NOP`. -/
def nop : BitVec 32 := 4

/-- `FDT_END`. -/
def fin : BitVec 32 := 9

/-- `-FDT_ERR_NOTFOUND`. -/
def errNotfound : ℤ := -1

/-- `-FDT_ERR_BADOFFSET`. -/
def errBadoffset : ℤ := -4

/-- `-FDT_ERR_TRUNCATED`. -/
def errTruncated : ℤ := -8

/-- `-FDT_ERR_BADSTRUCTURE`. -/
def errBadstructure : ℤ := -11

/-- `fdt_magic`. -/
def fdtMagic (m : ByteMem) : BitVec 32 := m.be32 0

/-- `fdt_totalsize`. -/
def fdtTotalsize (m : ByteMem) : ℕ := (m.be32 4).toNat

/-- `fdt_off_dt_struct`. -/
def fdtOffDtStruct (m : ByteMem) : ℕ := (m.be32 8).toNat

/-- `fdt_off_dt_strings`. -/
def fdtOffDtStrings (m : ByteMem) : ℕ := (m.be32 12).toNat

/-- `fdt_version`. -/
def fdtVersion (m : ByteMem) : ℕ := (m.be32 20).toNat

/-- `fdt_last_comp_version`. -/
def fdtLastCompVersion (m : ByteMem) : ℕ := (m.be32 24).toNat

/-- `fdt_size_dt_strings`. -/
def fdtSizeDtStrings (m : ByteMem) : ℕ := (m.be32 32).toNat

/-- `fdt_size_dt_struct`. -/
def fdtSizeDtStruct (m : ByteMem) : ℕ := (m.be32 36).toNat

/-- A conversion to `unsigned int`. -/
def toUnsigned (x : ℤ) : ℤ := x % 2 ^ 32

/-- A conversion to `int`. -/
def toInt (x : ℤ) : ℤ := x.bmod (2 ^ 32)

/-- `FDT_TAGALIGN`. -/
def tagalign (x : ℤ) : ℤ := (x + 3) / 4 * 4

/-- `fdt_offset_ptr`, as an address. -/
def fdtOffsetPtr (m : ByteMem) (offset len : ℤ) : Option ℤ :=
  if 0x11 ≤ fdtVersion m ∧ (toUnsigned (offset + len) < toUnsigned offset ∨
      fdtSizeDtStruct m < toUnsigned (offset + len)) then none
  else some (fdtOffDtStruct m + offset)

/-- The loop of `fdt_next_tag` over a name : the offset behind it, or nothing where the pointer is
null. -/
def skipName (m : ByteMem) : ℕ → ℤ → Option (Option ℤ)
  | 0, _ => none
  | fuel + 1, offset =>
    match fdtOffsetPtr m offset 1 with
    | none => some none
    | some p => if m p = 0 then some (some (offset + 1)) else skipName m fuel (offset + 1)

/-- The end of the token with the tag `tag`, whose tag ends at `offset`, unless it ends too early or
the tag is none. -/
def tokenEnd (fuel : ℕ) (m : ByteMem) (tag : BitVec 32) (offset : ℤ) : Option (Option ℤ) :=
  if tag = beginNode then skipName m fuel offset
  else if tag = prop then
    some ((fdtOffsetPtr m offset 4).map fun lenp =>
      toInt (offset + (12 - 4) + (m.be32 lenp).toNat))
  else if tag = fin ∨ tag = endNode ∨ tag = nop then some (some offset)
  else some none

/-- `fdt_next_tag` : the tag and `*nextoffset`. -/
def fdtNextTag (fuel : ℕ) (m : ByteMem) (startoffset : ℤ) : Option (BitVec 32 × ℤ) :=
  match fdtOffsetPtr m startoffset 4 with
  | none => some (fin, errTruncated)
  | some tagp =>
    match tokenEnd fuel m (m.be32 tagp) (startoffset + 4) with
    | none => none
    | some none => some (fin, errBadstructure)
    | some (some offset) =>
      match fdtOffsetPtr m startoffset (toUnsigned (offset - startoffset)) with
      | none => some (fin, errBadstructure)
      | some _ => some (m.be32 tagp, tagalign offset)

/-- `_fdt_check_node_offset`. -/
def fdtCheckNodeOffset (fuel : ℕ) (m : ByteMem) (offset : ℤ) : Option ℤ :=
  if offset < 0 ∨ offset % 4 ≠ 0 then some errBadoffset
  else (fdtNextTag fuel m offset).map fun r => if r.1 ≠ beginNode then errBadoffset else r.2

/-- `_fdt_check_prop_offset`. -/
def fdtCheckPropOffset (fuel : ℕ) (m : ByteMem) (offset : ℤ) : Option ℤ :=
  if offset < 0 ∨ offset % 4 ≠ 0 then some errBadoffset
  else (fdtNextTag fuel m offset).map fun r => if r.1 ≠ prop then errBadoffset else r.2

/-- The loop of `fdt_next_node`, with `depth` as a pointer that may be null. -/
def nextNodeLoop (fuel : ℕ) (m : ByteMem) : ℕ → ℤ → Option ℤ → Option (ℤ × Option ℤ)
  | 0, _, _ => none
  | n + 1, offset, depth =>
    match fdtNextTag fuel m offset with
    | none => none
    | some r =>
      if r.1 = beginNode then some (offset, depth.map (· + 1))
      else if r.1 = endNode then
        match depth with
        | none => nextNodeLoop fuel m n r.2 none
        | some d =>
          if d - 1 < 0 then some (r.2, some (d - 1)) else nextNodeLoop fuel m n r.2 (some (d - 1))
      else if r.1 = fin then
        if 0 ≤ r.2 ∨ (r.2 = errTruncated ∧ depth = none) then some (errNotfound, depth)
        else some (r.2, depth)
      else nextNodeLoop fuel m n r.2 depth

/-- `fdt_next_node` : the offset it returns and `*depth`. -/
def fdtNextNode (fuel : ℕ) (m : ByteMem) (offset : ℤ) (depth : Option ℤ) :
    Option (ℤ × Option ℤ) :=
  if 0 ≤ offset then
    match fdtCheckNodeOffset fuel m offset with
    | none => none
    | some nextoffset =>
      if nextoffset < 0 then some (nextoffset, depth) else nextNodeLoop fuel m fuel nextoffset depth
  else nextNodeLoop fuel m fuel 0 depth

/-! ## Tokens -/

/-- A token. A name or a value is padded to four bytes. -/
inductive Token
  | beginNode (name : List (BitVec 8))
  | endNode
  | prop (nameoff : BitVec 32) (data : List (BitVec 8))
  | nop
  | fin

namespace Token

/-- Rounded up to four. -/
def align (n : ℕ) : ℕ := (n + 3) / 4 * 4

def tag : Token → BitVec 32
  | beginNode _ => Libfdt.beginNode
  | endNode => Libfdt.endNode
  | prop _ _ => Libfdt.prop
  | nop => Libfdt.nop
  | fin => Libfdt.fin

/-- The bytes of a token. -/
def bytes : Token → ℕ
  | beginNode name => 4 + name.length + 1
  | prop _ data => 12 + data.length
  | _ => 4

/-- The bytes of a token, with its padding. -/
def size (t : Token) : ℕ :=
  align t.bytes

theorem four_le_bytes (t : Token) : 4 ≤ t.bytes := by
  cases t with
  | beginNode name => exact (Nat.le_add_right 4 _).trans (Nat.le_add_right _ 1)
  | prop nameoff data => exact (by omega : 4 ≤ 12).trans (Nat.le_add_right 12 _)
  | _ => exact le_rfl

theorem bytes_le_size (t : Token) : t.bytes ≤ t.size := by
  unfold size align
  omega

theorem size_mod (t : Token) : t.size % 4 = 0 :=
  Nat.mul_mod_left _ _

end Token

/-- The token stands at the address `a`. -/
def TokenAt (m : ByteMem) (a : ℤ) (t : Token) : Prop :=
  m.be32 a = t.tag ∧
    match t with
    | .beginNode name => 0 ∉ name ∧ m.Holds (a + 4) (name ++ [0])
    | .prop nameoff data => m.be32 (a + 4) = BitVec.ofNat 32 data.length ∧
        m.be32 (a + 8) = nameoff ∧ m.Holds (a + 12) data
    | _ => True

/-- The tokens stand one after the other from the offset `o` of the structure block on. -/
def StructAt (m : ByteMem) : ℤ → List Token → Prop
  | _, [] => True
  | o, t :: ts => TokenAt m (fdtOffDtStruct m + o) t ∧ StructAt m (o + t.size) ts

/-- The bytes of tokens. -/
def sizes (ts : List Token) : ℕ := (ts.map Token.size).sum

/-- The tokens that may follow while `d` nodes are open. -/
inductive Shaped : ℕ → List Token → Prop
  | fin : Shaped 0 [.fin]
  | begin {d : ℕ} {name : List (BitVec 8)} {ts : List Token} :
      Shaped (d + 2) ts → Shaped (d + 1) (.beginNode name :: ts)
  | close {d : ℕ} {ts : List Token} : Shaped d ts → Shaped (d + 1) (.endNode :: ts)
  | prop {d : ℕ} {nameoff : BitVec 32} {data : List (BitVec 8)} {ts : List Token} :
      Shaped (d + 1) ts → Shaped (d + 1) (.prop nameoff data :: ts)
  | nop {d : ℕ} {ts : List Token} : Shaped d ts → Shaped d (.nop :: ts)

theorem Shaped.of_prop {d : ℕ} {nameoff : BitVec 32} {data : List (BitVec 8)} {ts : List Token}
    (h : Shaped (d + 1) (.prop nameoff data :: ts)) : Shaped (d + 1) ts := by
  cases h with
  | prop hs => exact hs

/-! ## Stepping over tokens -/

section Step

variable {m : ByteMem} {fuel : ℕ} {o : ℤ}

theorem toUnsigned_of_lt {x : ℤ} (h₀ : 0 ≤ x) (h : x < 2 ^ 32) : toUnsigned x = x :=
  Int.emod_eq_of_lt h₀ h

theorem toInt_of_lt {x : ℤ} (h₀ : 0 ≤ x) (h : x < 2 ^ 31) : toInt x = x :=
  Int.bmod_eq_of_le (by omega) (by omega)

/-- What lies inside the block is reached. -/
theorem fdtOffsetPtr_inside {len : ℤ} (ho : 0 ≤ o) (hlen : 0 ≤ len)
    (hsize : o + len ≤ fdtSizeDtStruct m) :
    fdtOffsetPtr m o len = some (fdtOffDtStruct m + o) := by
  have hlt : (fdtSizeDtStruct m : ℤ) < 2 ^ 32 := by
    exact_mod_cast (m.be32 36).isLt
  refine if_neg ?_
  rw [toUnsigned_of_lt (by omega) (by omega), toUnsigned_of_lt ho (by omega)]
  omega

/-- The loop stops behind the first byte that is 0. -/
theorem skipName_eq {name : List (BitVec 8)} (h : 0 ∉ name)
    (hholds : m.Holds (fdtOffDtStruct m + o) (name ++ [0])) (ho : 0 ≤ o)
    (hsize : o + name.length + 1 ≤ fdtSizeDtStruct m) (hfuel : name.length < fuel) :
    skipName m fuel o = some (some (o + name.length + 1)) := by
  obtain ⟨fuel, rfl⟩ := Nat.exists_eq_succ_of_ne_zero (Nat.ne_of_gt (Nat.zero_lt_of_lt hfuel))
  have hptr : fdtOffsetPtr m o 1 = some (fdtOffDtStruct m + o) :=
    fdtOffsetPtr_inside ho zero_le_one (by omega)
  induction name generalizing o fuel with
  | nil =>
    have hz : m (fdtOffDtStruct m + o) = 0 := hholds.1
    rw [skipName, hptr]
    simp [hz]
  | cons x name ih =>
    rw [List.length_cons] at hsize hfuel
    push_cast at hsize
    obtain ⟨hx, hrest⟩ := hholds
    rw [List.mem_cons, not_or] at h
    obtain ⟨fuel, rfl⟩ := Nat.exists_eq_succ_of_ne_zero (Nat.ne_of_gt (show 0 < fuel by omega))
    have hne : m (fdtOffDtStruct m + o) ≠ 0 := fun he => h.1 (he.symm.trans hx)
    have hnext := ih h.2 (o := o + 1) (by rwa [← add_assoc]) (by omega) (by omega) fuel (by omega)
      (fdtOffsetPtr_inside (by omega) zero_le_one (by omega))
    rw [skipName, hptr]
    dsimp only
    rw [if_neg hne, hnext, List.length_cons]
    push_cast
    congr 2
    omega

/-- The end of a token, from its tag on. -/
theorem tokenEnd_eq {t : Token} (h : TokenAt m (fdtOffDtStruct m + o) t) (ho : 0 ≤ o)
    (hsize : o + t.bytes ≤ fdtSizeDtStruct m) (hsmall : fdtSizeDtStruct m < 2 ^ 31)
    (hfuel : fdtSizeDtStruct m ≤ fuel) :
    tokenEnd fuel m t.tag (o + 4) = some (some (o + t.bytes)) := by
  cases t with
  | beginNode name =>
    obtain ⟨hname, hholds⟩ := h.2
    rw [Token.bytes] at hsize ⊢
    push_cast at hsize ⊢
    rw [add_assoc] at hholds
    refine (skipName_eq hname hholds (by omega) (by omega) (by omega)).trans ?_
    congr 2
    omega
  | prop nameoff data =>
    obtain ⟨hlen, -, -⟩ := h.2
    rw [Token.bytes] at hsize ⊢
    push_cast at hsize ⊢
    have hword : (BitVec.ofNat 32 data.length).toNat = data.length := by
      rw [BitVec.toNat_ofNat]
      exact Nat.mod_eq_of_lt (by omega)
    have hprop : ∀ x, tokenEnd fuel m Libfdt.prop x = some ((fdtOffsetPtr m x 4).map fun lenp =>
        toInt (x + (12 - 4) + (m.be32 lenp).toNat)) := fun x => rfl
    rw [Token.tag, hprop, fdtOffsetPtr_inside (by omega) (by omega) (by omega), Option.map_some,
      ← add_assoc, hlen, hword, toInt_of_lt (by omega) (by omega)]
    congr 2
    omega
  | endNode => rfl
  | nop => rfl
  | fin => rfl

theorem tagalign_add {n : ℕ} (h : o % 4 = 0) : tagalign (o + n) = o + Token.align n := by
  unfold tagalign Token.align
  push_cast
  omega

/-- Stepping over a token. -/
theorem fdtNextTag_eq {t : Token} (h : TokenAt m (fdtOffDtStruct m + o) t) (ho : 0 ≤ o)
    (halign : o % 4 = 0) (hsize : o + t.size ≤ fdtSizeDtStruct m)
    (hsmall : fdtSizeDtStruct m < 2 ^ 31) (hfuel : fdtSizeDtStruct m ≤ fuel) :
    fdtNextTag fuel m o = some (t.tag, o + t.size) := by
  have hfour := t.four_le_bytes
  have hbytes := t.bytes_le_size
  have hdiff : toUnsigned (o + t.bytes - o) = t.bytes := by
    rw [add_sub_cancel_left]
    exact toUnsigned_of_lt (by omega) (by omega)
  rw [fdtNextTag, fdtOffsetPtr_inside ho (by omega) (by omega)]
  dsimp only
  rw [h.1, tokenEnd_eq h ho (by omega) hsmall hfuel]
  dsimp only
  rw [hdiff, fdtOffsetPtr_inside ho (by omega) (by omega), tagalign_add halign]
  rfl

end Step

/-! ## Any bytes -/

section Any

variable {m m' : ByteMem} {fuel : ℕ} {o n : ℤ}

/-- Nothing outside of the block is reached. -/
theorem inside_of_fdtOffsetPtr {len p : ℤ} (hv : 0x11 ≤ fdtVersion m)
    (hsmall : fdtSizeDtStruct m < 2 ^ 31) (ho : 0 ≤ o) (ho' : o < 2 ^ 31) (hlen : 0 ≤ len)
    (hlen' : len < 2 ^ 32) (h : fdtOffsetPtr m o len = some p) :
    p = fdtOffDtStruct m + o ∧ o + len ≤ fdtSizeDtStruct m := by
  unfold fdtOffsetPtr toUnsigned at h
  split at h
  · exact absurd h (by simp)
  · rename_i hin
    refine ⟨(Option.some.inj h).symm, ?_⟩
    have hwrap := Int.emod_add_mul_ediv (o + len) (2 ^ 32)
    simp only [hv, true_and, not_or, not_lt] at hin
    omega

/-- A name that is skipped ends inside the block. -/
theorem inside_of_skipName (hv : 0x11 ≤ fdtVersion m) (hsmall : fdtSizeDtStruct m < 2 ^ 31)
    (ho : 0 ≤ o) (ho' : o < 2 ^ 31) (h : skipName m fuel o = some (some n)) :
    o < n ∧ n ≤ fdtSizeDtStruct m := by
  induction fuel generalizing o with
  | zero => simp [skipName] at h
  | succ fuel ih =>
    rw [skipName] at h
    split at h
    · exact absurd h (by simp)
    · rename_i p hp
      have hin := (inside_of_fdtOffsetPtr hv hsmall ho ho' zero_le_one (by omega) hp).2
      split at h
      · simp only [Option.some.injEq] at h
        omega
      · have := ih (by omega) (by omega) h
        omega

/-- The loop over a name ends, at the latest at the end of the block. -/
theorem skipName_isSome (hv : 0x11 ≤ fdtVersion m) (hsmall : fdtSizeDtStruct m < 2 ^ 31)
    (ho : 0 ≤ o) (ho' : o < 2 ^ 31) (hpos : 0 < fuel) (hfuel : fdtSizeDtStruct m - o < fuel) :
    (skipName m fuel o).isSome := by
  induction fuel generalizing o with
  | zero => omega
  | succ fuel ih =>
    rw [skipName]
    split
    · rfl
    · rename_i p hp
      have hin := (inside_of_fdtOffsetPtr hv hsmall ho ho' zero_le_one (by omega) hp).2
      split
      · rfl
      · exact ih (by omega) (by omega) (by omega) (by omega)

/-- So `fdt_next_tag` returns. -/
theorem fdtNextTag_isSome (hv : 0x11 ≤ fdtVersion m) (hsmall : fdtSizeDtStruct m < 2 ^ 31)
    (hfuel : fdtSizeDtStruct m ≤ fuel) (ho : 0 ≤ o) (ho' : o < 2 ^ 31) :
    (fdtNextTag fuel m o).isSome := by
  unfold fdtNextTag
  split
  · rfl
  · rename_i tagp htag
    have hin := (inside_of_fdtOffsetPtr hv hsmall ho ho' (by omega) (by omega) htag).2
    have hend : (tokenEnd fuel m (m.be32 tagp) (o + 4)).isSome := by
      unfold tokenEnd
      split_ifs
      · exact skipName_isSome hv hsmall (by omega) (by omega) (by omega) (by omega)
      all_goals rfl
    obtain ⟨e, he⟩ := Option.isSome_iff_exists.mp hend
    rw [he]
    cases e with
    | none => rfl
    | some e =>
      dsimp only
      split <;> rfl

/-- A property that leads back to itself : with its header, its length is `2 ^ 32`. -/
def Stuck (m : ByteMem) (o : ℤ) : Prop :=
  m.be32 (fdtOffDtStruct m + o) = prop ∧ m.be32 (fdtOffDtStruct m + (o + 4)) = 0xfffffff4

/-- A token that ends inside the block ends behind its start, or leads back to it. -/
theorem inside_of_tokenEnd {e p : ℤ} (hv : 0x11 ≤ fdtVersion m)
    (hsmall : fdtSizeDtStruct m < 2 ^ 31) (ho : 0 ≤ o) (ho' : o < 2 ^ 31)
    (htag : fdtOffsetPtr m o 4 = some (fdtOffDtStruct m + o))
    (he : tokenEnd fuel m (m.be32 (fdtOffDtStruct m + o)) (o + 4) = some (some e))
    (hp : fdtOffsetPtr m o (toUnsigned (e - o)) = some p) :
    (o < e ∨ Stuck m o ∧ e = o) ∧ e ≤ fdtSizeDtStruct m := by
  have hfour := (inside_of_fdtOffsetPtr hv hsmall ho ho' (by omega) (by omega) htag).2
  have hd : 0 ≤ toUnsigned (e - o) ∧ toUnsigned (e - o) < 2 ^ 32 :=
    ⟨Int.emod_nonneg _ (by omega), Int.emod_lt_of_pos _ (by omega)⟩
  have hin := (inside_of_fdtOffsetPtr hv hsmall ho ho' hd.1 hd.2 hp).2
  unfold tokenEnd at he
  split at he
  · have hname := inside_of_skipName hv hsmall (by omega) (by omega) he
    omega
  · split at he
    · rename_i htag'
      obtain ⟨lenp, hlenp, rfl⟩ := Option.map_eq_some_iff.mp (Option.some.inj he)
      obtain ⟨rfl, -⟩ := inside_of_fdtOffsetPtr hv hsmall (by omega) (by omega) (by omega)
        (by omega) hlenp
      have hlen := (m.be32 (fdtOffDtStruct m + (o + 4))).isLt
      -- The end is the start with the unsigned difference, as both are `int`s.
      generalize hx : o + 4 + (12 - 4) + ((m.be32 (fdtOffDtStruct m + (o + 4))).toNat : ℤ) = x at *
      have hmod : toInt x % 2 ^ 32 = x % 2 ^ 32 := Int.bmod_emod
      have hge : -(2 ^ 31) ≤ toInt x := Int.le_bmod (by omega)
      have hlt : toInt x < 2 ^ 31 := Int.bmod_lt (by omega)
      unfold toUnsigned at hd hin
      have hend : toInt x = o + (toInt x - o) % 2 ^ 32 := by omega
      rcases hd.1.eq_or_lt with hzero | hpos
      · refine ⟨Or.inr ⟨⟨htag', BitVec.eq_of_toNat_eq ?_⟩, by omega⟩, by omega⟩
        show _ = 0xfffffff4
        omega
      · omega
    · split at he
      · simp only [Option.some.injEq] at he
        omega
      · exact absurd he (by simp)

/-- Where `fdt_next_tag` does not fail, it moves ahead inside the block, or is at a property that
leads back to itself. It fails only with `FDT_END`. -/
theorem fdtNextTag_progress {r : BitVec 32 × ℤ} (hv : 0x11 ≤ fdtVersion m)
    (hsmall : fdtSizeDtStruct m < 2 ^ 31) (ho : 0 ≤ o) (ho' : o < 2 ^ 31) (halign : o % 4 = 0)
    (h : fdtNextTag fuel m o = some r) :
    r.1 = fin ∧ r.2 < 0 ∨ (o < r.2 ∨ Stuck m o ∧ r.2 = o) ∧
      r.2 ≤ tagalign (fdtSizeDtStruct m) ∧ r.2 % 4 = 0 := by
  unfold fdtNextTag at h
  split at h
  · obtain rfl := Option.some.inj h
    exact Or.inl ⟨rfl, by decide⟩
  · rename_i tagp htag
    obtain ⟨rfl, -⟩ := inside_of_fdtOffsetPtr hv hsmall ho ho' (by omega) (by omega) htag
    split at h
    · exact nomatch h
    · obtain rfl := Option.some.inj h
      exact Or.inl ⟨rfl, by decide⟩
    · rename_i e he
      split at h
      · obtain rfl := Option.some.inj h
        exact Or.inl ⟨rfl, by decide⟩
      · rename_i p hp
        obtain rfl := Option.some.inj h
        obtain ⟨hmove, hsize⟩ := inside_of_tokenEnd hv hsmall ho ho' htag he hp
        dsimp only [tagalign]
        exact Or.inr ⟨hmove.imp (fun h => by omega) fun h => ⟨h.1, by omega⟩, by omega, by omega⟩

/-- A step of the loop, where nothing leads back to itself. -/
theorem step_of_tag {r : BitVec 32 × ℤ} (hv : 0x11 ≤ fdtVersion m)
    (hsmall : fdtSizeDtStruct m ≤ 2 ^ 31 - 4) (hstuck : ∀ o, ¬ Stuck m o) (ho : 0 ≤ o)
    (ho' : o ≤ tagalign (fdtSizeDtStruct m)) (halign : o % 4 = 0)
    (h : fdtNextTag fuel m o = some r) (hfin : r.1 ≠ fin) :
    o < r.2 ∧ r.2 ≤ tagalign (fdtSizeDtStruct m) ∧ r.2 % 4 = 0 := by
  have hlt : o < 2 ^ 31 := by
    unfold tagalign at ho'
    omega
  rcases fdtNextTag_progress hv (by omega) ho hlt halign h with hfail | ⟨hmove, hrest⟩
  · exact absurd hfail.1 hfin
  · exact ⟨hmove.resolve_right fun hs => hstuck o hs.1, hrest⟩

/-- So the loop comes to its end. -/
theorem nextNodeLoop_isSome (hv : 0x11 ≤ fdtVersion m) (hsmall : fdtSizeDtStruct m ≤ 2 ^ 31 - 4)
    (hstuck : ∀ o, ¬ Stuck m o) (hfuel : fdtSizeDtStruct m ≤ fuel) {k : ℕ} {depth : Option ℤ}
    (ho : 0 ≤ o) (ho' : o ≤ tagalign (fdtSizeDtStruct m)) (halign : o % 4 = 0)
    (hk : tagalign (fdtSizeDtStruct m) - o < k) : (nextNodeLoop fuel m k o depth).isSome := by
  induction k generalizing o depth with
  | zero => omega
  | succ k ih =>
    have hlt : o < 2 ^ 31 := by
      unfold tagalign at ho'
      omega
    obtain ⟨r, hr⟩ := Option.isSome_iff_exists.mp
      (fdtNextTag_isSome hv (by omega) hfuel ho hlt)
    have hgo : ∀ d, r.1 ≠ fin → (nextNodeLoop fuel m k r.2 d).isSome := by
      intro d h
      obtain ⟨hlt, hle, hmod⟩ := step_of_tag hv hsmall hstuck ho ho' halign hr h
      exact ih (by omega) hle hmod (by omega)
    unfold nextNodeLoop
    rw [hr]
    dsimp only
    split
    · rfl
    · split
      · rename_i hend
        have hfin : r.1 ≠ fin := by
          rw [hend]
          decide
        split
        · exact hgo _ hfin
        · split
          · rfl
          · exact hgo _ hfin
      · split
        · split <;> rfl
        · exact hgo _ ‹_›

/-- The two memories have the same structure block at the same place. -/
structure SameStruct (m m' : ByteMem) : Prop where
  off : m'.be32 8 = m.be32 8
  version : m'.be32 20 = m.be32 20
  size : m'.be32 36 = m.be32 36
  bytes : ∀ x : ℤ, fdtOffDtStruct m ≤ x → x < fdtOffDtStruct m + fdtSizeDtStruct m → m' x = m x

section Same

variable (hsame : SameStruct m m') (hv : 0x11 ≤ fdtVersion m) (hsmall : fdtSizeDtStruct m < 2 ^ 31)

include hsame

theorem SameStruct.fdtOffsetPtr_eq (o len : ℤ) : fdtOffsetPtr m' o len = fdtOffsetPtr m o len := by
  unfold fdtOffsetPtr fdtVersion fdtSizeDtStruct fdtOffDtStruct
  rw [hsame.off, hsame.version, hsame.size]

include hv hsmall

/-- A word that is reached is the same. -/
theorem SameStruct.be32_eq {p : ℤ} (ho : 0 ≤ o) (ho' : o < 2 ^ 31)
    (h : fdtOffsetPtr m o 4 = some p) : m'.be32 p = m.be32 p := by
  obtain ⟨rfl, hin⟩ := inside_of_fdtOffsetPtr hv hsmall ho ho' (by omega) (by omega) h
  exact ByteMem.be32_congr fun x hx hx' => hsame.bytes x (by omega) (by omega)

theorem SameStruct.skipName_eq (ho : 0 ≤ o) (ho' : o < 2 ^ 31) :
    skipName m' fuel o = skipName m fuel o := by
  induction fuel generalizing o with
  | zero => rfl
  | succ fuel ih =>
    rw [skipName, skipName, hsame.fdtOffsetPtr_eq]
    cases hp : fdtOffsetPtr m o 1 with
    | none => rfl
    | some p =>
      obtain ⟨rfl, hin⟩ := inside_of_fdtOffsetPtr hv hsmall ho ho' zero_le_one (by omega) hp
      dsimp only
      rw [hsame.bytes _ (by omega) (by omega), ih (by omega) (by omega)]

/-- `fdt_next_tag` reads nothing outside of the header and the block. -/
theorem SameStruct.fdtNextTag_eq (ho : 0 ≤ o) (ho' : o < 2 ^ 31) :
    fdtNextTag fuel m' o = fdtNextTag fuel m o := by
  unfold fdtNextTag
  rw [hsame.fdtOffsetPtr_eq]
  cases htag : fdtOffsetPtr m o 4 with
  | none => rfl
  | some tagp =>
    have hin := (inside_of_fdtOffsetPtr hv hsmall ho ho' (by omega) (by omega) htag).2
    have hend : tokenEnd fuel m' (m.be32 tagp) (o + 4) = tokenEnd fuel m (m.be32 tagp) (o + 4) := by
      unfold tokenEnd
      rw [hsame.skipName_eq hv hsmall (by omega) (by omega), hsame.fdtOffsetPtr_eq]
      cases hlen : fdtOffsetPtr m (o + 4) 4 with
      | none => rfl
      | some lenp =>
        rw [Option.map_some, Option.map_some,
          hsame.be32_eq hv hsmall (by omega) (by omega) hlen]
    dsimp only
    rw [hsame.be32_eq hv hsmall ho ho' htag, hend]
    simp only [hsame.fdtOffsetPtr_eq]

end Same

/-- Nor does the loop of `fdt_next_node`. -/
theorem SameStruct.nextNodeLoop_eq (hsame : SameStruct m m') (hv : 0x11 ≤ fdtVersion m)
    (hsmall : fdtSizeDtStruct m ≤ 2 ^ 31 - 4) (hstuck : ∀ o, ¬ Stuck m o) {k : ℕ}
    {depth : Option ℤ} (ho : 0 ≤ o) (ho' : o ≤ tagalign (fdtSizeDtStruct m))
    (halign : o % 4 = 0) : nextNodeLoop fuel m' k o depth = nextNodeLoop fuel m k o depth := by
  induction k generalizing o depth with
  | zero => rfl
  | succ k ih =>
    have hlt : o < 2 ^ 31 := by
      unfold tagalign at ho'
      omega
    unfold nextNodeLoop
    rw [hsame.fdtNextTag_eq hv (by omega) ho hlt]
    cases hr : fdtNextTag fuel m o with
    | none => rfl
    | some r =>
      have hgo : ∀ d, r.1 ≠ fin →
          nextNodeLoop fuel m' k r.2 d = nextNodeLoop fuel m k r.2 d := by
        intro d h
        obtain ⟨hlt, hle, hmod⟩ := step_of_tag hv hsmall hstuck ho ho' halign hr h
        exact ih (by omega) hle hmod
      dsimp only
      split
      · rfl
      · split
        · rename_i hend
          have hfin : r.1 ≠ fin := by
            rw [hend]
            decide
          split
          · exact hgo _ hfin
          · rw [hgo _ hfin]
        · split
          · rfl
          · exact hgo _ ‹_›

/-- On any bytes without a property that leads back to itself, `fdt_next_node` returns, and reads
nothing outside of the header and the structure block. -/
theorem fdtNextNode_any (hv : 0x11 ≤ fdtVersion m) (hsmall : fdtSizeDtStruct m ≤ 2 ^ 31 - 4)
    (hstuck : ∀ o, ¬ Stuck m o) (hfuel : tagalign (fdtSizeDtStruct m) < fuel) {offset : ℤ}
    (hoffset : offset < 2 ^ 31) (depth : Option ℤ) :
    (fdtNextNode fuel m offset depth).isSome ∧ ∀ m', SameStruct m m' →
      fdtNextNode fuel m' offset depth = fdtNextNode fuel m offset depth := by
  have hzero : 0 ≤ tagalign (fdtSizeDtStruct m) := by
    unfold tagalign
    omega
  have hsize : fdtSizeDtStruct m ≤ fuel := by
    unfold tagalign at hfuel
    omega
  unfold fdtNextNode
  split
  · rename_i ho
    have hnode : ∀ m', SameStruct m m' →
        fdtCheckNodeOffset fuel m' offset = fdtCheckNodeOffset fuel m offset := by
      intro m' hsame
      unfold fdtCheckNodeOffset
      rw [hsame.fdtNextTag_eq hv (by omega) ho hoffset]
    -- The node that is checked ends inside the block.
    have hcheck : ∃ nextoffset, fdtCheckNodeOffset fuel m offset = some nextoffset ∧
        (0 ≤ nextoffset → nextoffset ≤ tagalign (fdtSizeDtStruct m) ∧ nextoffset % 4 = 0) := by
      unfold fdtCheckNodeOffset
      split
      · exact ⟨_, rfl, fun h => absurd h (by decide)⟩
      · rename_i halign
        obtain ⟨r, hr⟩ := Option.isSome_iff_exists.mp
          (fdtNextTag_isSome hv (by omega) hsize ho hoffset)
        refine ⟨_, by rw [hr, Option.map_some], ?_⟩
        split
        · exact fun h => absurd h (by decide)
        · rcases fdtNextTag_progress hv (by omega) ho hoffset (by omega) hr with hfail | hgo
          · exact fun h => absurd h (by omega)
          · exact fun _ => hgo.2
    obtain ⟨nextoffset, heq, hin⟩ := hcheck
    rw [heq] at hnode ⊢
    dsimp only
    split
    · rename_i hneg
      refine ⟨rfl, fun m' hsame => ?_⟩
      rw [hnode m' hsame]
      exact if_pos hneg
    · rename_i hneg
      obtain ⟨hle, hmod⟩ := hin (by omega)
      refine ⟨nextNodeLoop_isSome hv hsmall hstuck hsize (by omega) hle hmod (by omega), ?_⟩
      intro m' hsame
      rw [hnode m' hsame]
      exact (if_neg hneg).trans (hsame.nextNodeLoop_eq hv hsmall hstuck (by omega) hle hmod)
  · refine ⟨nextNodeLoop_isSome hv hsmall hstuck hsize le_rfl hzero (by omega) (by omega), ?_⟩
    exact fun m' hsame => hsame.nextNodeLoop_eq hv hsmall hstuck le_rfl hzero (by omega)

end Any

/-! ## A blob -/

/-- The bytes of a blob : a root with a property `a` and a subnode `b`. -/
def sampleBytes : List (BitVec 8) :=
  [0xd0, 0x0d, 0xfe, 0xed, 0, 0, 0, 110, 0, 0, 0, 64, 0, 0, 0, 108, 0, 0, 0, 48, 0, 0, 0, 17,
    0, 0, 0, 16, 0, 0, 0, 0, 0, 0, 0, 2, 0, 0, 0, 44, 0, 0, 0, 0, 0, 0, 0, 0,
    0, 0, 0, 0, 0, 0, 0, 0, 0, 0, 0, 0, 0, 0, 0, 0,
    0, 0, 0, 1, 0, 0, 0, 0, 0, 0, 0, 3, 0, 0, 0, 1, 0, 0, 0, 0, 1, 0, 0, 0,
    0, 0, 0, 1, 0x62, 0, 0, 0, 0, 0, 0, 2, 0, 0, 0, 2, 0, 0, 0, 9, 0x61, 0]

/-- The memory that holds it. -/
def sample : ByteMem := fun x => sampleBytes.getD x.toNat 0

/-- No byte of it is the first of a length that leads back. -/
theorem not_stuck_sample (o : ℤ) : ¬ Stuck sample o := by
  intro h
  have hall : ∀ b ∈ sampleBytes, b ≠ (0xff : BitVec 8) := by decide
  have hbyte : ∀ x, sample x ≠ 0xff := by
    intro x
    unfold sample
    rw [List.getD_eq_getElem?_getD]
    cases hget : sampleBytes[x.toNat]? with
    | none => decide
    | some b => exact hall b (List.mem_of_getElem? hget)
  refine hbyte (fdtOffDtStruct sample + (o + 4)) ?_
  rw [← ByteMem.extractLsb'_be32 sample, h.2]
  rfl

/-- From its root, the next node is the subnode, one level down. -/
theorem fdtNextNode_any_sample :
    (fdtNextNode 64 sample 0 (some 0)).isSome ∧ ∀ m', SameStruct sample m' →
      fdtNextNode 64 m' 0 (some 0) = fdtNextNode 64 sample 0 (some 0) :=
  fdtNextNode_any (by decide) (by decide) not_stuck_sample (by decide) (by decide) _

end Libfdt

end AcrnUt
