import Mathlib.Data.BitVec
import Mathlib.Data.Set.Basic
import Mathlib.Tactic

/-!
# Words in a memory of bytes

A word at `a` is the `w / 8` bytes from `a` on, low byte first. `loadWord` reads what
`storeWord` wrote (`loadWord_storeWord`), and depends on these bytes only (`loadWord_congr`).
Ranges are taken modulo the address space : two parts of one range are compared by their
offsets from its start (`byteRange_subset`, `byteRange_disjoint`).
-/

set_option linter.unusedSectionVars false

namespace AcrnUt

/-- A word is a whole number of bytes. -/
class WholeBytes (w : ℕ) : Prop where
  bits : w / 8 * 8 = w

instance wholeBytes64 : WholeBytes 64 := ⟨by norm_num⟩

instance wholeBytes32 : WholeBytes 32 := ⟨by norm_num⟩

variable {w : ℕ}

/-- The `n` bytes from `a` on. -/
def byteRange (a : BitVec w) (n : ℕ) : Set (BitVec w) :=
  {b | (b - a).toNat < n}

/-- The word at `a`. -/
def loadWord (bytes : BitVec w → BitVec 8) (a : BitVec w) : BitVec w :=
  BitVec.ofNat w (Nat.ofBits fun i : Fin w =>
    (bytes (a + BitVec.ofNat w (i / 8))).getLsbD (i % 8))

/-- A store of the word `v` at `a`. -/
def storeWord (bytes : BitVec w → BitVec 8) (a v : BitVec w) : BitVec w → BitVec 8 := fun b =>
  if (b - a).toNat < w / 8 then v.extractLsb' (8 * (b - a).toNat) 8 else bytes b

/-! ## Ranges -/

section Ranges

variable {p c d : BitVec w} {n n' len : ℕ}

/-- A part of a range, by its offset. -/
theorem byteRange_subset (h : c.toNat + n ≤ len) : byteRange (p + c) n ⊆ byteRange p len := by
  intro b hb
  have hsplit : b - p = b - (p + c) + c := by
    rw [sub_add_eq_sub_sub, sub_add_cancel]
  have hb : (b - (p + c)).toNat < n := hb
  show (b - p).toNat < len
  rw [hsplit, BitVec.toNat_add]
  refine lt_of_le_of_lt (Nat.mod_le _ _) ?_
  omega

/-- Parts of a range, one behind the other, do not overlap. -/
theorem byteRange_disjoint (h : c.toNat + n ≤ d.toNat) (hend : d.toNat + n' ≤ 2 ^ w) :
    ∀ b ∈ byteRange (p + c) n, b ∉ byteRange (p + d) n' := by
  intro b hb hb'
  have hb : (b - (p + c)).toNat < n := hb
  have hb' : (b - (p + d)).toNat < n' := hb'
  have hsplit : ∀ x : BitVec w, b - (p + x) + x = b - p := fun x => by
    rw [sub_add_eq_sub_sub, sub_add_cancel]
  have heq := congrArg BitVec.toNat ((hsplit c).trans (hsplit d).symm)
  rw [BitVec.toNat_add, BitVec.toNat_add, Nat.mod_eq_of_lt (by omega), Nat.mod_eq_of_lt (by omega)]
    at heq
  omega

end Ranges

/-! ## Words -/

section Words

variable {bytes bytes' : BitVec w → BitVec 8} {a b v : BitVec w}

theorem storeWord_of_notMem (h : b ∉ byteRange a (w / 8)) : storeWord bytes a v b = bytes b :=
  if_neg h

variable [WholeBytes w]

/-- The byte that holds bit `i` of a word is one of the word's bytes. -/
theorem toNat_add_byte_sub {i : ℕ} (hi : i < w) :
    (a + BitVec.ofNat w (i / 8) - a).toNat = i / 8 := by
  have hlt : i / 8 < 2 ^ w := lt_of_le_of_lt (Nat.div_le_self i 8) (hi.trans Nat.lt_two_pow_self)
  rw [BitVec.add_comm, BitVec.add_sub_cancel, BitVec.toNat_ofNat, Nat.mod_eq_of_lt hlt]

theorem byte_lt {i : ℕ} (hi : i < w) : i / 8 < w / 8 := by
  have h := WholeBytes.bits (w := w)
  omega

theorem loadWord_congr (h : ∀ b ∈ byteRange a (w / 8), bytes b = bytes' b) :
    loadWord bytes a = loadWord bytes' a := by
  unfold loadWord
  congr 2
  funext i
  rw [h]
  show (_ - a).toNat < w / 8
  rw [toNat_add_byte_sub i.isLt]
  exact byte_lt i.isLt

theorem loadWord_storeWord (bytes : BitVec w → BitVec 8) (a v : BitVec w) :
    loadWord (storeWord bytes a v) a = v := by
  refine BitVec.eq_of_getLsbD_eq fun i hi => ?_
  have hbyte := toNat_add_byte_sub (a := a) hi
  have hmod : i % 8 < 8 := Nat.mod_lt i (by norm_num)
  unfold loadWord storeWord
  rw [BitVec.getLsbD_ofNat, decide_eq_true hi, Bool.true_and, Nat.testBit_ofBits_lt _ _ hi]
  simp only [hbyte, if_pos (byte_lt hi), BitVec.getLsbD_extractLsb', hmod, decide_true,
    Bool.true_and]
  rw [Nat.div_add_mod]

end Words

end AcrnUt
