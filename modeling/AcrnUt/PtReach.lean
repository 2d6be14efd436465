import AcrnUt.PageTable

/-!
# What an entry of a page table leads to

The walk of one address reads one entry a level. `LeadsToLeaf` says of an entry, without
an address, that it is a present leaf or that some entry of the table below it leads to
one. An entry of a table that leads to a leaf is the same as an address that selects the
entry and whose walk ends in a leaf (`exists_walkFrom_iff`) : the address is put together
from the indices on the way.
-/

set_option linter.unusedSectionVars false

namespace AcrnUt

namespace PtFormat

variable {w : ℕ} [PageGeom w] (F : PtFormat w)

/-- The entry, at its level, is a present leaf or leads to one. -/
def LeadsToLeaf (cells : BitVec w → BitVec w) : ℕ → BitVec w → Prop
  | 0, _ => False
  | level + 1, e => F.Present e ∧ (level = 0 ∨ Large (level + 1) e ∨
      ∃ j < 2 ^ F.pgdirWidth,
        LeadsToLeaf cells level (cells (entryAddr (e &&& addrMask w) (BitVec.ofNat w j))))

variable {F} {cells : BitVec w → BitVec w} {va pt e : BitVec w} {level : ℕ}

/-- The walk from a table ends in a leaf, by the entry that it reads first. -/
theorem isSome_walkFrom_iff :
    (F.walkFrom cells va (level + 1) pt).isSome ↔
      F.Present (cells (entryAddr pt (F.pgdirOffset va (level + 1)))) ∧
        (level = 0 ∨ Large (level + 1) (cells (entryAddr pt (F.pgdirOffset va (level + 1)))) ∨
          (F.walkFrom cells va level
            (cells (entryAddr pt (F.pgdirOffset va (level + 1))) &&& addrMask w)).isSome) := by
  rw [walkFrom]
  generalize cells (entryAddr pt (F.pgdirOffset va (level + 1))) = e
  by_cases hpresent : F.Present e
  · rw [if_neg (not_not.mpr hpresent)]
    by_cases hleaf : level = 0 ∨ Large (level + 1) e
    · rw [if_pos hleaf]
      exact iff_of_true rfl ⟨hpresent, hleaf.imp_right Or.inl⟩
    · rw [if_neg hleaf, Option.isSome_map]
      rw [not_or] at hleaf
      simp [hpresent, hleaf.1, hleaf.2]
  · rw [if_pos hpresent]
    exact iff_of_false (by simp) fun h => hpresent h.1

theorem pgdirOffset_eq_ofNat (va : BitVec w) (level : ℕ) :
    F.pgdirOffset va level
      = BitVec.ofNat w (va.toNat / 2 ^ F.levelShift level % 2 ^ F.pgdirWidth) := by
  rw [← F.toNat_pgdirOffset, BitVec.ofNat_toNat, BitVec.setWidth_eq]

/-- The first entry of a walk that ends in a leaf leads to one. -/
theorem leadsToLeaf_of_walkFrom :
    ∀ (level : ℕ) (pt : BitVec w), (F.walkFrom cells va (level + 1) pt).isSome →
      F.LeadsToLeaf cells (level + 1) (cells (entryAddr pt (F.pgdirOffset va (level + 1))))
  | 0, pt, h => ⟨(isSome_walkFrom_iff.mp h).1, Or.inl rfl⟩
  | level + 1, pt, h => by
    obtain ⟨hpresent, hlevel | hlarge | hbelow⟩ := isSome_walkFrom_iff.mp h
    · exact absurd hlevel (Nat.succ_ne_zero level)
    · exact ⟨hpresent, Or.inr (Or.inl hlarge)⟩
    · refine ⟨hpresent, Or.inr (Or.inr
        ⟨va.toNat / 2 ^ F.levelShift (level + 1) % 2 ^ F.pgdirWidth,
          Nat.mod_lt _ (Nat.two_pow_pos _), ?_⟩)⟩
      rw [← F.pgdirOffset_eq_ofNat]
      exact leadsToLeaf_of_walkFrom level _ hbelow

theorem levelShift_succ (hlevel : 1 ≤ level) :
    F.levelShift (level + 1) = F.levelShift level + F.pgdirWidth := by
  obtain ⟨k, rfl⟩ := Nat.exists_eq_add_of_le hlevel
  unfold levelShift
  rw [show 1 + k + 1 - 1 = k + 1 by omega, show 1 + k - 1 = k by omega, Nat.succ_mul]
  omega

/-- An index in front of low bits. -/
theorem index_mul_add_lt {a b j low : ℕ} (hj : j < 2 ^ b) (hlow : low < 2 ^ a) :
    j * 2 ^ a + low < 2 ^ (a + b) := by
  have hle : (j + 1) * 2 ^ a ≤ 2 ^ b * 2 ^ a := Nat.mul_le_mul_right _ hj
  rw [Nat.succ_mul, ← pow_add, add_comm b] at hle
  omega

/-- An entry that leads to a leaf : whatever is in front of them, some low bits of an
address lead there. -/
theorem exists_low_of_leadsToLeaf :
    ∀ (level : ℕ) (e : BitVec w), F.LeadsToLeaf cells (level + 1) e →
      ∃ low < 2 ^ F.levelShift (level + 1), ∀ va : BitVec w,
        va.toNat % 2 ^ F.levelShift (level + 1) = low →
          level = 0 ∨ Large (level + 1) e ∨
            (F.walkFrom cells va level (e &&& addrMask w)).isSome
  | 0, e, _ => ⟨0, Nat.two_pow_pos _, fun _ _ => Or.inl rfl⟩
  | level + 1, e, h => by
    obtain ⟨-, hlevel | hlarge | ⟨j, hj, hbelow⟩⟩ := h
    · exact absurd hlevel (Nat.succ_ne_zero level)
    · exact ⟨0, Nat.two_pow_pos _, fun _ _ => Or.inr (Or.inl hlarge)⟩
    · obtain ⟨low, hlow, hwalk⟩ := exists_low_of_leadsToLeaf level _ hbelow
      rw [F.levelShift_succ (Nat.le_add_left 1 level)]
      refine ⟨j * 2 ^ F.levelShift (level + 1) + low, ?_, fun va hva => Or.inr (Or.inr ?_)⟩
      · exact index_mul_add_lt hj hlow
      · have hindex : va.toNat / 2 ^ F.levelShift (level + 1) % 2 ^ F.pgdirWidth = j := by
          rw [← Nat.mod_mul_right_div_self, ← pow_add, hva, mul_comm j,
            Nat.mul_add_div (Nat.two_pow_pos _), Nat.div_eq_of_lt hlow, add_zero]
        have hrest : va.toNat % 2 ^ F.levelShift (level + 1) = low := by
          rw [← Nat.mod_mod_of_dvd va.toNat (pow_dvd_pow 2 (Nat.le_add_right _ F.pgdirWidth)), hva,
            mul_comm j, Nat.mul_add_mod, Nat.mod_eq_of_lt hlow]
        rw [isSome_walkFrom_iff, F.pgdirOffset_eq_ofNat, hindex]
        exact ⟨by cases level <;> exact hbelow.1, hwalk va hrest⟩

/-- An entry of a table leads to a leaf exactly if the walk of some address that selects
it does. -/
theorem exists_walkFrom_iff {i : ℕ} (hlevel : level + 1 ≤ F.pageLevel)
    (hi : i < 2 ^ F.pgdirWidth) :
    (∃ va, va.toNat / 2 ^ F.levelShift (level + 1) = i ∧
        (F.walkFrom cells va (level + 1) pt).isSome) ↔
      F.LeadsToLeaf cells (level + 1) (cells (entryAddr pt (BitVec.ofNat w i))) := by
  constructor
  · rintro ⟨va, hva, hwalk⟩
    have h := leadsToLeaf_of_walkFrom level pt hwalk
    rwa [F.pgdirOffset_eq_ofNat, hva, Nat.mod_eq_of_lt hi] at h
  · intro h
    obtain ⟨low, hlow, hwalk⟩ := exists_low_of_leadsToLeaf level _ h
    have hlt : i * 2 ^ F.levelShift (level + 1) + low < 2 ^ w := by
      refine (index_mul_add_lt hi hlow).trans_le (Nat.pow_le_pow_right (by decide) ?_)
      have hfits : (level + 1) * F.pgdirWidth + 12 ≤ w :=
        (Nat.add_le_add_right (Nat.mul_le_mul_right _ hlevel) 12).trans F.fits
      rw [Nat.succ_mul] at hfits
      unfold levelShift
      rw [Nat.add_sub_cancel]
      omega
    have htoNat : (BitVec.ofNat w (i * 2 ^ F.levelShift (level + 1) + low)).toNat
        = i * 2 ^ F.levelShift (level + 1) + low := by
      rw [BitVec.toNat_ofNat, Nat.mod_eq_of_lt hlt]
    refine ⟨BitVec.ofNat w (i * 2 ^ F.levelShift (level + 1) + low), ?_, ?_⟩
    · rw [htoNat, mul_comm, Nat.mul_add_div (Nat.two_pow_pos _), Nat.div_eq_of_lt hlow, add_zero]
    · have hrest : (BitVec.ofNat w (i * 2 ^ F.levelShift (level + 1) + low)).toNat
          % 2 ^ F.levelShift (level + 1) = low := by
        rw [htoNat, mul_comm, Nat.mul_add_mod, Nat.mod_eq_of_lt hlow]
      have hindex : F.pgdirOffset (BitVec.ofNat w (i * 2 ^ F.levelShift (level + 1) + low))
          (level + 1) = BitVec.ofNat w i := by
        rw [F.pgdirOffset_eq_ofNat, htoNat, mul_comm i, Nat.mul_add_div (Nat.two_pow_pos _),
          Nat.div_eq_of_lt hlow, add_zero, Nat.mod_eq_of_lt hi]
      rw [isSome_walkFrom_iff, hindex]
      exact ⟨h.1, hwalk _ hrest⟩

end PtFormat

end AcrnUt
