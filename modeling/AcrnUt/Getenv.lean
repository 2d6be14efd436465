import Mathlib.Data.List.Infix
import Mathlib.Data.Nat.Notation
import Mathlib.Logic.Basic

/-!
# Environment variables

`getenv` of `lib/string.c`, with the `strchr` and `strncmp` it uses, and the errata switches of
`lib/errata.h`.

The comparison is bounded by the length of the entry's key, so it does not see where `name` ends :
an entry matches if its key is a prefix of `name` (`strncmp_eq_zero_iff`). The result is the value
of the first entry whose key is `name` if and only if every entry whose key is a proper prefix of
`name` comes after such an entry (`getenv_iff`).
-/

set_option linter.unusedSectionVars false

namespace AcrnUt

/-- A string of C, without its NUL. -/
structure CString where
  bytes : List (BitVec 8)
  zero_notMem : 0 ∉ bytes

/-- The character that a pointer to the rest `s` of a string points to. -/
def deref (s : List (BitVec 8)) : BitVec 8 :=
  s.headD 0

@[simp] theorem deref_nil : deref [] = 0 := rfl

@[simp] theorem deref_cons (c : BitVec 8) (s : List (BitVec 8)) : deref (c :: s) = c := rfl

/-- `'='`. -/
def equalsSign : BitVec 8 := 0x3d

/-- `strchr`, as the offset of the result in the string. -/
def strchr (s : List (BitVec 8)) (c : BitVec 8) : Option ℕ :=
  match s with
  | [] => if c = 0 then some 0 else none
  | x :: s =>
    if x = c then some 0
    else if x = 0 then none
    else (strchr s c).map (· + 1)

/-- `strncmp`. -/
def strncmp (a b : List (BitVec 8)) : ℕ → ℤ
  | 0 => 0
  | n + 1 =>
    if deref a ≠ deref b ∨ deref a = 0 then (deref a).toInt - (deref b).toInt
    else strncmp a.tail b.tail n

/-- A pointer into a string of the environment. -/
structure EnvPtr where
  entry : ℕ
  off : ℕ
deriving DecidableEq

/-- The loop of `getenv`, at the entry `i`. -/
def getenv.loop (name : CString) : List CString → ℕ → Option EnvPtr
  | [], _ => none
  | env :: envs, i =>
    match strchr env.bytes equalsSign with
    | some delim =>
      if strncmp name.bytes env.bytes delim = 0 then some ⟨i, delim + 1⟩
      else getenv.loop name envs (i + 1)
    | none => getenv.loop name envs (i + 1)

/-- `getenv`. -/
def getenv (environ : List CString) (name : CString) : Option EnvPtr :=
  getenv.loop name environ 0

/-- The string that a pointer points to. -/
def EnvPtr.string (environ : List CString) (p : EnvPtr) : List (BitVec 8) :=
  ((environ.map CString.bytes).getD p.entry []).drop p.off

/-! ## The errata switches -/

/-- `"ERRATA_FORCE"`. -/
def errataForceName : CString :=
  ⟨['E', 'R', 'R', 'A', 'T', 'A', '_', 'F', 'O', 'R', 'C', 'E'].map fun c => BitVec.ofNat 8 c.toNat,
    by decide⟩

/-- `s && (*s == '1' || *s == 'y' || *s == 'Y')`. -/
def saysYes : Option (List (BitVec 8)) → Bool
  | none => false
  | some s => deref s = 0x31 ∨ deref s = 0x79 ∨ deref s = 0x59

/-- `s && (*s == '0' || *s == 'n' || *s == 'N')`. -/
def saysNo : Option (List (BitVec 8)) → Bool
  | none => false
  | some s => deref s = 0x30 ∨ deref s = 0x6e ∨ deref s = 0x4e

/-- `errata_force`. -/
def errataForce (environ : List CString) : Bool :=
  saysYes ((getenv environ errataForceName).map (EnvPtr.string environ))

/-- `errata`. -/
def errata (environ : List CString) (erratum : CString) : Bool :=
  if errataForce environ then true
  else saysYes ((getenv environ erratum).map (EnvPtr.string environ))

/-- `errata_relaxed`. -/
def errataRelaxed (environ : List CString) (erratum : CString) : Bool :=
  if errataForce environ then true
  else !saysNo ((getenv environ erratum).map (EnvPtr.string environ))

/-! ## What an environment says -/

/-- What stands before the first `=` of an entry. -/
def CString.key (e : CString) : Option (List (BitVec 8)) :=
  if equalsSign ∈ e.bytes then some (e.bytes.takeWhile (· ≠ equalsSign)) else none

/-- The value of the first entry whose key is `name`. -/
def firstValue (environ : List CString) (name : CString) : Option EnvPtr :=
  (environ.findIdx? fun e => e.key = some name.bytes).map fun i => ⟨i, name.bytes.length + 1⟩

/-- Each entry whose key is a proper prefix of `name` comes after one whose key is `name`. -/
def Unshadowed (environ : List CString) (name : CString) : Prop :=
  ∀ l e r k, environ = l ++ e :: r → e.key = some k → k <+: name.bytes → k ≠ name.bytes →
    ∃ e' ∈ l, e'.key = some name.bytes

/-! ## The comparison -/

/-- On a string, `strchr` finds the end of the key. -/
theorem strchr_eq (e : CString) : strchr e.bytes equalsSign = e.key.map List.length := by
  obtain ⟨s, hs⟩ := e
  unfold CString.key
  dsimp only
  induction s with
  | nil => rfl
  | cons x s ih =>
    rw [List.mem_cons, not_or] at hs
    unfold strchr
    by_cases heq : x = equalsSign
    · simp [heq]
    · rw [if_neg heq, if_neg (Ne.symm hs.1), ih hs.2]
      simp only [List.mem_cons, Ne.symm heq, false_or]
      split <;> simp [heq]

/-- `strncmp` does not see where `a` ends if that is beyond the first `n` characters of `b`. -/
theorem strncmp_eq_zero_iff {a b : List (BitVec 8)} {n : ℕ} (hb : 0 ∉ b) (hn : n ≤ b.length) :
    strncmp a b n = 0 ↔ b.take n <+: a := by
  induction n generalizing a b with
  | zero => simp [strncmp]
  | succ n ih =>
    obtain ⟨y, b, rfl⟩ := List.exists_cons_of_length_pos (Nat.zero_lt_of_lt hn)
    rw [List.mem_cons, not_or] at hb
    rw [List.take_succ_cons]
    unfold strncmp
    rw [deref_cons]
    -- Where the characters differ, so do their values.
    have hne : ∀ {x : BitVec 8}, x ≠ y → x.toInt - y.toInt ≠ 0 := fun hxy h =>
      hxy (BitVec.eq_of_toInt_eq (Int.sub_eq_zero.mp h))
    cases a with
    | nil =>
      rw [deref_nil, if_pos (Or.inr rfl)]
      exact iff_of_false (hne hb.1) (by simp)
    | cons x a =>
      rw [deref_cons, List.cons_prefix_cons]
      by_cases hxy : x = y
      · subst hxy
        rw [if_neg (not_or.mpr ⟨fun h => h rfl, Ne.symm hb.1⟩)]
        simpa using ih hb.2 (Nat.le_of_succ_le_succ hn)
      · rw [if_pos (Or.inl hxy)]
        exact iff_of_false (hne hxy) fun h => hxy h.1.symm

/-- An entry without a key is skipped. -/
theorem loop_of_key_none {e : CString} (he : e.key = none) (name : CString) (envs : List CString)
    (i : ℕ) : getenv.loop name (e :: envs) i = getenv.loop name envs (i + 1) := by
  rw [getenv.loop, strchr_eq, he]
  rfl

/-- An entry matches if its key is a prefix of `name`. -/
theorem loop_of_key_some {e : CString} {k : List (BitVec 8)} (he : e.key = some k) (name : CString)
    (envs : List CString) (i : ℕ) :
    getenv.loop name (e :: envs) i =
      if k <+: name.bytes then some ⟨i, k.length + 1⟩ else getenv.loop name envs (i + 1) := by
  have hk : k <+: e.bytes := by
    unfold CString.key at he
    split at he
    · cases he
      exact List.takeWhile_prefix _
    · cases he
  rw [getenv.loop, strchr_eq, he]
  simp only [Option.map_some, strncmp_eq_zero_iff e.zero_notMem hk.length_le,
    ← List.prefix_iff_eq_take.mp hk]

/-! ## Exactness -/

section Unshadowed

variable {e : CString} {envs : List CString} {name : CString} {k : List (BitVec 8)}

theorem unshadowed_nil : Unshadowed [] name := by
  intro l e r k h
  simp at h

/-- After an entry with the key `name`, nothing matters. -/
theorem unshadowed_of_key (he : e.key = some name.bytes) : Unshadowed (e :: envs) name := by
  intro l e' r k heq hk _ hne
  cases l with
  | nil =>
    obtain ⟨rfl, -⟩ := List.cons.inj heq
    rw [he] at hk
    exact absurd (Option.some.inj hk).symm hne
  | cons a l =>
    obtain ⟨rfl, -⟩ := List.cons.inj heq
    exact ⟨e, List.mem_cons_self, he⟩

theorem not_unshadowed (he : e.key = some k) (hk : k <+: name.bytes) (hne : k ≠ name.bytes) :
    ¬Unshadowed (e :: envs) name := by
  intro h
  obtain ⟨e', he', -⟩ := h [] e envs k rfl he hk hne
  cases he'

/-- An entry that does not match does not matter. -/
theorem unshadowed_cons (he : ∀ k, e.key = some k → ¬k <+: name.bytes) :
    Unshadowed (e :: envs) name ↔ Unshadowed envs name := by
  constructor
  · intro h l e' r k heq hk hpre hne
    obtain ⟨e'', he'', hkey⟩ := h (e :: l) e' r k (by rw [heq]; rfl) hk hpre hne
    rcases List.mem_cons.mp he'' with rfl | he''
    · exact absurd (List.prefix_refl _) (he _ hkey)
    · exact ⟨e'', he'', hkey⟩
  · intro h l e' r k heq hk hpre hne
    cases l with
    | nil =>
      obtain ⟨rfl, -⟩ := List.cons.inj heq
      exact absurd hpre (he k hk)
    | cons a l =>
      obtain ⟨e'', he'', hkey⟩ := h l e' r k (List.cons.inj heq).2 hk hpre hne
      exact ⟨e'', List.mem_cons_of_mem _ he'', hkey⟩

theorem loop_eq_iff (name : CString) (envs : List CString) (i : ℕ) :
    getenv.loop name envs i = (envs.findIdx? fun e => e.key = some name.bytes).map
      (fun j => ⟨i + j, name.bytes.length + 1⟩) ↔ Unshadowed envs name := by
  induction envs generalizing i with
  | nil => exact iff_of_true rfl unshadowed_nil
  | cons e envs ih =>
    rw [List.findIdx?_cons]
    by_cases hkey : e.key = some name.bytes
    · rw [loop_of_key_some hkey, if_pos (List.prefix_refl _)]
      exact iff_of_true (by simp [hkey]) (unshadowed_of_key hkey)
    have hshift : (fun j => (⟨i + j, name.bytes.length + 1⟩ : EnvPtr)) ∘ (· + 1) =
        fun j => ⟨i + 1 + j, name.bytes.length + 1⟩ := by
      funext j
      simp only [Function.comp_apply, EnvPtr.mk.injEq, and_true]
      omega
    rw [if_neg (by simpa using hkey), Option.map_map, hshift]
    by_cases hmatch : ∃ k, e.key = some k ∧ k <+: name.bytes
    · obtain ⟨k, hk, hpre⟩ := hmatch
      have hne : k ≠ name.bytes := fun h => hkey (hk.trans (congrArg some h))
      rw [loop_of_key_some hk, if_pos hpre]
      refine iff_of_false (fun h => ?_) (not_unshadowed hk hpre hne)
      obtain ⟨j, -, hj⟩ := Option.map_eq_some_iff.mp h.symm
      have := congrArg EnvPtr.entry hj
      simp only at this
      omega
    · have hskip : getenv.loop name (e :: envs) i = getenv.loop name envs (i + 1) := by
        cases hk : e.key with
        | none => exact loop_of_key_none hk ..
        | some k => rw [loop_of_key_some hk, if_neg fun hpre => hmatch ⟨k, hk, hpre⟩]
      rw [hskip, ih, unshadowed_cons fun k hk hpre => hmatch ⟨k, hk, hpre⟩]

theorem getenv_eq_firstValue_iff (environ : List CString) (name : CString) :
    getenv environ name = firstValue environ name ↔ Unshadowed environ name := by
  have h := loop_eq_iff name environ 0
  simp only [Nat.zero_add] at h
  exact h

end Unshadowed

/-- The value of the variable `name`. -/
def valueOf (environ : List CString) (name : CString) : Option (List (BitVec 8)) :=
  (firstValue environ name).map (EnvPtr.string environ)

/-- For every environment and every name, `getenv` gives the value of the first entry with this key
if and only if each entry whose key is a proper prefix of the name comes after such an entry. Then
the errata switches depend on the value of their variable and on that of `ERRATA_FORCE`. -/
theorem getenv_iff (environ : List CString) (name : CString) :
    (getenv environ name = firstValue environ name ↔ Unshadowed environ name) ∧
      (Unshadowed environ errataForceName → Unshadowed environ name →
        errata environ name =
            (saysYes (valueOf environ errataForceName) || saysYes (valueOf environ name)) ∧
          errataRelaxed environ name =
            (saysYes (valueOf environ errataForceName) || !saysNo (valueOf environ name))) := by
  refine ⟨getenv_eq_firstValue_iff environ name, fun hforce hname => ?_⟩
  rw [← getenv_eq_firstValue_iff] at hforce hname
  unfold errata errataRelaxed errataForce valueOf
  rw [hforce, hname]
  cases saysYes ((firstValue environ errataForceName).map (EnvPtr.string environ)) <;> simp

/-- `"ERRATA=1"`. -/
def errataEntry : CString :=
  ⟨['E', 'R', 'R', 'A', 'T', 'A', '=', '1'].map fun c => BitVec.ofNat 8 c.toNat, by decide⟩

/-- A variable `ERRATA` is taken for `ERRATA_FORCE`, and switches every erratum on. -/
theorem getenv_prefix : getenv [errataEntry] errataForceName = some ⟨0, 7⟩ ∧
    firstValue [errataEntry] errataForceName = none ∧
    ∀ name, errata [errataEntry] name = true := by
  refine ⟨by decide, by decide, fun name => ?_⟩
  have hforce : errataForce [errataEntry] = true := by decide
  unfold errata
  rw [if_pos hforce]

end AcrnUt
