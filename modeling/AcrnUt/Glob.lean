import AcrnUt.Getenv
import Mathlib.Computability.Language
import Mathlib.Tactic

/-!
# Test filters

`simple_glob` of `lib/string.c`, with the `strstr`, `memcmp` and `strcmp` it uses, and
`test_wanted` of `x86/vmx.c`.

A pattern stands for a language : a `*` at one of its ends for every text, any other character for
itself (`globLanguage`). `simple_glob` decides it (`simpleGlob_iff`), and `test_wanted` looks for a
filter that excludes the test before it asks for one that selects it (`testWanted_iff`).
-/

set_option linter.unusedSectionVars false

namespace AcrnUt

/-- `'*'`. -/
def starChar : BitVec 8 := 0x2a

/-! ## Strings -/

/-- `memcmp`. -/
def memcmp (a b : List (BitVec 8)) : ℕ → ℤ
  | 0 => 0
  | n + 1 =>
    let ret : ℤ := (deref a).toNat - (deref b).toNat
    if ret ≠ 0 then ret else memcmp a.tail b.tail n

/-- `strcmp` : its bound `SIZE_MAX` is above the length of every string, and
any such bound gives the same (`strncmp_of_length_lt`). -/
def strcmp (a b : List (BitVec 8)) : ℤ :=
  strncmp a b (a.length + 1)

/-- The loop of `strstr`. The string that it looks for is not empty, so it ends at the latest with
`l1 = 0`. -/
def strstr.loop (s2 : List (BitVec 8)) : ℕ → List (BitVec 8) → ℕ → Option ℕ
  | 0, _, _ => none
  | l1 + 1, s1, off =>
    if s2.length ≤ l1 + 1 then
      if memcmp s1 s2 s2.length = 0 then some off else strstr.loop s2 l1 s1.tail (off + 1)
    else none

/-- `strstr`, as the offset of the result in the string. -/
def strstr (s1 s2 : List (BitVec 8)) : Option ℕ :=
  if s2.length = 0 then some 0 else strstr.loop s2 s1.length s1 0

/-- `simple_glob`. -/
def simpleGlob (text pattern : List (BitVec 8)) : Bool :=
  let n := pattern.length
  let starStart : Bool := deref pattern = starChar
  let pattern := if starStart then pattern.tail else pattern
  let n := if starStart then n - 1 else n
  let copy := pattern
  let starEnd : Bool := 0 < n ∧ pattern.getD (n - 1) 0 = starChar
  let n := if starEnd then n - 1 else n
  let copy := if starEnd then copy.take n else copy
  if starStart && starEnd then (strstr text copy).isSome
  else if starEnd then strstr text copy = some 0
  else if starStart then
    let textLen := text.length
    if textLen < n then false
    else
      let suffix := text.drop (textLen - n)
      strcmp suffix copy = 0
  else strcmp text copy = 0

/-- `'_'` for each space of a name. -/
def cleanName (name : List (BitVec 8)) : List (BitVec 8) :=
  name.map fun c => if c = 0x20 then 0x5f else c

/-- The loop of `test_wanted`. -/
def testWanted.loop (clean : List (BitVec 8)) : List CString → Bool → Bool → Option (Bool × Bool)
  | [], positive, found => some (positive, found)
  | filter :: filters, positive, found =>
    if deref filter.bytes = 0x2d then
      if simpleGlob clean filter.bytes.tail then none
      else testWanted.loop clean filters positive found
    else testWanted.loop clean filters true (found || simpleGlob clean filter.bytes)

/-- `test_wanted`, with the count of the tests that were wanted. -/
def testWanted (name : CString) (filters : List CString) (matched : ℕ) : Bool × ℕ :=
  match testWanted.loop (cleanName name.bytes) filters false false with
  | none => (false, matched)
  | some (positive, found) =>
    if !positive || found then (true, matched + 1) else (false, matched)

/-! ## What the string functions find -/

section Strings

variable {s s1 s2 a b : List (BitVec 8)} {n off k l1 : ℕ}

theorem memcmp_cons (x y : BitVec 8) (a b : List (BitVec 8)) (n : ℕ) :
    memcmp (x :: a) (y :: b) (n + 1) =
      if (x.toNat : ℤ) - y.toNat ≠ 0 then (x.toNat : ℤ) - y.toNat else memcmp a b n :=
  rfl

theorem memcmp_eq_zero_iff (h : b.length ≤ a.length) : memcmp a b b.length = 0 ↔ b <+: a := by
  induction b generalizing a with
  | nil => simp [memcmp]
  | cons y b ih =>
    obtain ⟨x, a, rfl⟩ := List.exists_cons_of_length_pos (Nat.zero_lt_of_lt h)
    rw [List.cons_prefix_cons, ← ih (Nat.le_of_succ_le_succ h), List.length_cons, memcmp_cons]
    by_cases hxy : y = x
    · rw [hxy, if_neg (by simp)]
      simp
    · have hne : (x.toNat : ℤ) - y.toNat ≠ 0 := fun h => hxy (BitVec.eq_of_toNat_eq (by omega))
      rw [if_pos hne]
      exact iff_of_false hne fun h => hxy h.1

/-- A comparison ends with the first string, so a bound above its length is none. -/
theorem strncmp_of_length_lt {m : ℕ} (hn : a.length < n) (hm : a.length < m) :
    strncmp a b n = strncmp a b m := by
  induction a generalizing b n m with
  | nil =>
    obtain ⟨n, rfl⟩ := Nat.exists_eq_succ_of_ne_zero (Nat.ne_zero_of_lt hn)
    obtain ⟨m, rfl⟩ := Nat.exists_eq_succ_of_ne_zero (Nat.ne_zero_of_lt hm)
    simp [strncmp]
  | cons x a ih =>
    obtain ⟨n, rfl⟩ := Nat.exists_eq_succ_of_ne_zero (Nat.ne_zero_of_lt hn)
    obtain ⟨m, rfl⟩ := Nat.exists_eq_succ_of_ne_zero (Nat.ne_zero_of_lt hm)
    unfold strncmp
    rw [List.tail_cons, ih (Nat.lt_of_succ_lt_succ hn) (Nat.lt_of_succ_lt_succ hm)]

example (h : a.length < 2 ^ 64 - 1) : strncmp a b (2 ^ 64 - 1) = strcmp a b :=
  strncmp_of_length_lt h (Nat.lt_succ_self _)

theorem strncmp_eq_zero (ha : 0 ∉ a) (hb : 0 ∉ b) (hn : a.length < n) :
    strncmp a b n = 0 ↔ a = b := by
  have hne : ∀ {x y : BitVec 8}, x ≠ y → x.toInt - y.toInt ≠ 0 := fun hxy h =>
    hxy (BitVec.eq_of_toInt_eq (Int.sub_eq_zero.mp h))
  induction n generalizing a b with
  | zero => omega
  | succ n ih =>
    unfold strncmp
    cases a with
    | nil =>
      cases b with
      | nil => simp
      | cons y b =>
        rw [List.mem_cons, not_or] at hb
        simpa using hne hb.1
    | cons x a =>
      rw [List.mem_cons, not_or] at ha
      cases b with
      | nil =>
        rw [deref_cons, deref_nil, if_pos (Or.inl (Ne.symm ha.1))]
        exact iff_of_false (hne (Ne.symm ha.1)) (by simp)
      | cons y b =>
        rw [List.mem_cons, not_or] at hb
        rw [deref_cons, deref_cons, List.cons.injEq]
        by_cases hxy : x = y
        · subst hxy
          rw [if_neg (not_or.mpr ⟨fun h => h rfl, Ne.symm hb.1⟩)]
          simpa using ih ha.2 hb.2 (Nat.lt_of_succ_lt_succ hn)
        · rw [if_pos (Or.inl hxy)]
          exact iff_of_false (hne hxy) fun h => hxy h.1

theorem strcmp_eq_zero_iff (ha : 0 ∉ a) (hb : 0 ∉ b) : strcmp a b = 0 ↔ a = b :=
  strncmp_eq_zero ha hb (Nat.lt_succ_self _)

/-- What `strstr` finds is not before the start. -/
theorem le_of_loop (h : strstr.loop s2 l1 s1 off = some k) : off ≤ k := by
  induction l1 generalizing s1 off with
  | zero => cases h
  | succ l1 ih =>
    unfold strstr.loop at h
    split_ifs at h
    · exact (Option.some.inj h).le
    · exact (Nat.le_succ off).trans (ih h)

theorem loop_isSome_iff (hs : s2 ≠ []) :
    (strstr.loop s2 s1.length s1 off).isSome ↔ s2 <:+: s1 := by
  induction s1 generalizing off with
  | nil => simp [strstr.loop, hs]
  | cons c s1 ih =>
    rw [List.length_cons, List.infix_cons_iff, ← @ih (off + 1)]
    conv_lhs => unfold strstr.loop
    by_cases hlen : s2.length ≤ s1.length + 1
    · rw [if_pos hlen, ← memcmp_eq_zero_iff (by simpa using hlen)]
      split_ifs with hcmp <;> simp [hcmp]
    · rw [if_neg hlen, ih]
      refine iff_of_false Bool.false_ne_true ?_
      rintro (h | h)
      · exact hlen (by simpa using h.length_le)
      · exact hlen (h.length_le.trans (Nat.le_succ _))

/-- `strstr` finds a string that occurs. -/
theorem strstr_isSome_iff : (strstr s1 s2).isSome ↔ s2 <:+: s1 := by
  unfold strstr
  split_ifs with hlen
  · obtain rfl := List.eq_nil_of_length_eq_zero hlen
    simp
  · exact loop_isSome_iff (by simpa using hlen)

/-- It finds it at the start if it is there. -/
theorem strstr_eq_zero_iff : strstr s1 s2 = some 0 ↔ s2 <+: s1 := by
  unfold strstr
  split_ifs with hlen
  · obtain rfl := List.eq_nil_of_length_eq_zero hlen
    simp
  cases s1 with
  | nil => simpa [strstr.loop] using hlen
  | cons c s1 =>
    rw [List.length_cons]
    unfold strstr.loop
    by_cases hle : s2.length ≤ s1.length + 1
    · rw [if_pos hle, ← memcmp_eq_zero_iff (by simpa using hle)]
      split_ifs with hcmp
      · exact iff_of_true rfl hcmp
      · exact iff_of_false (fun h => absurd (le_of_loop h) (by norm_num)) hcmp
    · rw [if_neg hle]
      exact iff_of_false (by simp) fun h => hle (by simpa using h.length_le)

end Strings

/-! ## The language of a pattern -/

/-- What a character of a pattern stands for. -/
def globToken (atEnd : Prop) [Decidable atEnd] (c : BitVec 8) : Language (BitVec 8) :=
  if c = starChar ∧ atEnd then ⊤ else {[c]}

/-- The texts that a pattern stands for. -/
def globLanguage (pattern : List (BitVec 8)) : Language (BitVec 8) :=
  (pattern.mapIdx fun i c => globToken (i = 0 ∨ i + 1 = pattern.length) c).prod

theorem mem_singleton_language {l t : List (BitVec 8)} : t ∈ ({l} : Language (BitVec 8)) ↔ t = l :=
  Iff.rfl

/-- Characters that stand for themselves. -/
theorem prod_singletons (l : List (BitVec 8)) :
    (l.map fun c => ({[c]} : Language (BitVec 8))).prod = {l} := by
  induction l with
  | nil => rfl
  | cons c l ih =>
    rw [List.map_cons, List.prod_cons, ih]
    ext t
    simp only [Language.mem_mul, mem_singleton_language]
    constructor
    · rintro ⟨_, rfl, _, rfl, rfl⟩
      rfl
    · rintro rfl
      exact ⟨[c], rfl, l, rfl, rfl⟩

/-- A `*` at an end of a pattern. -/
def wild (star : Bool) : List (BitVec 8) :=
  if star then [starChar] else []

/-- The texts that it stands for. -/
def wildLanguage (star : Bool) : Language (BitVec 8) :=
  if star then ⊤ else 1

/-- The language of a pattern, from the characters between its stars. -/
theorem globLanguage_eq {first last : Bool} {mid : List (BitVec 8)}
    (hfirst : first = false → deref (mid ++ wild last) ≠ starChar)
    (hlast : last = false → mid.getLast? ≠ some starChar) :
    globLanguage (wild first ++ mid ++ wild last) =
      wildLanguage first * {mid} * wildLanguage last := by
  have hmid : mid.mapIdx (fun i c => globToken (i + (wild first).length = 0 ∨
      i + (wild first).length + 1 = (wild first ++ mid ++ wild last).length) c) =
      mid.map fun c => {[c]} := by
    refine List.ext_getElem (by simp) fun i hi _ => ?_
    have hi : i < mid.length := by simpa using hi
    rw [List.getElem_mapIdx, List.getElem_map]
    refine if_neg ?_
    rintro ⟨hstar, hend⟩
    simp only [List.length_append] at hend
    rcases hend with h0 | hn
    · have hf : first = false := by
        cases first with
        | false => rfl
        | true => simp [wild] at h0
      refine hfirst hf ?_
      obtain ⟨c, mid, rfl⟩ := List.exists_cons_of_length_pos (Nat.zero_lt_of_lt hi)
      obtain rfl : i = 0 := by omega
      exact hstar
    · have hl : last = false := by
        cases last with
        | false => rfl
        | true =>
          simp only [wild, if_true, List.length_singleton] at hn
          omega
      refine hlast hl ?_
      rw [hl] at hn
      simp only [wild, Bool.false_eq_true, if_false, List.length_nil] at hn
      rw [List.getLast?_eq_getElem?, ← hstar, List.getElem?_eq_some_iff]
      exact ⟨by omega, by congr 1; omega⟩
  have hends : ∀ (star : Bool) (f : ℕ → Prop) [∀ i, Decidable (f i)], (star = true → f 0) →
      ((wild star).mapIdx fun i c => globToken (f i) c).prod = wildLanguage star := by
    intro star f _ hf
    cases star with
    | false => rfl
    | true => simp [wild, wildLanguage, globToken, hf rfl]
  unfold globLanguage
  rw [List.mapIdx_append, List.mapIdx_append, List.prod_append, List.prod_append, hmid,
    prod_singletons, hends first _ fun _ => Or.inl rfl, hends last]
  rintro rfl
  refine Or.inr ?_
  rw [@List.length_append _ _ (wild true)]
  simp [wild]

/-- A text that a pattern stands for, from the characters between its stars. -/
theorem mem_wild_iff {first last : Bool} {mid t : List (BitVec 8)} :
    t ∈ wildLanguage first * {mid} * wildLanguage last ↔
      match first, last with
      | true, true => mid <:+: t
      | true, false => mid <:+ t
      | false, true => mid <+: t
      | false, false => t = mid := by
  have htop : ∀ x : List (BitVec 8), x ∈ (⊤ : Language (BitVec 8)) := fun _ => trivial
  simp only [Language.mem_mul, mem_singleton_language]
  cases first <;> cases last <;>
    simp only [wildLanguage, Bool.false_eq_true, if_false, if_true, Language.mem_one, htop,
      true_and]
  · constructor
    · rintro ⟨_, ⟨_, rfl, _, rfl, rfl⟩, _, rfl, rfl⟩
      simp
    · rintro rfl
      exact ⟨t, ⟨[], rfl, t, rfl, rfl⟩, [], rfl, List.append_nil t⟩
  · constructor
    · rintro ⟨_, ⟨_, rfl, _, rfl, rfl⟩, b, rfl⟩
      exact ⟨b, rfl⟩
    · rintro ⟨b, rfl⟩
      exact ⟨mid, ⟨[], rfl, mid, rfl, rfl⟩, b, rfl⟩
  · constructor
    · rintro ⟨_, ⟨a, _, rfl, rfl⟩, _, rfl, rfl⟩
      exact ⟨a, (List.append_nil _).symm⟩
    · rintro ⟨a, rfl⟩
      exact ⟨a ++ mid, ⟨a, mid, rfl, rfl⟩, [], rfl, List.append_nil _⟩
  · constructor
    · rintro ⟨_, ⟨a, _, rfl, rfl⟩, b, rfl⟩
      exact ⟨a, b, rfl⟩
    · rintro ⟨a, b, rfl⟩
      exact ⟨a ++ mid, ⟨a, mid, rfl, rfl⟩, b, rfl⟩

/-- Every pattern is what stands between its stars. -/
theorem exists_wild (p : List (BitVec 8)) :
    ∃ first mid last, p = wild first ++ mid ++ wild last ∧
      (first = false → deref (mid ++ wild last) ≠ starChar) ∧
      (last = false → mid.getLast? ≠ some starChar) := by
  obtain ⟨first, rest, rfl, hfirst⟩ :
      ∃ first rest, p = wild first ++ rest ∧ (first = false → deref rest ≠ starChar) := by
    cases p with
    | nil => exact ⟨false, [], rfl, fun _ => by decide⟩
    | cons c p =>
      by_cases hc : c = starChar
      · exact ⟨true, p, by rw [hc]; rfl, by simp⟩
      · exact ⟨false, c :: p, rfl, fun _ => hc⟩
  by_cases hlast : rest.getLast? = some starChar
  · obtain ⟨mid, rfl⟩ := List.getLast?_eq_some_iff.mp hlast
    exact ⟨first, mid, true, by simp [wild], hfirst, by simp⟩
  · exact ⟨first, rest, false, by simp [wild], by simpa [wild] using hfirst, fun _ => hlast⟩

/-- What `simple_glob` does with what stands between the stars. -/
theorem simpleGlob_wild {first last : Bool} {mid t : List (BitVec 8)}
    (hfirst : first = false → deref (mid ++ wild last) ≠ starChar)
    (hlast : last = false → mid.getLast? ≠ some starChar) (ht : 0 ∉ t) (hmid : 0 ∉ mid) :
    simpleGlob t (wild first ++ mid ++ wild last) = true ↔
      match first, last with
      | true, true => mid <:+: t
      | true, false => mid <:+ t
      | false, true => mid <+: t
      | false, false => t = mid := by
  have hstart : decide (deref (wild first ++ mid ++ wild last) = starChar) = first := by
    cases first with
    | false => simpa [wild] using hfirst rfl
    | true => simp [wild]
  have hrest : (if first then (wild first ++ mid ++ wild last).tail
      else wild first ++ mid ++ wild last) = mid ++ wild last := by
    cases first <;> simp [wild]
  have hlen : (if first then (wild first ++ mid ++ wild last).length - 1
      else (wild first ++ mid ++ wild last).length) = mid.length + (wild last).length := by
    cases first <;> simp [wild]
  have hend : decide (0 < mid.length + (wild last).length ∧
      (mid ++ wild last).getD (mid.length + (wild last).length - 1) 0 = starChar) = last := by
    cases last with
    | false =>
      simp only [wild, Bool.false_eq_true, if_false, List.append_nil, List.length_nil, Nat.add_zero,
        decide_eq_false_iff_not, not_and]
      intro hpos hstar
      refine hlast rfl ?_
      have hlt : mid.length - 1 < mid.length := by omega
      rw [List.getLast?_eq_getElem?, ← hstar, List.getD_eq_getElem?_getD,
        List.getElem?_eq_getElem hlt, Option.getD_some]
    | true => simp [wild]
  have hcopy : (if last then mid.length + (wild last).length - 1
      else mid.length + (wild last).length) = mid.length := by
    cases last <;> simp [wild]
  have htake : (if last then (mid ++ wild last).take mid.length else mid ++ wild last) = mid := by
    cases last <;> simp [wild]
  have hcmp : ∀ {s : List (BitVec 8)}, 0 ∉ s → (strcmp s mid = 0 ↔ s = mid) := fun hs =>
    strcmp_eq_zero_iff hs hmid
  unfold simpleGlob
  simp only [hstart, hrest, hlen, hend, hcopy, htake]
  cases first <;> cases last
  · simp [hcmp ht]
  · simp [strstr_eq_zero_iff]
  · have hdrop := hcmp (s := t.drop (t.length - mid.length)) fun h => ht (List.mem_of_mem_drop h)
    by_cases hle : t.length < mid.length
    · simpa [hle] using fun h : mid <:+ t => absurd h.length_le (by omega)
    · simp [hle, hdrop, List.suffix_iff_eq_drop, eq_comm]
  · simp [strstr_isSome_iff]

/-- `simple_glob` holds exactly of the texts that the pattern stands for. -/
theorem simpleGlob_iff (text pattern : CString) :
    simpleGlob text.bytes pattern.bytes = true ↔ text.bytes ∈ globLanguage pattern.bytes := by
  obtain ⟨first, mid, last, hp, hfirst, hlast⟩ := exists_wild pattern.bytes
  have hmid : 0 ∉ mid := fun h => pattern.zero_notMem <| by
    rw [hp]
    exact List.mem_append_left _ (List.mem_append_right _ h)
  rw [hp, simpleGlob_wild hfirst hlast text.zero_notMem hmid, globLanguage_eq hfirst hlast,
    mem_wild_iff]

/-! ## The filters -/

/-- A filter `-p`, and its pattern `p`. -/
def CString.IsNegative (filter pattern : CString) : Prop :=
  filter.bytes = 0x2d :: pattern.bytes

/-- A filter that selects tests. -/
def CString.IsPositive (filter : CString) : Prop :=
  deref filter.bytes ≠ 0x2d

/-- The filter is a `-p` whose pattern the name matches. -/
def CString.Excludes (filter name : CString) : Prop :=
  ∃ pattern, filter.IsNegative pattern ∧ name.bytes ∈ globLanguage pattern.bytes

/-- The filter is a pattern that the name matches. -/
def CString.Selects (filter name : CString) : Prop :=
  filter.IsPositive ∧ name.bytes ∈ globLanguage filter.bytes

section Filters

variable {name : CString} {filters : List CString} {positive found : Bool}

/-- The name without spaces, as a string. -/
def CString.clean (name : CString) : CString where
  bytes := cleanName name.bytes
  zero_notMem := by
    unfold cleanName
    rw [List.mem_map]
    rintro ⟨c, hc, h⟩
    split_ifs at h
    · exact absurd h (by decide)
    · exact name.zero_notMem (h ▸ hc)

/-- A filter excludes tests or selects them. -/
theorem isNegative_or (filter : CString) :
    (∃ pattern, filter.IsNegative pattern) ∨ filter.IsPositive := by
  obtain ⟨s, hs⟩ := filter
  by_cases h : deref s = 0x2d
  · cases s with
    | nil => cases h
    | cons c s =>
      rw [deref_cons] at h
      refine Or.inl ⟨⟨s, fun h0 => hs (List.mem_cons_of_mem c h0)⟩, ?_⟩
      exact congrArg (· :: s) h
  · exact Or.inr h

theorem not_isPositive {filter pattern : CString} (h : filter.IsNegative pattern) :
    ¬filter.IsPositive := fun hpos => hpos (by rw [h]; rfl)

theorem excludes_iff {filter pattern : CString} (h : filter.IsNegative pattern) (name : CString) :
    filter.Excludes name ↔ simpleGlob name.bytes filter.bytes.tail = true := by
  have htail : filter.bytes.tail = pattern.bytes := by rw [h]; rfl
  rw [htail, simpleGlob_iff]
  refine ⟨fun ⟨pattern', h', hmem⟩ => ?_, fun hmem => ⟨pattern, h, hmem⟩⟩
  have heq : pattern'.bytes = pattern.bytes := (List.cons.inj (h'.symm.trans h)).2
  rwa [heq] at hmem

/-- What the rest of the loop of `test_wanted` makes of the filters before. -/
theorem testWanted_loop (clean : CString) :
    (∃ positive' found',
      testWanted.loop clean.bytes filters positive found = some (positive', found') ∧
        (!positive' || found') = true) ↔
      (∀ filter ∈ filters, ¬filter.Excludes clean) ∧
      ((positive = false ∧ ∀ filter ∈ filters, ¬filter.IsPositive) ∨ found = true ∨
        ∃ filter ∈ filters, filter.Selects clean) := by
  induction filters generalizing positive found with
  | nil => cases positive <;> cases found <;> simp [testWanted.loop]
  | cons filter filters ih =>
    simp only [List.forall_mem_cons, List.exists_mem_cons_iff]
    unfold testWanted.loop
    rcases isNegative_or filter with ⟨pattern, hneg⟩ | hpos
    · have hdash : deref filter.bytes = 0x2d := by rw [hneg]; rfl
      have hnot := not_isPositive hneg
      rw [if_pos hdash, excludes_iff hneg]
      split_ifs with hglob
      · simp [hglob]
      · rw [ih]
        simp [hglob, hnot, CString.Selects]
    · have hexc : ¬filter.Excludes clean := fun ⟨_, h, _⟩ => not_isPositive h hpos
      rw [if_neg hpos, ih]
      simp [hexc, hpos, CString.Selects, ← simpleGlob_iff, or_assoc]

/-- `simple_glob` decides the language of a pattern, and `test_wanted` wants a test if no filter
excludes it, and one selects it or none selects tests. -/
theorem testWanted_iff :
    (∀ text pattern : CString,
      simpleGlob text.bytes pattern.bytes = true ↔ text.bytes ∈ globLanguage pattern.bytes) ∧
    ∀ (name : CString) (filters : List CString) (matched : ℕ),
      ((testWanted name filters matched).1 = true ↔
        (∀ filter ∈ filters, ¬filter.Excludes name.clean) ∧
        ((∀ filter ∈ filters, ¬filter.IsPositive) ∨
          ∃ filter ∈ filters, filter.Selects name.clean)) ∧
      (testWanted name filters matched).2 =
        if (testWanted name filters matched).1 then matched + 1 else matched := by
  refine ⟨simpleGlob_iff, fun name filters matched => ⟨?_, ?_⟩⟩
  · have hloop := @testWanted_loop filters false false name.clean
    simp only [true_and, Bool.false_eq_true, false_or] at hloop
    rw [← hloop]
    unfold testWanted
    change (match testWanted.loop name.clean.bytes filters false false with
      | none => _
      | some (positive, found) => _ : Bool × ℕ).1 = true ↔ _
    rcases testWanted.loop name.clean.bytes filters false false with _ | ⟨positive, found⟩
    · simp
    · cases positive <;> cases found <;> simp
  · unfold testWanted
    rcases testWanted.loop (cleanName name.bytes) filters false false with _ | ⟨positive, found⟩
    · rfl
    · cases positive <;> cases found <;> rfl

end Filters

end AcrnUt
