import AcrnUt.PciProbe
import Mathlib.Order.CompletePartialOrder

/-!
# What `pci_probe` draws from the windows

The draws of a probe are those that the layouts ask for (`requests`), and a window only
knows what was drawn from it (`Drawn`). If `allocated` starts such that the BARs of each
window fit it (`AddrSpace.FitsAll`), the BARs of a window lie apart and inside it, and the
command registers enable what was assigned (`pciProbe_iff`). With an `allocated` that was
never written this can fail (`pciProbe_outside`).
-/

set_option linter.unusedSectionVars false

namespace AcrnUt

/-- The type of the windows that a BAR is drawn from. -/
def Bar.windowType : Bar → BitVec 32
  | io _ => 1
  | mem32 prefetch _ => if prefetch then 8 else 0
  | mem64 _ _ => 4
  | _ => 0

/-- The window that a BAR is drawn from. -/
def windowOf (spaces : List AddrSpace) (b : Bar) : Option ℕ :=
  spaces.findIdx? fun as => as.type = b.windowType

section Alloc

variable {spaces : List AddrSpace} {c : PciConf} {n : ℕ}

/-- The type bits of a BAR are what the register says it is. -/
theorem pciBarType_eq (hb : c.bar n ≠ .upper) : pciBarType (c.value n) = (c.bar n).info := by
  unfold pciBarType
  rw [value_and_one hb]
  cases hio : (c.bar n).IsIo with
  | true =>
    obtain ⟨bits, hbar⟩ := Bar.exists_io hio
    rw [hbar]
    rfl
  | false =>
    rw [if_neg Bool.false_ne_true, if_neg (not_not.mpr rfl), value_and_type hb hio (by decide)]
    cases hbar : c.bar n with
    | io bits =>
      rw [hbar] at hio
      cases hio
    | mem32 prefetch bits => cases prefetch <;> simp [Bar.info]
    | mem64 prefetch bits => cases prefetch <;> simp [Bar.info]
    | _ => simp [Bar.info]

/-- The type that `pci_alloc_resource` looks for. -/
theorem type_eq (hb : c.bar n ≠ .upper) :
    (if pciBarType (c.value n) &&& 6 ≠ 0 then pciBarType (c.value n) &&& ~~~8
      else pciBarType (c.value n)) = (c.bar n).windowType := by
  rw [pciBarType_eq hb]
  cases c.bar n with
  | mem32 prefetch bits => cases prefetch <;> simp [Bar.info, Bar.windowType]
  | mem64 prefetch bits => cases prefetch <;> simp [Bar.info, Bar.windowType]
  | _ => simp [Bar.info, Bar.windowType]

/-- What `pci_alloc_resource` does. -/
theorem pciAllocResource_cases {r : Option (ℕ × BitVec 64) × List AddrSpace × PciConf} (hn : n < 6)
    (hb : c.bar n ≠ .upper) (h : pciAllocResource spaces c n = some r) :
    r = (none, spaces, c) ∧ ((c.bar n).size = 0 ∨ windowOf spaces (c.bar n) = none) ∨
      ∃ i as, (c.bar n).size ≠ 0 ∧ windowOf spaces (c.bar n) = some i ∧ spaces[i]? = some as ∧
        as.allocated + as.taken (c.bar n).size ≤ as.size ∧
        r = (some (i, as.place (c.bar n).size), spaces.set i (as.draw (c.bar n).size), c) := by
  unfold pciAllocResource at h
  rw [pciBarSize_eq hn hb] at h
  simp only [Option.bind_eq_bind, Option.bind_some] at h
  by_cases hsize : (c.bar n).size = 0
  · rw [if_pos hsize] at h
    exact Or.inl ⟨(Option.some.inj h).symm, Or.inl hsize⟩
  · rw [if_neg hsize, pciBarGet_eq hn] at h
    simp only [Option.bind_some, type_eq hb] at h
    cases hfind : spaces.findIdx? fun as => as.type = (c.bar n).windowType with
    | none =>
      simp only [hfind] at h
      exact Or.inl ⟨(Option.some.inj h).symm, Or.inr hfind⟩
    | some i =>
      simp only [hfind] at h
      obtain ⟨as, has, h⟩ := Option.bind_eq_some_iff.mp h
      obtain ⟨_, hfits, h⟩ := Option.bind_eq_some_iff.mp h
      exact Or.inr ⟨i, as, hsize, hfind, has, of_assert hfits, (Option.some.inj h).symm⟩

/-- The command bits of a BAR. -/
def Bar.command (b : Bar) : BitVec 16 :=
  if b.IsIo then 1 else 2

/-- A turn of the loop : nothing is drawn, or the BAR is drawn from its window. -/
theorem pciProbe_bar_cases {devfn : ℕ} {s : Probe} {r : Probe × ℕ} (hn : n < 6)
    (hb : s.conf.bar n ≠ .upper) (h : pciProbe.bar devfn n s = some r) :
    r.2 = s.conf.next n ∧
      (r.1 = s ∧ ((s.conf.bar n).size = 0 ∨ windowOf s.spaces (s.conf.bar n) = none) ∨
        ∃ i as, (s.conf.bar n).size ≠ 0 ∧ windowOf s.spaces (s.conf.bar n) = some i ∧
          s.spaces[i]? = some as ∧
          as.allocated + as.taken (s.conf.bar n).size ≤ as.size ∧
          (s.conf.bar n).Fits (as.place (s.conf.bar n).size) ∧
          ∃ dev, r.1 = ⟨s.spaces.set i (as.draw (s.conf.bar n).size),
            s.conf.setBar n (as.place (s.conf.bar n).size), dev,
            s.cmd ||| (s.conf.bar n).command,
            s.drawn ++ [⟨devfn, n, i, (s.conf.bar n).size, as.place (s.conf.bar n).size⟩]⟩) := by
  unfold pciProbe.bar at h
  simp only [Option.bind_eq_bind] at h
  obtain ⟨r₁, halloc, h⟩ := Option.bind_eq_some_iff.mp h
  rcases pciAllocResource_cases hn hb halloc with ⟨rfl, hnone⟩ | ⟨i, as, hsize, hi, has, hle, rfl⟩
  · simp only [Option.pure_def, Option.bind_some, pciBarIs64_eq hn hb] at h
    cases h
    exact ⟨rfl, Or.inl ⟨rfl, hnone⟩⟩
  · obtain ⟨⟨dev', c'⟩, hset, h⟩ := Option.bind_eq_some_iff.mp h
    obtain ⟨-, -, hfits, rfl, rfl⟩ := of_pciBarSetAddr hb hset
    have hbar : ∀ m, (s.conf.setBar n (as.place (s.conf.bar n).size)).bar m = s.conf.bar m :=
      fun m => by rw [PciConf.bar, PciConf.setBar_layout]
    have hb' : (s.conf.setBar n (as.place (s.conf.bar n).size)).bar n ≠ .upper := by rwa [hbar]
    simp only [pciBarIsMemory_eq hn hb', pciBarIs64_eq hn hb', hbar, Option.bind_some,
      Option.pure_def] at h
    cases h
    refine ⟨rfl, Or.inr ⟨i, as, hsize, hi, has, hle, hfits,
      s.conf.setResource s.dev n (as.place (s.conf.bar n).size), ?_⟩⟩
    unfold Bar.command
    cases (s.conf.bar n).IsIo <;> rfl

end Alloc

/-! ## One window -/

/-- A power of two. -/
def IsSize (size : BitVec 64) : Prop :=
  ∃ k < 64, size = 1#64 <<< k

theorem Bar.Sized.isSize {b : Bar} (hb : b.Sized) (hsize : b.size ≠ 0) :
    ∃ k < 64, b.size = 1#64 <<< k ∧ b.addrBits = Bar.addrMask k := by
  cases b with
  | none => exact absurd rfl hsize
  | upper => exact absurd rfl hsize
  | io bits => exact ⟨bits, hb.2.trans (by norm_num), rfl, rfl⟩
  | mem32 prefetch bits => exact ⟨bits, hb.2.trans (by norm_num), rfl, rfl⟩
  | mem64 prefetch bits => exact ⟨bits, hb.2, rfl, rfl⟩

/-- `as` is the window `as₀` after draws of the list, of addresses and sizes. -/
inductive Drawn (as₀ : AddrSpace) : List (BitVec 64 × BitVec 64) → AddrSpace → Prop
  | nil : Drawn as₀ [] as₀
  | concat {l : List (BitVec 64 × BitVec 64)} {as : AddrSpace} {size : BitVec 64} :
    Drawn as₀ l as → IsSize size → as.allocated + as.taken size ≤ as.size →
      Drawn as₀ (l ++ [(as.place size, size)]) (as.draw size)

/-- The BARs of these sizes, in order, fit the window without a wrap : the first is placed in
the window, and packed from there on the last ends in it. -/
def AddrSpace.FitsAll (as : AddrSpace) : List (BitVec 64) → Prop
  | [] => True
  | size :: sizes => as.pciStart.toNat ≤ (as.place size).toNat ∧
    packEnd (as.place size).toNat ((size :: sizes).map BitVec.toNat) ≤
      min (as.pciStart.toNat + as.size.toNat) (2 ^ 64)

section Window

variable {as as₀ : AddrSpace} {size : BitVec 64} {k : ℕ} {l : List (BitVec 64 × BitVec 64)}

theorem Drawn.pciStart_eq (h : Drawn as₀ l as) : as.pciStart = as₀.pciStart := by
  induction h with
  | nil => rfl
  | concat _ _ _ ih => exact ih

theorem Drawn.size_eq (h : Drawn as₀ l as) : as.size = as₀.size := by
  induction h with
  | nil => rfl
  | concat _ _ _ ih => exact ih

theorem Drawn.type_eq (h : Drawn as₀ l as) : as.type = as₀.type := by
  induction h with
  | nil => rfl
  | concat _ _ _ ih => exact ih

/-- What the window has given out. -/
def AddrSpace.top (as : AddrSpace) : ℕ :=
  as.pciStart.toNat + as.allocated.toNat

theorem toNat_place (as : AddrSpace) (hk : k < 64) :
    (as.place (1#64 <<< k)).toNat = (as.top + (2 ^ k - 1)) % 2 ^ 64 / 2 ^ k * 2 ^ k := by
  unfold AddrSpace.place AddrSpace.top
  rw [toNat_align_eq _ hk, BitVec.toNat_add, Nat.mod_add_mod]

theorem dvd_place (as : AddrSpace) (hk : k < 64) : 2 ^ k ∣ (as.place (1#64 <<< k)).toNat := by
  rw [toNat_place as hk]
  exact Nat.dvd_mul_left _ _

theorem place_add_le (as : AddrSpace) (hk : k < 64) :
    (as.place (1#64 <<< k)).toNat + 2 ^ k ≤ 2 ^ 64 := by
  obtain ⟨q, hq⟩ := dvd_place as hk
  obtain ⟨t, ht⟩ := Nat.pow_dvd_pow 2 hk.le
  have hlt := (as.place (1#64 <<< k)).isLt
  rw [hq, ht] at hlt ⊢
  have hqt : q < t := Nat.lt_of_mul_lt_mul_left hlt
  exact (Nat.mul_succ _ q).symm.trans_le (Nat.mul_le_mul_left _ hqt)

/-- Without a wrap, a draw is placed at the next multiple of its size. -/
theorem place_eq_alignUp (hk : k < 64) (h : as.top + (2 ^ k - 1) < 2 ^ 64) :
    (as.place (1#64 <<< k)).toNat = alignUp (2 ^ k) as.top := by
  rw [toNat_place as hk, Nat.mod_eq_of_lt h]
  rfl

/-- A draw inside the window moves `top` to its end. -/
theorem top_draw (hk : k < 64) (hle : as.pciStart.toNat ≤ (as.place (1#64 <<< k)).toNat)
    (hend : (as.place (1#64 <<< k)).toNat + 2 ^ k ≤ as.pciStart.toNat + as.size.toNat) :
    (as.draw (1#64 <<< k)).top = (as.place (1#64 <<< k)).toNat + 2 ^ k := by
  have hsize := toNat_one_shiftLeft (w := 64) hk
  have hlt := as.size.isLt
  have halloc : (as.draw (1#64 <<< k)).allocated =
      as.place (1#64 <<< k) + 1#64 <<< k - as.pciStart := by
    unfold AddrSpace.draw AddrSpace.taken
    simp only
    generalize 1#64 <<< k = s
    generalize as.place s = p
    bv_omega
  unfold AddrSpace.top
  rw [halloc, BitVec.toNat_sub, BitVec.toNat_add, hsize]
  change as.pciStart.toNat + _ = _
  have hstart := as.pciStart.isLt
  have hplace := place_add_le as hk
  omega

/-- A window up to half of the address space places no draw inside it by a wrap. -/
theorem no_wrap_of_inside (hk : k < 64) (htop : as.top ≤ as.pciStart.toNat + as.size.toNat)
    (htop' : as.top ≤ 2 ^ 64) (hsize : as.size.toNat ≤ 2 ^ 63)
    (hle : as.pciStart.toNat ≤ (as.place (1#64 <<< k)).toNat) :
    as.top + (2 ^ k - 1) < 2 ^ 64 := by
  by_contra hcon
  have hpow : 2 ^ k ≤ 2 ^ 63 := Nat.pow_le_pow_right two_pos (by omega)
  have hpos := Nat.two_pow_pos k
  have hzero : (as.place (1#64 <<< k)).toNat = 0 := by
    rw [toNat_place as hk]
    have hlt : (as.top + (2 ^ k - 1)) % 2 ^ 64 < 2 ^ k := by omega
    rw [Nat.div_eq_of_lt hlt, Nat.zero_mul]
  omega

/-- The level of a window after draws that fit it. -/
structure Level (as₀ as : AddrSpace) (l : List (BitVec 64 × BitVec 64)) : Prop where
  nil : l = [] → as = as₀
  fits : as₀.FitsAll (l.map Prod.snd)
  top : ∀ size sizes, l.map Prod.snd = size :: sizes →
    as.top = packEnd (as₀.place size).toNat ((size :: sizes).map BitVec.toNat)
  stacked : l ≠ [] →
    Stacked as₀.pciStart.toNat as.top (l.map fun b => (b.1.toNat, b.2.toNat))

/-- Before the first draw. -/
theorem Level.start (as₀ : AddrSpace) : Level as₀ as₀ [] := by
  refine ⟨fun _ => rfl, trivial, ?_, fun h => absurd rfl h⟩
  rintro size sizes h
  cases h

theorem Level.bounds (h : Level as₀ as l) (hl : l ≠ []) :
    as.top ≤ as₀.pciStart.toNat + as₀.size.toNat ∧ as.top ≤ 2 ^ 64 := by
  cases l with
  | nil => exact absurd rfl hl
  | cons b l =>
    have hfits := h.fits
    rw [h.top b.2 (l.map Prod.snd) rfl]
    exact le_min_iff.mp hfits.2

/-- The first draw. -/
theorem Level.first (hk : k < 64) (hle : as₀.pciStart.toNat ≤ (as₀.place (1#64 <<< k)).toNat)
    (hend : (as₀.place (1#64 <<< k)).toNat + 2 ^ k ≤ as₀.pciStart.toNat + as₀.size.toNat) :
    Level as₀ (as₀.draw (1#64 <<< k)) [(as₀.place (1#64 <<< k), 1#64 <<< k)] := by
  have hsize := toNat_one_shiftLeft (w := 64) hk
  have htop := top_draw hk hle hend
  have hpack : packEnd (as₀.place (1#64 <<< k)).toNat [(1#64 <<< k).toNat] =
      (as₀.place (1#64 <<< k)).toNat + 2 ^ k := by
    rw [← List.nil_append [_], packEnd_concat, packEnd_nil, hsize,
      alignUp_of_dvd (Nat.two_pow_pos k) (dvd_place as₀ hk)]
  refine ⟨fun h => absurd h (List.cons_ne_nil _ _), ⟨hle, ?_⟩, ?_, fun _ => ?_⟩
  · change packEnd _ [(1#64 <<< k).toNat] ≤ _
    rw [hpack]
    exact le_min hend (place_add_le as₀ hk)
  · rintro size sizes h
    cases h
    change _ = packEnd _ [(1#64 <<< k).toNat]
    rw [htop, hpack]
  · rw [htop, ← hsize]
    exact (Stacked.nil as₀.pciStart.toNat).concat hle

/-- A further draw. -/
theorem Level.next (h : Level as₀ as l) (hl : l ≠ []) (hk : k < 64)
    (hstart : as.pciStart = as₀.pciStart) (hsz : as.size = as₀.size)
    (hwrap : as.top + (2 ^ k - 1) < 2 ^ 64)
    (hend : (as.place (1#64 <<< k)).toNat + 2 ^ k ≤ as₀.pciStart.toNat + as₀.size.toNat) :
    Level as₀ (as.draw (1#64 <<< k)) (l ++ [(as.place (1#64 <<< k), 1#64 <<< k)]) := by
  have hsize := toNat_one_shiftLeft (w := 64) hk
  have hplace := place_eq_alignUp hk hwrap
  have hup := le_alignUp (Nat.two_pow_pos k) as.top
  have hstack := h.stacked hl
  have hle : as.pciStart.toNat ≤ (as.place (1#64 <<< k)).toNat := by
    rw [hplace, hstart]
    exact hstack.le.trans hup
  have htop := top_draw hk hle (by rwa [hstart, hsz])
  have hsizes : ∀ size sizes, l.map Prod.snd = size :: sizes →
      packEnd (as₀.place size).toNat ((size :: (sizes ++ [1#64 <<< k])).map BitVec.toNat) =
        (as.place (1#64 <<< k)).toNat + 2 ^ k := by
    intro size sizes hmap
    rw [← List.cons_append, List.map_append, List.map_singleton, packEnd_concat,
      ← h.top size sizes hmap, hplace, hsize]
  refine ⟨fun hnil => absurd hnil (by simp), ?_, fun size sizes hmap => ?_, fun _ => ?_⟩
  · have hfits := h.fits
    rw [List.map_append]
    cases hmap : l.map Prod.snd with
    | nil => exact absurd (List.map_eq_nil_iff.mp hmap) hl
    | cons size sizes =>
      rw [hmap] at hfits
      refine ⟨hfits.1, ?_⟩
      change packEnd _ ((size :: (sizes ++ [1#64 <<< k])).map BitVec.toNat) ≤ _
      rw [hsizes size sizes hmap]
      exact le_min hend (place_add_le as hk)
  · cases hmap' : l.map Prod.snd with
    | nil => exact absurd (List.map_eq_nil_iff.mp hmap') hl
    | cons size' sizes' =>
      rw [List.map_append, hmap'] at hmap
      cases hmap
      rw [htop, ← hsizes size sizes' hmap']
      rfl
  · rw [htop, List.map_append, ← hsize]
    exact hstack.concat (hplace ▸ hup)

theorem fitsAll_cons_concat {s : BitVec 64} {sizes : List (BitVec 64)} :
    as.FitsAll (s :: sizes ++ [size]) ↔ as.pciStart.toNat ≤ (as.place s).toNat ∧
      alignUp size.toNat (packEnd (as.place s).toNat ((s :: sizes).map BitVec.toNat)) +
        size.toNat ≤ min (as.pciStart.toNat + as.size.toNat) (2 ^ 64) := by
  change _ ∧ packEnd _ ((s :: sizes ++ [size]).map BitVec.toNat) ≤ _ ↔ _
  rw [List.map_append, List.map_singleton, packEnd_concat]

theorem fitsAll_concat (hs : 0 < size.toNat) {sizes : List (BitVec 64)}
    (h : as.FitsAll (sizes ++ [size])) : as.FitsAll sizes := by
  cases sizes with
  | nil => trivial
  | cons s sizes =>
    obtain ⟨hlow, hend⟩ := fitsAll_cons_concat.mp h
    exact ⟨hlow, ((le_alignUp hs _).trans (Nat.le_add_right _ _)).trans hend⟩

theorem IsSize.pos (h : IsSize size) : 0 < size.toNat := by
  obtain ⟨k, hk, rfl⟩ := h
  rw [toNat_one_shiftLeft hk]
  exact Nat.two_pow_pos k

/-- Draws that fit the window keep its level. -/
theorem Drawn.level_of_fits (h : Drawn as₀ l as) (hfits : as₀.FitsAll (l.map Prod.snd)) :
    Level as₀ as l := by
  induction h with
  | nil => exact Level.start as₀
  | @concat l as size hdrawn hsize hle ih =>
    rw [List.map_append] at hfits
    have hlevel := ih (fitsAll_concat hsize.pos hfits)
    obtain ⟨k, hk, rfl⟩ := hsize
    have hnat := toNat_one_shiftLeft (w := 64) hk
    have hpos := Nat.two_pow_pos k
    rcases eq_or_ne l [] with rfl | hl
    · obtain rfl := hlevel.nil rfl
      have hend := hfits.2
      change packEnd _ ([] ++ [(1#64 <<< k).toNat]) ≤ _ at hend
      rw [packEnd_concat, packEnd_nil, hnat, alignUp_of_dvd hpos (dvd_place as hk), le_min_iff]
        at hend
      exact Level.first hk hfits.1 hend.1
    · cases hmap : l.map Prod.snd with
      | nil => exact absurd (List.map_eq_nil_iff.mp hmap) hl
      | cons s sizes =>
        rw [hmap] at hfits
        have hend := (fitsAll_cons_concat.mp hfits).2
        rw [← hlevel.top s sizes hmap, hnat, le_min_iff] at hend
        have hup := le_alignUp hpos as.top
        have hwrap : as.top + (2 ^ k - 1) < 2 ^ 64 := by omega
        refine hlevel.next hl hk hdrawn.pciStart_eq hdrawn.size_eq hwrap ?_
        rw [place_eq_alignUp hk hwrap]
        exact hend.1

/-- Draws that all lie in a window up to half of the address space keep its level. -/
theorem Drawn.level_of_inside (h : Drawn as₀ l as) (hsz : as₀.size.toNat ≤ 2 ^ 63)
    (hin : ∀ b ∈ l, as₀.pciStart.toNat ≤ b.1.toNat ∧
      b.1.toNat + b.2.toNat ≤ as₀.pciStart.toNat + as₀.size.toNat) :
    Level as₀ as l := by
  induction h with
  | nil => exact Level.start as₀
  | @concat l as size hdrawn hsize hle ih =>
    have hlevel := ih fun b hb => hin b (List.mem_append_left _ hb)
    obtain ⟨hlow, hend⟩ := hin _ (List.mem_append_right _ (List.mem_singleton_self _))
    obtain ⟨k, hk, rfl⟩ := hsize
    rw [toNat_one_shiftLeft hk] at hend
    rcases eq_or_ne l [] with rfl | hl
    · obtain rfl := hlevel.nil rfl
      exact Level.first hk hlow hend
    · obtain ⟨htop, htop'⟩ := hlevel.bounds hl
      have hstart := hdrawn.pciStart_eq
      have hsize := hdrawn.size_eq
      refine hlevel.next hl hk hstart hsize (no_wrap_of_inside hk ?_ htop' ?_ ?_) hend
      · rwa [hstart, hsize]
      · rwa [hsize]
      · rwa [hstart]

end Window

/-! ## Requests -/

/-- A BAR, its window and its size. -/
structure Request where
  dev : ℕ
  bar : ℕ
  space : ℕ
  size : BitVec 64

/-- What was drawn, without the address. -/
def Draw.request (d : Draw) : Request :=
  ⟨d.dev, d.bar, d.space, d.size⟩

/-- The request of the BAR at a register, if there is a BAR and a window of its type. -/
def request (spaces : List AddrSpace) (devfn : ℕ) (l : BarLayout) (n : ℕ) : Option Request :=
  if (l.bar n).size = 0 then none
  else (windowOf spaces (l.bar n)).map fun i => ⟨devfn, n, i, (l.bar n).size⟩

/-- The requests of a function. -/
def requestsOf (spaces : List AddrSpace) (devfn : ℕ) (l : BarLayout) : List Request :=
  (List.range 6).filterMap (request spaces devfn l)

/-- The requests of a number of the bus. -/
def requestsAt (spaces : List AddrSpace) (confs : ℕ → Option PciConf) (devfn : ℕ) : List Request :=
  match confs devfn with
  | none => []
  | some c => if pciDevExists c then requestsOf spaces devfn c.layout else []

/-- The requests of the bus, in the order of the probe. -/
def requests (spaces : List AddrSpace) (confs : ℕ → Option PciConf) : List Request :=
  (List.range 256).flatMap (requestsAt spaces confs)

/-- The sizes of the BARs that a window serves, in the order of the probe. -/
def sizesFrom (spaces : List AddrSpace) (confs : ℕ → Option PciConf) (i : ℕ) :
    List (BitVec 64) :=
  ((requests spaces confs).filter fun r => r.space = i).map Request.size

/-- The BARs fit the windows that serve them, from where each `allocated` starts. -/
def WindowsFit (spaces : List AddrSpace) (confs : ℕ → Option PciConf) : Prop :=
  ∀ (i : ℕ) (as : AddrSpace), spaces[i]? = some as → as.FitsAll (sizesFrom spaces confs i)

/-- The draws from a window. -/
def drawsFrom (drawn : List Draw) (i : ℕ) : List (BitVec 64 × BitVec 64) :=
  (drawn.filter fun d => d.space = i).map fun d => (d.addr, d.size)

/-- The windows only differ from the first ones by what was drawn from them. -/
structure SpacesOk (spaces₀ spaces : List AddrSpace) (drawn : List Draw) : Prop where
  types : spaces.map AddrSpace.type = spaces₀.map AddrSpace.type
  drawn : ∀ i as₀, spaces₀[i]? = some as₀ →
    ∃ as, spaces[i]? = some as ∧ Drawn as₀ (drawsFrom drawn i) as

theorem windowOf_eq (spaces : List AddrSpace) (b : Bar) :
    windowOf spaces b = (spaces.map AddrSpace.type).findIdx? fun t => t = b.windowType := by
  unfold windowOf
  rw [List.findIdx?_map]
  rfl

section Spaces

variable {spaces₀ spaces : List AddrSpace} {drawn : List Draw}

theorem SpacesOk.windowOf (h : SpacesOk spaces₀ spaces drawn) (b : Bar) :
    windowOf spaces b = windowOf spaces₀ b := by
  rw [windowOf_eq, windowOf_eq, h.types]

theorem drawsFrom_concat (drawn : List Draw) (d : Draw) (i : ℕ) :
    drawsFrom (drawn ++ [d]) i =
      drawsFrom drawn i ++ if d.space = i then [(d.addr, d.size)] else [] := by
  unfold drawsFrom
  rw [List.filter_append, List.map_append, List.filter_singleton]
  by_cases h : d.space = i
  · simp [h]
  · simp [h]

/-- A draw from a window. -/
theorem SpacesOk.concat (h : SpacesOk spaces₀ spaces drawn) {i devfn n : ℕ} {as : AddrSpace}
    {size : BitVec 64} (has : spaces[i]? = some as) (hsize : IsSize size)
    (hle : as.allocated + as.taken size ≤ as.size) :
    SpacesOk spaces₀ (spaces.set i (as.draw size))
      (drawn ++ [⟨devfn, n, i, size, as.place size⟩]) where
  types := by
    rw [List.map_set, ← h.types]
    refine List.ext_getElem? fun j => ?_
    rw [List.getElem?_set]
    split_ifs with hj hlt
    · subst hj
      rw [List.getElem?_map, has]
      rfl
    · subst hj
      rw [List.getElem?_eq_none (not_lt.mp hlt)]
    · rfl
  drawn j as₀ hj := by
    obtain ⟨as', has', hdrawn⟩ := h.drawn j as₀ hj
    rw [drawsFrom_concat]
    rcases eq_or_ne i j with rfl | hij
    · obtain rfl := Option.some.inj (has.symm.trans has')
      refine ⟨as.draw size, ?_, ?_⟩
      · rw [List.getElem?_set_self (List.getElem?_eq_some_iff.mp has).1]
      · rw [if_pos rfl]
        exact hdrawn.concat hsize hle
    · refine ⟨as', ?_, ?_⟩
      · rw [List.getElem?_set_ne hij, has']
      · rwa [if_neg hij, List.append_nil]

end Spaces

/-! ## One function -/

/-- The same function, with other values in its registers. -/
structure SameFunction (c₀ c : PciConf) : Prop where
  layout : c.layout = c₀.layout
  exist : pciDevExists c = pciDevExists c₀

/-- A draw sits in the registers of a function. -/
structure Holds (spaces₀ : List AddrSpace) (c : PciConf) (d : Draw) : Prop where
  addr : c.address d.bar = d.addr
  request : request spaces₀ d.dev c.layout d.bar = some d.request

/-- The command enables what was drawn. -/
structure Enables (cmd : BitVec 16) (c : PciConf) (l : List Draw) : Prop where
  memory : cmd &&& 2 ≠ 0 ↔ ∃ d ∈ l, (c.bar d.bar).IsIo = false
  io : cmd &&& 1 ≠ 0 ↔ ∃ d ∈ l, (c.bar d.bar).IsIo = true

/-- The loop over the BARs, before the BAR at register `n` : `l` was drawn so far. -/
structure ProbeInv (spaces₀ : List AddrSpace) (devfn : ℕ) (c₀ : PciConf) (drawn₀ : List Draw)
    (n : ℕ) (s : Probe) (l : List Draw) : Prop where
  le : n ≤ 6
  start : c₀.bar n ≠ .upper
  same : SameFunction c₀ s.conf
  spaces : SpacesOk spaces₀ s.spaces s.drawn
  drawn : s.drawn = drawn₀ ++ l
  requests : l.map Draw.request = (List.range n).filterMap (request spaces₀ devfn c₀.layout)
  holds : ∀ d ∈ l, d.dev = devfn ∧ d.bar < n ∧ Holds spaces₀ s.conf d
  enables : Enables s.cmd c₀ l

section Bars

variable {spaces₀ : List AddrSpace} {devfn n : ℕ} {c₀ : PciConf} {drawn₀ l : List Draw} {s : Probe}

theorem request_upper {b : BarLayout} (h : b.bar n = .upper) :
    request spaces₀ devfn b n = none := by
  unfold request
  rw [if_pos (by rw [h]; rfl)]

/-- The registers of a BAR make one request. -/
theorem requests_next (c : PciConf) (n : ℕ) :
    (List.range (c.next n)).filterMap (request spaces₀ devfn c.layout) =
      (List.range n).filterMap (request spaces₀ devfn c.layout) ++
        (request spaces₀ devfn c.layout n).toList := by
  have hone : (List.range (n + 1)).filterMap (request spaces₀ devfn c.layout) =
      (List.range n).filterMap (request spaces₀ devfn c.layout) ++
        (request spaces₀ devfn c.layout n).toList := by
    rw [List.range_succ, List.filterMap_append]
    cases h : request spaces₀ devfn c.layout n <;> simp [h]
  unfold PciConf.next
  split_ifs with h64
  · obtain ⟨prefetch, bits, hbar⟩ := Bar.exists_mem64 h64
    have hupper : c.layout.bar (n + 1) = .upper := (c.layout.upper_succ_iff n).mpr ⟨_, _, hbar⟩
    rw [List.range_succ, List.filterMap_append, hone]
    simp [request_upper hupper]
  · exact hone

theorem next_le_six (c : PciConf) (hn : n < 6) : c.next n ≤ 6 := by
  unfold PciConf.next
  split_ifs with h64
  · obtain ⟨prefetch, bits, hbar⟩ := Bar.exists_mem64 h64
    exact c.layout.succ_lt_six hbar
  · exact hn

theorem lt_next (c : PciConf) (n : ℕ) : n < c.next n := by
  rcases c.next_eq n with h | h <;> omega

theorem or_and_ne_zero {x y m : BitVec 16} :
    (x ||| y) &&& m ≠ 0 ↔ x &&& m ≠ 0 ∨ y &&& m ≠ 0 := by
  rw [BitVec.and_or_distrib_right]
  exact (not_congr BitVec.or_eq_zero_iff).trans not_and_or

/-- The command after a further draw. -/
theorem Enables.concat {cmd : BitVec 16} (h : Enables cmd c₀ l) (d : Draw) :
    Enables (cmd ||| (c₀.bar d.bar).command) c₀ (l ++ [d]) := by
  have hlast : ∀ b, (∃ d' ∈ l ++ [d], (c₀.bar d'.bar).IsIo = b) ↔
      (∃ d' ∈ l, (c₀.bar d'.bar).IsIo = b) ∨ (c₀.bar d.bar).IsIo = b := by
    intro b
    simp [or_and_right, exists_or]
  constructor
  · rw [or_and_ne_zero, h.memory, hlast]
    refine or_congr_right ?_
    unfold Bar.command
    cases (c₀.bar d.bar).IsIo <;> simp
  · rw [or_and_ne_zero, h.io, hlast]
    refine or_congr_right ?_
    unfold Bar.command
    cases (c₀.bar d.bar).IsIo <;> simp

theorem SameFunction.setBar {c : PciConf} (h : SameFunction c₀ c) (n : ℕ) (addr : BitVec 64) :
    SameFunction c₀ (c.setBar n addr) := by
  refine ⟨(PciConf.setBar_layout c n addr).trans h.layout, ?_⟩
  rw [← h.exist]
  unfold PciConf.setBar pciDevExists
  simp only
  split_ifs <;> rfl

/-- A BAR keeps the address that was drawn for it. -/
theorem setBar_place {as : AddrSpace} {c : PciConf} (hb : c.bar n ≠ .upper)
    (hsize : (c.bar n).size ≠ 0) (hfits : (c.bar n).Fits (as.place (c.bar n).size)) :
    (c.setBar n (as.place (c.bar n).size)).address n = as.place (c.bar n).size := by
  obtain ⟨k, hk, heq, hbits⟩ := (show (c.bar n).Sized from c.layout.sized n).isSize hsize
  rw [setBar_address hb hfits, hbits, heq]
  unfold AddrSpace.place align Bar.addrMask
  rw [BitVec.and_assoc, BitVec.and_self]

/-- A turn of the loop. -/
theorem ProbeInv.step {r : Probe × ℕ} (h : ProbeInv spaces₀ devfn c₀ drawn₀ n s l) (hn : n < 6)
    (hrun : pciProbe.bar devfn n s = some r) :
    ∃ l', ProbeInv spaces₀ devfn c₀ drawn₀ r.2 r.1 l' := by
  have hbars : ∀ m, s.conf.bar m = c₀.bar m := fun m => congrArg (fun b => b.bar m) h.same.layout
  have hb : s.conf.bar n ≠ .upper := (hbars n).symm ▸ h.start
  have hnext : s.conf.next n = c₀.next n := by
    unfold PciConf.next
    rw [hbars]
  obtain ⟨hr, ⟨hs, hnone⟩ | ⟨i, as, hsize, hi, has, hle, hfits, dev, hs⟩⟩ :=
    pciProbe_bar_cases hn hb hrun
  · have hreq : request spaces₀ devfn c₀.layout n = none := by
      unfold request
      rw [← h.spaces.windowOf, ← show s.conf.layout.bar n = c₀.layout.bar n from hbars n]
      rcases hnone with hnone | hnone
      · exact if_pos hnone
      · rw [show windowOf s.spaces (s.conf.layout.bar n) = none from hnone, Option.map_none,
          ite_self]
    refine ⟨l, ?_⟩
    rw [hr, hs, hnext]
    refine ⟨next_le_six c₀ hn, c₀.bar_next_ne_upper n, h.same, h.spaces, h.drawn, ?_, ?_,
      h.enables⟩
    · rw [requests_next, hreq, h.requests]
      exact (List.append_nil _).symm
    · exact fun d hd => ⟨(h.holds d hd).1, (h.holds d hd).2.1.trans (lt_next c₀ n),
        (h.holds d hd).2.2⟩
  · have hreq : request spaces₀ devfn c₀.layout n =
        some (Draw.request ⟨devfn, n, i, (s.conf.bar n).size, as.place (s.conf.bar n).size⟩) := by
      rw [h.spaces.windowOf] at hi
      unfold request
      rw [← show s.conf.layout.bar n = c₀.layout.bar n from hbars n, if_neg hsize,
        show windowOf spaces₀ (s.conf.layout.bar n) = some i from hi]
      rfl
    obtain ⟨k, hk, hpow, -⟩ :=
      (show (s.conf.bar n).Sized from s.conf.layout.sized n).isSize hsize
    refine ⟨l ++ [⟨devfn, n, i, (s.conf.bar n).size, as.place (s.conf.bar n).size⟩], ?_⟩
    rw [hr, hs, hnext]
    refine ⟨next_le_six c₀ hn, c₀.bar_next_ne_upper n, h.same.setBar n _,
      h.spaces.concat has ⟨k, hk, hpow⟩ hle, ?_, ?_, fun d hd => ?_, ?_⟩
    · change s.drawn ++ _ = _
      rw [h.drawn, List.append_assoc]
    · rw [requests_next, hreq, List.map_append, h.requests]
      rfl
    · rcases List.mem_append.mp hd with hd | hd
      · obtain ⟨hdev, hlt, haddr, hdreq⟩ := h.holds d hd
        have hne : s.conf.bar d.bar ≠ .upper := by
          intro hupper
          rw [request_upper hupper] at hdreq
          cases hdreq
        refine ⟨hdev, hlt.trans (lt_next c₀ n), ?_, ?_⟩
        · change (s.conf.setBar n _).address d.bar = d.addr
          rw [setBar_address_of_ne hb hne hlt.ne, haddr]
        · change request spaces₀ d.dev (s.conf.setBar n _).layout d.bar = _
          rw [PciConf.setBar_layout, hdreq]
      · rw [List.mem_singleton.mp hd]
        refine ⟨rfl, lt_next c₀ n, setBar_place hb hsize hfits, ?_⟩
        change request spaces₀ devfn (s.conf.setBar n _).layout n = _
        rw [PciConf.setBar_layout, h.same.layout, hreq]
    · change Enables (s.cmd ||| (s.conf.bar n).command) c₀ _
      rw [hbars]
      exact h.enables.concat ⟨devfn, n, i, (c₀.bar n).size, as.place (c₀.bar n).size⟩

/-- The loop over the BARs of a function. -/
theorem ProbeInv.run {fuel : ℕ} {s' : Probe} (h : ProbeInv spaces₀ devfn c₀ drawn₀ n s l)
    (hfuel : 6 ≤ n + fuel) (hrun : pciProbe.bars devfn fuel n s = some s') :
    ∃ l', ProbeInv spaces₀ devfn c₀ drawn₀ 6 s' l' := by
  induction fuel generalizing n s l with
  | zero =>
    cases hrun
    obtain rfl : n = 6 := by
      have hle := h.le
      omega
    exact ⟨l, h⟩
  | succ fuel ih =>
    unfold pciProbe.bars at hrun
    split_ifs at hrun with hn
    · obtain ⟨r, hbar, hrun⟩ := Option.bind_eq_some_iff.mp hrun
      obtain ⟨l', h'⟩ := h.step hn hbar
      have hb : s.conf.bar n ≠ .upper := by
        have hbars : s.conf.bar n = c₀.bar n := congrArg (fun b => b.bar n) h.same.layout
        exact hbars.symm ▸ h.start
      have hnext := lt_next s.conf n
      rw [← (pciProbe_bar_cases hn hb hbar).1] at hnext
      exact ih h' (by omega) hrun
    · cases hrun
      obtain rfl : n = 6 := by
        have hle := h.le
        omega
      exact ⟨l, h⟩

end Bars

/-! ## The bus -/

/-- The command of a function enables what was drawn for its BARs. -/
def CommandOk (drawn : List Draw) (devfn : ℕ) (c : PciConf) : Prop :=
  (c.command &&& 2 ≠ 0 ↔ ∃ d ∈ drawn, d.dev = devfn ∧ (c.bar d.bar).IsIo = false) ∧
    (c.command &&& 1 ≠ 0 ↔ ∃ d ∈ drawn, d.dev = devfn ∧ (c.bar d.bar).IsIo = true)

/-- The loop over the functions, before number `m`. -/
structure BusInv (spaces₀ : List AddrSpace) (confs₀ : ℕ → Option PciConf) (m : ℕ)
    (bus : PciBus) : Prop where
  spaces : SpacesOk spaces₀ bus.spaces bus.drawn
  requests : bus.drawn.map Draw.request = (List.range m).flatMap (requestsAt spaces₀ confs₀)
  holds : ∀ d ∈ bus.drawn, d.dev < m ∧ ∃ c, bus.confs d.dev = some c ∧ Holds spaces₀ c d
  command : ∀ devfn < m, ∀ c, bus.confs devfn = some c → pciDevExists c →
    CommandOk bus.drawn devfn c
  later : ∀ devfn, m ≤ devfn → bus.confs devfn = confs₀ devfn

section Bus

variable {spaces₀ : List AddrSpace} {confs₀ : ℕ → Option PciConf} {m : ℕ} {bus bus' : PciBus}

/-- A number without a function that the probe sees. -/
theorem BusInv.skip (h : BusInv spaces₀ confs₀ m bus) (hreq : requestsAt spaces₀ confs₀ m = [])
    (hc : ∀ c, bus.confs m = some c → pciDevExists c = false) :
    BusInv spaces₀ confs₀ (m + 1) bus where
  spaces := h.spaces
  requests := by
    rw [List.range_succ, List.flatMap_append, h.requests]
    simp [hreq]
  holds d hd := ⟨(h.holds d hd).1.trans (Nat.lt_succ_self m), (h.holds d hd).2⟩
  command devfn hdev c hconf hex := by
    rcases Nat.lt_succ_iff_lt_or_eq.mp hdev with hlt | rfl
    · exact h.command devfn hlt c hconf hex
    · rw [hc c hconf] at hex
      cases hex
  later devfn hdev := h.later devfn (Nat.le_of_succ_le hdev)

/-- The state of the loop over the BARs at its start. -/
theorem BusInv.probe (h : BusInv spaces₀ confs₀ m bus) (c : PciConf) (dev : PciDev) :
    ProbeInv spaces₀ m c bus.drawn 0 ⟨bus.spaces, c, dev, 0x100 ||| 0x40, bus.drawn⟩ [] where
  le := Nat.zero_le 6
  start := c.layout.zero_ne_upper
  same := ⟨rfl, rfl⟩
  spaces := h.spaces
  drawn := (List.append_nil _).symm
  requests := rfl
  holds d hd := absurd hd List.not_mem_nil
  enables := by
    constructor
    · simp
    · simp

/-- A function after the loop over its BARs. -/
theorem BusInv.probed (h : BusInv spaces₀ confs₀ m bus) {c : PciConf} (hc : confs₀ m = some c)
    (hex : pciDevExists c = true) {s : Probe} {l : List Draw}
    (hs : ProbeInv spaces₀ m c bus.drawn 6 s l) :
    BusInv spaces₀ confs₀ (m + 1)
      ⟨s.spaces, Function.update bus.confs m (some { s.conf with command := s.cmd }), s.drawn⟩ where
  spaces := hs.spaces
  requests := by
    have hat : requestsAt spaces₀ confs₀ m = l.map Draw.request := by
      unfold requestsAt
      rw [hc]
      simp only
      rw [if_pos hex, hs.requests]
      rfl
    rw [List.range_succ, List.flatMap_append, ← h.requests, hs.drawn, List.map_append]
    simp [hat]
  holds d hd := by
    rw [hs.drawn] at hd
    rcases List.mem_append.mp hd with hd | hd
    · obtain ⟨hlt, c', hc', hholds⟩ := h.holds d hd
      exact ⟨hlt.trans (Nat.lt_succ_self m), c', (Function.update_of_ne hlt.ne _ _).trans hc',
        hholds⟩
    · obtain ⟨hdev, -, hholds⟩ := hs.holds d hd
      have hself : Function.update bus.confs m (some { s.conf with command := s.cmd }) d.dev =
          some { s.conf with command := s.cmd } := by
        rw [hdev, Function.update_self]
      exact ⟨hdev ▸ Nat.lt_succ_self m, _, hself, hholds.addr, hholds.request⟩
  command devfn hdev c' hc' hex' := by
    have hold : ∀ d ∈ bus.drawn, d.dev < m := fun d hd => (h.holds d hd).1
    have hnew : ∀ d ∈ l, d.dev = m := fun d hd => (hs.holds d hd).1
    rcases Nat.lt_succ_iff_lt_or_eq.mp hdev with hlt | rfl
    · replace hc' := (Function.update_of_ne hlt.ne _ _).symm.trans hc'
      have hcommand := h.command devfn hlt c' hc' hex'
      have hmem : ∀ p : Draw → Prop, (∃ d ∈ s.drawn, d.dev = devfn ∧ p d) ↔
          ∃ d ∈ bus.drawn, d.dev = devfn ∧ p d := by
        intro p
        rw [hs.drawn]
        constructor
        · rintro ⟨d, hd, hdd, hp⟩
          rcases List.mem_append.mp hd with hd | hd
          · exact ⟨d, hd, hdd, hp⟩
          · exact absurd ((hnew d hd).symm.trans hdd) hlt.ne'
        · rintro ⟨d, hd, hp⟩
          exact ⟨d, List.mem_append_left _ hd, hp⟩
      unfold CommandOk at hcommand ⊢
      rwa [hmem, hmem]
    · have hself : Function.update bus.confs devfn (some { s.conf with command := s.cmd }) devfn =
          some { s.conf with command := s.cmd } := Function.update_self ..
      cases Option.some.inj (hself.symm.trans hc')
      have hmem : ∀ p : Draw → Prop, (∃ d ∈ s.drawn, d.dev = devfn ∧ p d) ↔ ∃ d ∈ l, p d := by
        intro p
        rw [hs.drawn]
        constructor
        · rintro ⟨d, hd, hdd, hp⟩
          rcases List.mem_append.mp hd with hd | hd
          · exact absurd hdd (hold d hd).ne
          · exact ⟨d, hd, hp⟩
        · rintro ⟨d, hd, hp⟩
          exact ⟨d, List.mem_append_right _ hd, hnew d hd, hp⟩
      have hbars : ∀ n, s.conf.bar n = c.bar n :=
        fun n => congrArg (fun b => b.bar n) hs.same.layout
      unfold CommandOk
      rw [hmem, hmem]
      change (s.cmd &&& 2 ≠ 0 ↔ ∃ d ∈ l, (s.conf.bar d.bar).IsIo = false) ∧
        (s.cmd &&& 1 ≠ 0 ↔ ∃ d ∈ l, (s.conf.bar d.bar).IsIo = true)
      simp only [hbars]
      exact ⟨hs.enables.memory, hs.enables.io⟩
  later devfn hdev := by
    exact (Function.update_of_ne (by omega) _ _).trans (h.later devfn (by omega))

/-- A turn of the loop over the functions. -/
theorem BusInv.step (h : BusInv spaces₀ confs₀ m bus) (hrun : pciProbe.dev bus m = some bus') :
    BusInv spaces₀ confs₀ (m + 1) bus' := by
  have hlater := h.later m le_rfl
  unfold pciProbe.dev at hrun
  cases hc : confs₀ m with
  | none =>
    rw [hlater, hc] at hrun
    cases hrun
    refine h.skip (by rw [requestsAt, hc]) fun c hc' => ?_
    rw [hlater, hc] at hc'
    cases hc'
  | some c =>
    rw [hlater, hc] at hrun
    simp only at hrun
    split_ifs at hrun with hex
    · obtain ⟨⟨dev, c'⟩, hinit, hrun⟩ := Option.bind_eq_some_iff.mp hrun
      obtain ⟨dev', hinit', -⟩ := pciDevInit_eq (decodes_of_pciDevInit hinit)
      obtain ⟨rfl, rfl⟩ := Prod.mk.inj (Option.some.inj (hinit'.symm.trans hinit))
      simp only at hrun
      rw [if_neg (not_not.mpr c.normal)] at hrun
      obtain ⟨s, hbars, hrun⟩ := Option.bind_eq_some_iff.mp hrun
      cases hrun
      obtain ⟨l, hs⟩ := (h.probe c dev').run (by norm_num) hbars
      exact h.probed hc hex hs
    · cases hrun
      have hfalse : pciDevExists c = false := Bool.not_eq_true _ |>.mp hex
      refine h.skip ?_ fun c' hc' => ?_
      · unfold requestsAt
        rw [hc]
        exact if_neg hex
      · rw [hlater, hc] at hc'
        cases hc'
        exact hfalse

theorem BusInv.init (spaces : List AddrSpace) (confs : ℕ → Option PciConf) :
    BusInv spaces confs 0 ⟨spaces, confs, []⟩ where
  spaces := ⟨rfl, fun _ as₀ h => ⟨as₀, h, Drawn.nil⟩⟩
  requests := rfl
  holds _ hd := absurd hd List.not_mem_nil
  command devfn hdev := absurd hdev (Nat.not_lt_zero devfn)
  later _ _ := rfl

/-- The loop over the functions. -/
theorem BusInv.run {spaces : List AddrSpace} {confs : ℕ → Option PciConf} (k : ℕ)
    (hrun : (List.range k).foldlM pciProbe.dev ⟨spaces, confs, []⟩ = some bus) :
    BusInv spaces confs k bus := by
  induction k generalizing bus with
  | zero =>
    cases hrun
    exact BusInv.init spaces confs
  | succ k ih =>
    rw [List.range_succ, List.foldlM_append] at hrun
    obtain ⟨bus₁, hbus₁, hlast⟩ := Option.bind_eq_some_iff.mp hrun
    obtain ⟨bus₂, hstep, hnil⟩ := Option.bind_eq_some_iff.mp hlast
    cases hnil
    exact (ih hbus₁).step hstep

end Bus

/-! ## The windows of a probe -/

/-- The addresses that a BAR answers. -/
def PciConf.range (c : PciConf) (n : ℕ) : Set ℕ :=
  Set.Ico (c.address n).toNat ((c.address n).toNat + (c.bar n).size.toNat)

/-- What a probe leaves : BARs drawn from one window lie apart, every BAR is aligned to its
size and lies inside its window, which is of its type, and a command enables what was
assigned. -/
structure ProbeOk (bus : PciBus) : Prop where
  disjoint : bus.drawn.Pairwise fun d d' => d.space = d'.space → ∀ c c',
    bus.confs d.dev = some c → bus.confs d'.dev = some c' →
      Disjoint (c.range d.bar) (c'.range d'.bar)
  aligned : ∀ d ∈ bus.drawn, ∀ c, bus.confs d.dev = some c →
    (c.bar d.bar).size.toNat ∣ (c.address d.bar).toNat
  inside : ∀ d ∈ bus.drawn, ∀ c, bus.confs d.dev = some c → ∃ as, bus.spaces[d.space]? = some as ∧
    as.type = (c.bar d.bar).windowType ∧ as.pciStart.toNat ≤ (c.address d.bar).toNat ∧
      (c.address d.bar).toNat + (c.bar d.bar).size.toNat ≤ as.pciStart.toNat + as.size.toNat
  command : ∀ devfn < 256, ∀ c, bus.confs devfn = some c → pciDevExists c →
    CommandOk bus.drawn devfn c

section Probe

variable {spaces₀ : List AddrSpace} {confs₀ : ℕ → Option PciConf} {bus : PciBus} {m : ℕ}

theorem pairwise_of_filter {R : Draw → Draw → Prop} (l : List Draw)
    (h : ∀ i, (l.filter fun d => d.space = i).Pairwise R) :
    l.Pairwise fun d d' => d.space = d'.space → R d d' := by
  induction l with
  | nil => exact List.Pairwise.nil
  | cons d l ih =>
    refine List.Pairwise.cons (fun d' hd' hspace => ?_) (ih fun i => ?_)
    · have hcons := h d.space
      rw [List.filter_cons_of_pos (by simp)] at hcons
      exact (List.pairwise_cons.mp hcons).1 d'
        (List.mem_filter.mpr ⟨hd', by simpa using hspace.symm⟩)
    · exact (h i).sublist ((List.sublist_cons_self d l).filter _)

theorem Drawn.dvd {as₀ as : AddrSpace} {l : List (BitVec 64 × BitVec 64)} (h : Drawn as₀ l as) :
    ∀ b ∈ l, b.2.toNat ∣ b.1.toNat := by
  induction h with
  | nil => exact fun b hb => absurd hb List.not_mem_nil
  | concat _ hsize _ ih =>
    intro b hb
    rcases List.mem_append.mp hb with hb | hb
    · exact ih b hb
    · obtain ⟨k, hk, rfl⟩ := hsize
      rw [List.mem_singleton.mp hb]
      change (1#64 <<< k).toNat ∣ _
      rw [toNat_one_shiftLeft hk]
      exact dvd_place _ hk

theorem mem_drawsFrom {drawn : List Draw} {d : Draw} (hd : d ∈ drawn) :
    (d.addr, d.size) ∈ drawsFrom drawn d.space :=
  List.mem_map.mpr ⟨d, List.mem_filter.mpr ⟨hd, by simp⟩, rfl⟩

/-- A draw in the registers of its function. -/
theorem BusInv.registers (h : BusInv spaces₀ confs₀ m bus) {d : Draw} (hd : d ∈ bus.drawn)
    {c : PciConf} (hc : bus.confs d.dev = some c) :
    c.address d.bar = d.addr ∧ (c.bar d.bar).size = d.size ∧
      ∃ as₀, spaces₀[d.space]? = some as₀ ∧ as₀.type = (c.bar d.bar).windowType := by
  obtain ⟨-, c', hc', haddr, hreq⟩ := h.holds d hd
  obtain rfl := Option.some.inj (hc.symm.trans hc')
  unfold request at hreq
  split_ifs at hreq with hsize
  obtain ⟨i, hi, heq⟩ := Option.map_eq_some_iff.mp hreq
  have hspace : i = d.space := congrArg Request.space heq
  obtain ⟨hlt, htype, -⟩ := List.findIdx?_eq_some_iff_getElem.mp hi
  subst hspace
  exact ⟨haddr, congrArg Request.size heq, _, List.getElem?_eq_getElem hlt, by simpa using htype⟩

/-- The sizes drawn from a window are those that the layouts ask of it. -/
theorem BusInv.sizes (h : BusInv spaces₀ confs₀ 256 bus) (i : ℕ) :
    (drawsFrom bus.drawn i).map Prod.snd = sizesFrom spaces₀ confs₀ i := by
  unfold sizesFrom AcrnUt.requests drawsFrom
  rw [← h.requests, List.filter_map, List.map_map, List.map_map]
  rfl

/-- Windows at their level make a good probe. -/
theorem BusInv.probeOk (h : BusInv spaces₀ confs₀ 256 bus)
    (hlevel : ∀ i as₀ as, spaces₀[i]? = some as₀ → bus.spaces[i]? = some as →
      Level as₀ as (drawsFrom bus.drawn i)) : ProbeOk bus where
  disjoint := by
    have hfrom : ∀ i, (bus.drawn.filter fun d => d.space = i).Pairwise fun d d' =>
        d.addr.toNat + d.size.toNat ≤ d'.addr.toNat := by
      intro i
      cases hl : bus.drawn.filter fun d => d.space = i with
      | nil => exact List.Pairwise.nil
      | cons d l =>
        obtain ⟨hd, hspace⟩ := List.mem_filter.mp (hl ▸ List.mem_cons_self (a := d) (l := l))
        obtain ⟨-, c, hc, -⟩ := h.holds d hd
        obtain ⟨-, -, as₀, has₀, -⟩ := h.registers hd hc
        rw [of_decide_eq_true hspace] at has₀
        obtain ⟨as, has, -⟩ := h.spaces.drawn i as₀ has₀
        have hne : drawsFrom bus.drawn i ≠ [] := by
          unfold drawsFrom
          rw [hl]
          exact List.cons_ne_nil _ _
        have hasc := ((hlevel i as₀ as has₀ has).stacked hne).ascending
        unfold drawsFrom at hasc
        rw [List.pairwise_map, List.pairwise_map, hl] at hasc
        exact hasc
    refine (pairwise_of_filter _ hfrom).imp_of_mem fun {d d'} hd hd' hapart hspace c c' hc hc' => ?_
    obtain ⟨haddr, hsize, -⟩ := h.registers hd hc
    obtain ⟨haddr', -⟩ := h.registers hd' hc'
    have hle := hapart hspace
    unfold PciConf.range
    rw [haddr, hsize, haddr', Set.Ico_disjoint_Ico]
    exact (min_le_left _ _).trans (hle.trans (le_max_right _ _))
  aligned d hd c hc := by
    obtain ⟨haddr, hsize, as₀, has₀, -⟩ := h.registers hd hc
    obtain ⟨as, -, hdrawn⟩ := h.spaces.drawn d.space as₀ has₀
    rw [haddr, hsize]
    exact hdrawn.dvd _ (mem_drawsFrom hd)
  inside d hd c hc := by
    obtain ⟨haddr, hsize, as₀, has₀, htype⟩ := h.registers hd hc
    obtain ⟨as, has, hdrawn⟩ := h.spaces.drawn d.space as₀ has₀
    have hl := hlevel d.space as₀ as has₀ has
    have hmem := mem_drawsFrom hd
    have hne : drawsFrom bus.drawn d.space ≠ [] := List.ne_nil_of_mem hmem
    obtain ⟨hlow, hhigh⟩ := (hl.stacked hne).bounds _ (List.mem_map_of_mem hmem)
    refine ⟨as, has, hdrawn.type_eq.trans htype, ?_, ?_⟩
    · rw [haddr, hdrawn.pciStart_eq]
      exact hlow
    · rw [haddr, hsize, hdrawn.pciStart_eq, hdrawn.size_eq]
      exact hhigh.trans (hl.bounds hne).1
  command := h.command

/-- In a probe that returns, what it draws from the windows keeps its promises if the BARs of
each window fit it from where `allocated` starts, and, for windows up to half of the address
space, only then. -/
theorem pciProbe_iff {nacRoot : ℕ} {data : List (BitVec 32)} {contents : ℕ → BitVec 64}
    {confs : ℕ → Option PciConf} {spaces : List AddrSpace}
    (hspaces : pciDtProbe nacRoot data contents = some spaces)
    (hprobe : pciProbe nacRoot data contents confs = some bus) :
    (WindowsFit spaces confs → ProbeOk bus) ∧
      ((∀ as ∈ spaces, as.size.toNat ≤ 2 ^ 63) → ProbeOk bus → WindowsFit spaces confs) := by
  obtain ⟨spaces', hspaces', hrun⟩ := Option.bind_eq_some_iff.mp hprobe
  obtain rfl := Option.some.inj (hspaces.symm.trans hspaces')
  have h := BusInv.run 256 hrun
  constructor
  · intro hfits
    refine h.probeOk fun i as₀ as has₀ has => ?_
    obtain ⟨as', has', hdrawn⟩ := h.spaces.drawn i as₀ has₀
    obtain rfl := Option.some.inj (has.symm.trans has')
    refine hdrawn.level_of_fits ?_
    rw [h.sizes]
    exact hfits i as₀ has₀
  · intro hsmall hok i as₀ has₀
    obtain ⟨as, has, hdrawn⟩ := h.spaces.drawn i as₀ has₀
    rw [← h.sizes]
    refine (hdrawn.level_of_inside (hsmall as₀ (List.mem_of_getElem? has₀)) fun b hb => ?_).fits
    obtain ⟨d, hfilter, rfl⟩ := List.mem_map.mp hb
    obtain ⟨hd, hspace⟩ := List.mem_filter.mp hfilter
    obtain rfl := of_decide_eq_true hspace
    obtain ⟨-, c, hc, -⟩ := h.holds d hd
    obtain ⟨haddr, hsize, -⟩ := h.registers hd hc
    obtain ⟨as', has', -, hlow, hhigh⟩ := hok.inside d hd c hc
    obtain rfl := Option.some.inj (has.symm.trans has')
    rw [haddr, hdrawn.pciStart_eq] at hlow
    rw [haddr, hsize, hdrawn.pciStart_eq, hdrawn.size_eq] at hhigh
    exact ⟨hlow, hhigh⟩

end Probe

/-! ## A bus with one function -/

/-- A function at number 0. -/
def oneFunction (c : PciConf) (devfn : ℕ) : Option PciConf :=
  if devfn = 0 then some c else none

theorem foldlM_none (l : List ℕ) {bus : PciBus} (h : ∀ devfn ∈ l, bus.confs devfn = none) :
    l.foldlM pciProbe.dev bus = some bus := by
  induction l with
  | nil => rfl
  | cons devfn l ih =>
    have hdev : pciProbe.dev bus devfn = some bus := by
      unfold pciProbe.dev
      rw [h devfn (List.mem_cons_self ..)]
    rw [List.foldlM_cons, hdev]
    exact ih fun d hd => h d (List.mem_cons_of_mem devfn hd)

/-- The probe of a bus with one function. -/
theorem pciProbe_oneFunction {nacRoot : ℕ} {data : List (BitVec 32)} {contents : ℕ → BitVec 64}
    {c : PciConf} {spaces : List AddrSpace} {bus : PciBus}
    (hspaces : pciDtProbe nacRoot data contents = some spaces)
    (hdev : pciProbe.dev ⟨spaces, oneFunction c, []⟩ 0 = some bus) :
    pciProbe nacRoot data contents (oneFunction c) = some bus := by
  have hlater := ((BusInv.init spaces (oneFunction c)).step hdev).later
  unfold pciProbe
  rw [hspaces]
  change (List.range (255 + 1)).foldlM pciProbe.dev _ = some bus
  rw [List.range_succ_eq_map, List.foldlM_cons, hdev]
  refine foldlM_none _ fun devfn hmem => ?_
  obtain ⟨k, -, rfl⟩ := List.mem_map.mp hmem
  exact hlater (k + 1) (Nat.succ_le_succ (Nat.zero_le k))

/-- A memory BAR of 4K. -/
def memFunction : PciConf :=
  .single (.mem32 false 12) ⟨by norm_num, by norm_num⟩ rfl Bar.noConfusion 0x10000000

/-- A `ranges` property with a 32-bit memory window of 256M. -/
def memCells : List (BitVec 32) :=
  [0x02000000, 0, 0x10000000, 0, 0x10000000, 0, 0x10000000]

/-- Its window. -/
def memWindow (allocated : BitVec 64) : AddrSpace :=
  ⟨0x10000000, 0x10000000, 0x10000000, allocated, 0⟩

theorem memCells_spaces (allocated : BitVec 64) :
    pciDtProbe 2 memCells (fun _ => allocated) = some [memWindow allocated] :=
  rfl

/-- Two memory BARs of 4K and of 64K. -/
def memLayout : BarLayout where
  bar
    | 0 => .mem32 false 12
    | 1 => .mem32 false 16
    | _ + 2 => .none
  sized n := by
    rcases n with _ | _ | n
    · exact ⟨by norm_num, by norm_num⟩
    · exact ⟨by norm_num, by norm_num⟩
    · trivial
  upper_succ_iff n := by
    refine iff_of_false ?_ ?_
    · rcases n with _ | n <;> exact Bar.noConfusion
    · rintro ⟨_, _, h⟩
      rcases n with _ | _ | n <;> exact Bar.noConfusion h
  zero_ne_upper := Bar.noConfusion
  none_of_le n hn := by
    obtain ⟨k, rfl⟩ := Nat.exists_eq_add_of_le' hn
    rfl

/-- A function with both, at the start of the window. -/
def memPair : PciConf where
  layout := memLayout
  vendorId := 0x1b36
  deviceId := 5
  headerType := 0
  command := 0
  value n := if n < 2 then 0x10000000 else 0
  normal := memFunction.normal
  value_info n := by
    rcases n with _ | _ | n
    · decide
    · decide
    · exact BitVec.zero_and

/-- In memory that `malloc` returned cleared, the larger BAR is placed behind the smaller one, at
its own alignment. -/
theorem pciProbe_cleared :
    ∃ bus, pciProbe 2 memCells (fun _ => 0) (oneFunction memPair) = some bus ∧ ProbeOk bus ∧
      (bus.confs 0).map (fun c => (c.address 0, c.address 1)) =
        some (0x10000000, 0x10010000) := by
  have hdev : (pciProbe.dev ⟨[memWindow 0], oneFunction memPair, []⟩ 0).map
      (fun bus => (bus.confs 0).map fun c => (c.address 0, c.address 1)) =
        some (some (0x10000000, 0x10010000)) := by
    decide +kernel
  obtain ⟨bus, hbus, haddr⟩ := Option.map_eq_some_iff.mp hdev
  have hprobe := pciProbe_oneFunction (memCells_spaces 0) hbus
  have hsizes : sizesFrom [memWindow 0] (oneFunction memPair) 0 = [0x1000, 0x10000] := by
    decide +kernel
  have hfits : WindowsFit [memWindow 0] (oneFunction memPair) := by
    intro i as has
    cases i with
    | zero =>
      obtain rfl := Option.some.inj has
      rw [hsizes]
      exact ⟨by decide, by decide⟩
    | succ i => cases has
  exact ⟨bus, hprobe, (pciProbe_iff (memCells_spaces 0) hprobe).1 hfits, haddr⟩

/-- The window in memory that `malloc` returned with `-0x1000` in place of `allocated` : the BAR
gets the page below the window. -/
theorem pciProbe_outside :
    ∃ bus, pciProbe 2 memCells (fun _ => 0 - 0x1000) (oneFunction memFunction) = some bus ∧
      ¬ProbeOk bus ∧ ∃ c, bus.confs 0 = some c ∧ c.address 0 = 0x0ffff000 ∧
        ∀ as ∈ bus.spaces, ¬as.Contains 0x0ffff000 := by
  obtain ⟨bus, hbus⟩ : ∃ bus,
      pciProbe.dev ⟨[memWindow (0 - 0x1000)], oneFunction memFunction, []⟩ 0 = some bus := ⟨_, rfl⟩
  have hprobe := pciProbe_oneFunction (memCells_spaces (0 - 0x1000)) hbus
  have hstate : bus.spaces.map AddrSpace.pciStart = [0x10000000] ∧
      bus.drawn.map Draw.dev = [0] ∧ bus.drawn.map Draw.bar = [0] ∧
      (bus.confs 0).map (fun c => c.address 0) = some 0x0ffff000 := by
    cases hbus
    exact ⟨rfl, rfl, rfl, rfl⟩
  obtain ⟨hspaces, hdev, hbar, hconf⟩ := hstate
  obtain ⟨c, hc, haddr⟩ := Option.map_eq_some_iff.mp hconf
  have hstart : ∀ as ∈ bus.spaces, as.pciStart = 0x10000000 := by
    intro as has
    have hmem := List.mem_map_of_mem (f := AddrSpace.pciStart) has
    rw [hspaces] at hmem
    exact List.mem_singleton.mp hmem
  refine ⟨bus, hprobe, fun hok => ?_, c, hc, haddr, fun as has hcontains => ?_⟩
  · cases hdrawn : bus.drawn with
    | nil =>
      rw [hdrawn] at hdev
      cases hdev
    | cons d l =>
      rw [hdrawn] at hdev hbar
      have hdev0 : d.dev = 0 := (List.cons.inj hdev).1
      have hbar0 : d.bar = 0 := (List.cons.inj hbar).1
      obtain ⟨as, has, -, hlow, -⟩ := hok.inside d (hdrawn ▸ List.mem_cons_self ..) c
        (by rw [hdev0, hc])
      rw [hstart as (List.mem_of_getElem? has), hbar0, haddr] at hlow
      exact absurd hlow (by decide)
  · have hle := hcontains.1
    rw [hstart as has] at hle
    exact absurd hle (by decide)

end AcrnUt
