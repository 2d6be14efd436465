import AcrnUt.BitField
import AcrnUt.CpuMask

/-!
# Interrupts between processors

`gicv3_ipi_send_mask` of `lib/arm/gic-v3.c`, for arm64. One write to `ICC_SGI1R_EL1` interrupts up
to 16 CPUs that differ in the lowest affinity level only. The loop over the mask collects such
CPUs until it meets another cluster (`GicIpi.collect`), and then goes back by one, so that
`for_each_cpu` finds the first CPU of the next cluster again. The writes together have the CPUs of
the mask as their targets, each one once (`GicIpi.gicv3IpiSendMask_spec`).
-/

set_option linter.unusedSectionVars false

namespace AcrnUt

/-- `MPIDR_LEVEL_SHIFT`. -/
def mpidrLevelShift (level : ℕ) : ℕ :=
  ((1 <<< level) >>> 1) <<< 3

/-- `MPIDR_AFFINITY_LEVEL`. -/
def mpidrAffinityLevel (mpidr : BitVec 64) (level : ℕ) : BitVec 64 :=
  (mpidr >>> mpidrLevelShift level) &&& 0xff

/-- `MPIDR_TO_SGI_AFFINITY`, with `ICC_SGI1R_AFFINITY_n_SHIFT`. -/
def mpidrToSgiAffinity (clusterId : BitVec 64) (level : ℕ) : BitVec 64 :=
  mpidrAffinityLevel clusterId level <<< (16 * level)

/-- What `gicv3_ipi_send_mask` does : a message about a CPU with a wide affinity, or a write to
`ICC_SGI1R_EL1`. -/
inductive GicEvent
  | printf (cpu : ℤ) (aff0 : BitVec 64)
  | writeSgi1r (value : BitVec 64)

/-- The CPUs of the system, and the mask that the interrupt is sent to. -/
structure GicIpi where
  nrCpus : ℕ
  cpus : ℕ → BitVec 64
  dest : CpuMask 64

namespace GicIpi

variable (g : GicIpi)

/-- `mpidr & ~0xffUL`. -/
def clusterId (mpidr : BitVec 64) : BitVec 64 :=
  mpidr &&& ~~~0xff

/-- The inner loop : the CPU behind it, the target list, and the message if there is one. -/
def collect (cluster : BitVec 64) (cpu : ℤ) (mpidr : BitVec 64) (tlist : BitVec 16) :
    ℤ × BitVec 16 × List GicEvent :=
  if cpu < g.nrCpus then
    if 16 ≤ mpidr &&& 0xff then (cpu, tlist, [.printf cpu (mpidr &&& 0xff)])
    else
      let tlist := tlist ||| (1#16 <<< (mpidr &&& 0xf).toNat)
      if g.dest.next g.nrCpus cpu < g.nrCpus then
        let mpidr := g.cpus (g.dest.next g.nrCpus cpu).toNat
        if cluster ≠ clusterId mpidr then (g.dest.next g.nrCpus cpu - 1, tlist, [])
        else collect cluster (g.dest.next g.nrCpus cpu) mpidr tlist
      else (g.dest.next g.nrCpus cpu, tlist, [])
  else (cpu, tlist, [])
termination_by (g.nrCpus - cpu).toNat
decreasing_by
  have := CpuMask.lt_next (by assumption)
  omega

/-- The value of `ICC_SGI1R_EL1` : `irq << 24` is an `int`. -/
def sgi1r (cluster : BitVec 64) (irq : BitVec 32) (tlist : BitVec 16) : BitVec 64 :=
  mpidrToSgiAffinity cluster 3 ||| mpidrToSgiAffinity cluster 2 ||| (irq <<< 24).signExtend 64 |||
    mpidrToSgiAffinity cluster 1 ||| tlist.setWidth 64

theorem le_collect (cluster : BitVec 64) (cpu : ℤ) (mpidr : BitVec 64) (tlist : BitVec 16) :
    cpu ≤ (g.collect cluster cpu mpidr tlist).1 := by
  fun_induction collect with
  | case1 => exact le_rfl
  | case2 cpu _ _ _ _ _ hnext =>
    have := CpuMask.lt_next hnext
    simp only
    omega
  | case3 cpu _ _ _ _ _ hnext _ _ ih =>
    have := CpuMask.lt_next hnext
    omega
  | case4 cpu _ _ hcpu => exact (CpuMask.next_spec _ _ _ hcpu).1.le
  | case5 => exact le_rfl

/-- `for_each_cpu` of `gicv3_ipi_send_mask`, behind `cpu`. -/
def sendFrom (irq : BitVec 32) (cpu : ℤ) : List GicEvent :=
  if g.dest.next g.nrCpus cpu < g.nrCpus then
    let mpidr := g.cpus (g.dest.next g.nrCpus cpu).toNat
    let cluster := clusterId mpidr
    let r := g.collect cluster (g.dest.next g.nrCpus cpu) mpidr 0
    r.2.2 ++ .writeSgi1r (sgi1r cluster irq r.2.1) :: sendFrom irq r.1
  else []
termination_by (g.nrCpus - cpu).toNat
decreasing_by
  have := CpuMask.lt_next (by assumption)
  have := g.le_collect (clusterId (g.cpus (g.dest.next g.nrCpus cpu).toNat))
    (g.dest.next g.nrCpus cpu) (g.cpus (g.dest.next g.nrCpus cpu).toNat) 0
  omega

/-- `gicv3_ipi_send_mask`, unless its assertion fails. -/
def gicv3IpiSendMask (irq : BitVec 32) : Option (List GicEvent) :=
  if irq.slt 16 then some (g.sendFrom irq (-1)) else none

end GicIpi

/-! ## What a write asks for -/

namespace Sgi1r

/-- The CPUs of the cluster that are interrupted. -/
def targetList : BitField 64 16 :=
  ⟨0, by omega⟩

/-- `Aff1` of the cluster. -/
def aff1 : BitField 64 8 :=
  ⟨16, by omega⟩

/-- The interrupt. -/
def intid : BitField 64 4 :=
  ⟨24, by omega⟩

/-- `Aff2` of the cluster. -/
def aff2 : BitField 64 8 :=
  ⟨32, by omega⟩

/-- Whether the interrupt goes to all CPUs, and not to the targets. -/
def irm : BitField 64 1 :=
  ⟨40, by omega⟩

/-- Which 16 CPUs of the cluster the target list is about. -/
def rs : BitField 64 4 :=
  ⟨44, by omega⟩

/-- `Aff3` of the cluster. -/
def aff3 : BitField 64 8 :=
  ⟨48, by omega⟩

end Sgi1r

/-- The affinity levels of a CPU. -/
structure Affinity where
  aff3 : BitVec 8
  aff2 : BitVec 8
  aff1 : BitVec 8
  aff0 : BitVec 8
  deriving DecidableEq

/-- The affinity levels in an MPIDR. -/
def affinity (mpidr : BitVec 64) : Affinity :=
  ⟨(mpidr >>> 32).setWidth 8, (mpidr >>> 16).setWidth 8, (mpidr >>> 8).setWidth 8,
    mpidr.setWidth 8⟩

/-- The CPUs that a write to `ICC_SGI1R_EL1` interrupts. -/
def sgiTargets (value : BitVec 64) : List Affinity :=
  ((List.range 16).filter (Sgi1r.targetList.get value).getLsbD).map fun i =>
    ⟨Sgi1r.aff3.get value, Sgi1r.aff2.get value, Sgi1r.aff1.get value,
      BitVec.ofNat 8 (16 * (Sgi1r.rs.get value).toNat + i)⟩

namespace GicIpi

theorem and_ff (x : BitVec 64) : x &&& 0xff = (x.setWidth 8).setWidth 64 := by
  apply BitVec.eq_of_toNat_eq
  rw [BitVec.toNat_and, show (0xff : BitVec 64).toNat = 2 ^ 8 - 1 from rfl,
    Nat.and_two_pow_sub_one_eq_mod, BitVec.toNat_setWidth, BitVec.toNat_setWidth]
  omega

/-- The interrupt does not reach the sign of the `int`. -/
theorem shiftLeft_irq {irq : BitVec 32} (hirq : irq.toNat < 16) :
    (irq <<< 24).signExtend 64 = (irq.setWidth 4).setWidth 64 <<< 24 := by
  have hval : (irq <<< 24).toNat = irq.toNat * 2 ^ 24 := by
    rw [BitVec.toNat_shiftLeft, Nat.shiftLeft_eq]
    omega
  have hmsb : (irq <<< 24).msb = false := by
    rw [BitVec.msb_eq_decide, hval, decide_eq_false_iff_not]
    omega
  apply BitVec.eq_of_toNat_eq
  rw [BitVec.signExtend_eq_setWidth_of_msb_false hmsb, BitVec.toNat_setWidth, hval,
    BitVec.toNat_shiftLeft, BitVec.toNat_setWidth, BitVec.toNat_setWidth, Nat.shiftLeft_eq]
  omega

/-- The fields of the value that is written. -/
theorem sgi1r_fields (cluster : BitVec 64) {irq : BitVec 32} (hirq : irq.toNat < 16)
    (tlist : BitVec 16) :
    sgi1r cluster irq tlist = (affinity cluster).aff3.setWidth 64 <<< Sgi1r.aff3.lo |||
      (affinity cluster).aff2.setWidth 64 <<< Sgi1r.aff2.lo |||
      (irq.setWidth 4).setWidth 64 <<< Sgi1r.intid.lo |||
      (affinity cluster).aff1.setWidth 64 <<< Sgi1r.aff1.lo |||
      tlist.setWidth 64 <<< Sgi1r.targetList.lo := by
  simp only [sgi1r, mpidrToSgiAffinity, mpidrAffinityLevel, and_ff, shiftLeft_irq hirq]
  simp [affinity, Sgi1r.aff3, Sgi1r.aff2, Sgi1r.intid, Sgi1r.aff1, Sgi1r.targetList,
    mpidrLevelShift]

/-- The fields as they are read. -/
theorem get_sgi1r (cluster : BitVec 64) {irq : BitVec 32} (hirq : irq.toNat < 16)
    (tlist : BitVec 16) :
    Sgi1r.targetList.get (sgi1r cluster irq tlist) = tlist ∧
      Sgi1r.aff1.get (sgi1r cluster irq tlist) = (affinity cluster).aff1 ∧
      Sgi1r.intid.get (sgi1r cluster irq tlist) = irq.setWidth 4 ∧
      Sgi1r.aff2.get (sgi1r cluster irq tlist) = (affinity cluster).aff2 ∧
      Sgi1r.irm.get (sgi1r cluster irq tlist) = 0 ∧
      Sgi1r.rs.get (sgi1r cluster irq tlist) = 0 ∧
      Sgi1r.aff3.get (sgi1r cluster irq tlist) = (affinity cluster).aff3 := by
  rw [sgi1r_fields cluster hirq]
  have hor {len : ℕ} (f : BitField 64 len) := f.get_or
  refine ⟨?_, ?_, ?_, ?_, ?_, ?_, ?_⟩ <;>
    simp (disch := decide) [hor, BitField.get_shiftLeft, BitField.get_shiftLeft_of_disjoint]

/-- The targets of a write. -/
theorem sgiTargets_sgi1r (cluster : BitVec 64) {irq : BitVec 32} (hirq : irq.toNat < 16)
    (tlist : BitVec 16) :
    sgiTargets (sgi1r cluster irq tlist) = ((List.range 16).filter tlist.getLsbD).map fun i =>
      { affinity cluster with aff0 := BitVec.ofNat 8 i } := by
  obtain ⟨htlist, haff1, -, haff2, -, hrs, haff3⟩ := get_sgi1r cluster hirq tlist
  simp [sgiTargets, htlist, haff1, haff2, hrs, haff3]

/-! ## The targets of a run -/

/-- The writes among the events. -/
def writes (events : List GicEvent) : List (BitVec 64) :=
  events.filterMap fun
    | .writeSgi1r value => some value
    | .printf _ _ => none

/-- The CPUs are told apart by their MPIDRs, and a target list has a bit for each CPU. -/
structure Distinct (g : GicIpi) : Prop where
  inj : ∀ i < g.nrCpus, ∀ j < g.nrCpus, g.cpus i = g.cpus j → i = j
  aff0 : ∀ i < g.nrCpus, (mpidrAffinityLevel (g.cpus i) 0).toNat < 16

variable {g : GicIpi}

/-- Going back by one makes `for_each_cpu` find the CPU again. -/
theorem forEachFrom_pred {cpu : ℤ} (hcpu : cpu < g.nrCpus) (htest : g.dest.testCpu cpu.toNat) :
    g.dest.forEachFrom g.nrCpus (cpu - 1) = cpu.toNat :: g.dest.forEachFrom g.nrCpus cpu := by
  have hnext : g.dest.next g.nrCpus (cpu - 1) = cpu := by
    rw [CpuMask.next, if_pos (by omega), sub_add_cancel, if_pos htest]
  rw [CpuMask.forEachFrom, hnext, if_pos hcpu]

theorem forEachFrom_of_le {cpu : ℤ} (h : g.nrCpus ≤ cpu) :
    g.dest.forEachFrom g.nrCpus cpu = [] := by
  rw [CpuMask.forEachFrom, CpuMask.next_of_le _ h, if_neg (by omega)]

/-- The bit of a CPU in the target list. -/
theorem getLsbD_or_bit {mpidr : BitVec 64} (haff : (mpidrAffinityLevel mpidr 0).toNat < 16)
    (tlist : BitVec 16) (b : ℕ) :
    (tlist ||| (1#16 <<< (mpidr &&& 0xf).toNat)).getLsbD b = true ↔
      tlist.getLsbD b = true ∨ (mpidrAffinityLevel mpidr 0).toNat = b := by
  have hlow : (mpidr &&& 0xf).toNat = (mpidrAffinityLevel mpidr 0).toNat := by
    have hff : (mpidrAffinityLevel mpidr 0).toNat = mpidr.toNat % 2 ^ 8 := by
      rw [mpidrAffinityLevel, and_ff, BitVec.toNat_setWidth_of_le (by omega),
        BitVec.toNat_setWidth]
      rfl
    rw [BitVec.toNat_and, show (0xf : BitVec 64).toNat = 2 ^ 4 - 1 from rfl,
      Nat.and_two_pow_sub_one_eq_mod]
    omega
  rw [BitVec.getLsbD_or, hlow, ← BitVec.twoPow_eq, BitVec.getLsbD_twoPow, Bool.or_eq_true,
    Bool.and_eq_true, decide_eq_true_iff, decide_eq_true_iff, and_iff_right haff]

/-- The inner loop collects a run of CPUs of one cluster, and stops in front of the rest. -/
theorem collect_spec (hg : g.Distinct) (cluster : BitVec 64) (cpu : ℤ) (hnonneg : 0 ≤ cpu)
    (hcpu : cpu < g.nrCpus) (hcluster : clusterId (g.cpus cpu.toNat) = cluster)
    (tlist : BitVec 16) :
    ∃ peers, cpu.toNat :: g.dest.forEachFrom g.nrCpus cpu =
        peers ++ g.dest.forEachFrom g.nrCpus (g.collect cluster cpu (g.cpus cpu.toNat) tlist).1 ∧
      (∀ i ∈ peers, clusterId (g.cpus i) = cluster) ∧
      (g.collect cluster cpu (g.cpus cpu.toNat) tlist).2.2 = [] ∧
      ∀ b, (g.collect cluster cpu (g.cpus cpu.toNat) tlist).2.1.getLsbD b = true ↔
        tlist.getLsbD b = true ∨ ∃ i ∈ peers, (mpidrAffinityLevel (g.cpus i) 0).toNat = b := by
  have haff := hg.aff0 cpu.toNat (by omega)
  have hwide : ¬16 ≤ g.cpus cpu.toNat &&& 0xff := by
    have : (g.cpus cpu.toNat &&& 0xff).toNat < 16 := haff
    exact BitVec.not_le.2 this
  -- the last CPU of the run, before another cluster or the end of the mask
  have hlast : (∀ i ∈ [cpu.toNat], clusterId (g.cpus i) = cluster) ∧ ∀ b,
      (tlist ||| (1#16 <<< (g.cpus cpu.toNat &&& 0xf).toNat)).getLsbD b = true ↔
        tlist.getLsbD b = true ∨
          ∃ i ∈ [cpu.toNat], (mpidrAffinityLevel (g.cpus i) 0).toNat = b := by
    refine ⟨by simpa using hcluster, fun b => ?_⟩
    rw [getLsbD_or_bit haff tlist b]
    simp
  rw [collect, if_pos hcpu, if_neg hwide]
  by_cases hnext : g.dest.next g.nrCpus cpu < g.nrCpus
  · have hlt := CpuMask.lt_next hnext
    have htest := (CpuMask.next_spec g.nrCpus g.dest cpu hcpu).2.2.2 hnext
    dsimp only
    rw [if_pos hnext]
    by_cases hsame : cluster = clusterId (g.cpus (g.dest.next g.nrCpus cpu).toNat)
    · rw [if_neg (not_not.2 hsame)]
      obtain ⟨peers, hsplit, hpeers, hevents, htlist⟩ := collect_spec hg cluster
        (g.dest.next g.nrCpus cpu) (by omega) hnext hsame.symm
        (tlist ||| (1#16 <<< (g.cpus cpu.toNat &&& 0xf).toNat))
      refine ⟨cpu.toNat :: peers, ?_, ?_, hevents, fun b => ?_⟩
      · rw [CpuMask.forEachFrom, if_pos hnext, hsplit]
        rfl
      · simpa using ⟨hcluster, hpeers⟩
      · rw [htlist b, getLsbD_or_bit haff tlist b]
        simp [or_assoc]
    · rw [if_pos hsame]
      refine ⟨[cpu.toNat], ?_, hlast.1, rfl, hlast.2⟩
      rw [CpuMask.forEachFrom, if_pos hnext, forEachFrom_pred hnext htest]
      rfl
  · dsimp only
    rw [if_neg hnext]
    refine ⟨[cpu.toNat], ?_, hlast.1, rfl, hlast.2⟩
    rw [CpuMask.forEachFrom, if_neg hnext, forEachFrom_of_le (by omega)]
    rfl
termination_by (g.nrCpus - cpu).toNat

theorem shiftRight_clusterId (mpidr : BitVec 64) {k : ℕ} (hk : 8 ≤ k) (hk' : k + 8 ≤ 64) :
    (clusterId mpidr >>> k).setWidth 8 = (mpidr >>> k).setWidth 8 := by
  refine BitVec.eq_of_getLsbD_eq fun i hi => ?_
  have hff : (0xff : BitVec 64).getLsbD (k + i) = false := by
    rw [BitVec.getLsbD, show (0xff : BitVec 64).toNat = 2 ^ 8 - 1 from rfl,
      Nat.testBit_two_pow_sub_one, decide_eq_false_iff_not]
    omega
  rw [BitVec.getLsbD_setWidth, BitVec.getLsbD_setWidth, BitVec.getLsbD_ushiftRight,
    BitVec.getLsbD_ushiftRight, clusterId, BitVec.getLsbD_and, BitVec.getLsbD_not, hff]
  have : k + i < 64 := by omega
  simp [this]

/-- The CPUs of a cluster differ in the lowest level only. -/
theorem affinity_of_cluster {mpidr cluster : BitVec 64} (h : clusterId mpidr = cluster) :
    affinity mpidr = { affinity cluster with
      aff0 := BitVec.ofNat 8 (mpidrAffinityLevel mpidr 0).toNat } := by
  subst h
  have haff0 : BitVec.ofNat 8 (mpidrAffinityLevel mpidr 0).toNat = mpidr.setWidth 8 := by
    apply BitVec.eq_of_toNat_eq
    rw [mpidrAffinityLevel, and_ff, BitVec.toNat_setWidth_of_le (by omega), BitVec.toNat_ofNat,
      BitVec.toNat_setWidth, BitVec.toNat_setWidth, Nat.mod_mod]
    rfl
  simp [affinity, shiftRight_clusterId, haff0]

/-- The cluster and the lowest level together are the MPIDR. -/
theorem eq_of_cluster_aff0 {m m' : BitVec 64} (hcluster : clusterId m = clusterId m')
    (haff0 : mpidrAffinityLevel m 0 = mpidrAffinityLevel m' 0) : m = m' := by
  have hsplit (x : BitVec 64) : x = clusterId x ||| mpidrAffinityLevel x 0 := by
    have hlow : mpidrAffinityLevel x 0 = x &&& 0xff := by simp [mpidrAffinityLevel, mpidrLevelShift]
    rw [clusterId, hlow]
    ext i hi
    rw [BitVec.getElem_or, BitVec.getElem_and, BitVec.getElem_and, BitVec.getElem_not,
      ← Bool.and_or_distrib_left, Bool.not_or_self, Bool.and_true]
  rw [hsplit m, hsplit m', hcluster, haff0]

/-- The targets of one write are the CPUs that were collected for it. -/
theorem sgiTargets_perm (hg : g.Distinct) {irq : BitVec 32} (hirq : irq.toNat < 16)
    {cluster : BitVec 64} {tlist : BitVec 16} {peers : List ℕ} (hnodup : peers.Nodup)
    (hlt : ∀ i ∈ peers, i < g.nrCpus) (hpeers : ∀ i ∈ peers, clusterId (g.cpus i) = cluster)
    (htlist : ∀ b, tlist.getLsbD b = true ↔
      ∃ i ∈ peers, (mpidrAffinityLevel (g.cpus i) 0).toNat = b) :
    (sgiTargets (sgi1r cluster irq tlist)).Perm (peers.map fun i => affinity (g.cpus i)) := by
  have hinj : ∀ i ∈ peers, ∀ j ∈ peers, affinity (g.cpus i) = affinity (g.cpus j) → i = j := by
    intro i hi j hj heq
    rw [affinity_of_cluster (hpeers i hi), affinity_of_cluster (hpeers j hj)] at heq
    have haff0 := congrArg (fun a => a.aff0.toNat) heq
    have hi16 := hg.aff0 i (hlt i hi)
    have hj16 := hg.aff0 j (hlt j hj)
    simp only [BitVec.toNat_ofNat] at haff0
    refine hg.inj i (hlt i hi) j (hlt j hj) (eq_of_cluster_aff0 ?_ (BitVec.eq_of_toNat_eq ?_))
    · rw [hpeers i hi, hpeers j hj]
    · omega
  rw [sgiTargets_sgi1r cluster hirq]
  refine (List.perm_ext_iff_of_nodup (List.Nodup.map_on ?_ (List.nodup_range.filter _))
    (hnodup.map_on hinj)).2 fun a => ?_
  · intro i hi j hj heq
    have hval := congrArg (fun a => a.aff0.toNat) heq
    have hi16 := List.mem_range.1 (List.mem_filter.1 hi).1
    have hj16 := List.mem_range.1 (List.mem_filter.1 hj).1
    simp only [BitVec.toNat_ofNat] at hval
    omega
  · simp only [List.mem_map, List.mem_filter, List.mem_range, htlist]
    constructor
    · rintro ⟨b, ⟨-, i, hi, rfl⟩, rfl⟩
      exact ⟨i, hi, affinity_of_cluster (hpeers i hi)⟩
    · rintro ⟨i, hi, rfl⟩
      exact ⟨_, ⟨hg.aff0 i (hlt i hi), i, hi, rfl⟩, (affinity_of_cluster (hpeers i hi)).symm⟩

/-- Each turn of `for_each_cpu` serves the CPUs up to those that the next turn finds. -/
theorem sendFrom_spec (hg : g.Distinct) {irq : BitVec 32} (hirq : irq.toNat < 16) (cpu : ℤ)
    (hcpu : -1 ≤ cpu) :
    ((writes (g.sendFrom irq cpu)).flatMap sgiTargets).Perm
        ((g.dest.forEachFrom g.nrCpus cpu).map fun i => affinity (g.cpus i)) ∧
      ∀ e ∈ g.sendFrom irq cpu, ∃ value, e = .writeSgi1r value ∧
        Sgi1r.intid.get value = irq.setWidth 4 ∧ Sgi1r.irm.get value = 0 := by
  obtain ⟨hsorted, hmem⟩ := CpuMask.forEachFrom_spec g.nrCpus g.dest cpu hcpu
  rw [sendFrom, CpuMask.forEachFrom]
  rw [CpuMask.forEachFrom] at hsorted hmem
  generalize hc : g.dest.next g.nrCpus cpu = c at *
  split
  case isTrue h =>
    have hlt : cpu < c := hc ▸ CpuMask.lt_next (hc.symm ▸ h)
    obtain ⟨peers, hsplit, hpeers, hevents, htlist⟩ := collect_spec hg _ c (by omega) h rfl 0
    have hle := g.le_collect (clusterId (g.cpus c.toNat)) c (g.cpus c.toNat) 0
    dsimp only
    generalize g.collect (clusterId (g.cpus c.toNat)) c (g.cpus c.toNat) 0 = r at *
    rw [if_pos h, hsplit] at hsorted hmem
    obtain ⟨-, -, hintid, -, hirm, -, -⟩ := get_sgi1r (clusterId (g.cpus c.toNat)) hirq r.2.1
    have hperm := sgiTargets_perm hg hirq ((List.pairwise_append.1 hsorted).1.imp fun h => h.ne)
      (fun i hi => ((hmem i).1 (List.mem_append_left _ hi)).2.1) hpeers fun b => by
        rw [htlist]
        simp
    obtain ⟨hrest, hwrites⟩ := sendFrom_spec hg hirq r.1 (by omega)
    rw [hevents, List.nil_append, hsplit, List.map_append]
    refine ⟨hperm.append hrest, fun e he => ?_⟩
    rcases List.mem_cons.1 he with rfl | he
    · exact ⟨_, rfl, hintid, hirm⟩
    · exact hwrites e he
  case isFalse => exact ⟨List.Perm.refl _, fun e he => by simp at he⟩
termination_by (g.nrCpus - cpu).toNat
decreasing_by omega

/-- The targets of all writes are the affinities of the CPUs in the mask, each CPU once, and every
write carries the interrupt. No target is repeated, as long as the bits outside the affinity levels
are not what tells the MPIDRs apart. -/
theorem gicv3IpiSendMask_spec (hg : g.Distinct) {irq : BitVec 32} (hirq : irq.toNat < 16) :
    ∃ events, g.gicv3IpiSendMask irq = some events ∧
      ((writes events).flatMap sgiTargets).Perm
        (((List.range g.nrCpus).filter g.dest.testCpu).map fun i => affinity (g.cpus i)) ∧
      (Set.InjOn (fun i => affinity (g.cpus i)) (Set.Iio g.nrCpus) →
        ((writes events).flatMap sgiTargets).Nodup) ∧
      ∀ e ∈ events, ∃ value, e = .writeSgi1r value ∧
        (Sgi1r.intid.get value).toNat = irq.toNat ∧ Sgi1r.irm.get value = 0 := by
  have hassert : irq.slt 16 := by
    rw [BitVec.slt_iff_toInt_lt, BitVec.toInt_eq_toNat_of_lt (by omega)]
    exact Int.ofNat_lt.2 hirq
  obtain ⟨hperm, hwrites⟩ := sendFrom_spec hg hirq (-1) le_rfl
  obtain ⟨hsorted, hmem⟩ := CpuMask.forEachFrom_spec g.nrCpus g.dest (-1) le_rfl
  have hnodup : ((List.range g.nrCpus).filter g.dest.testCpu).Nodup := List.nodup_range.filter _
  have hcpus : (g.dest.forEachFrom g.nrCpus (-1)).Perm
      ((List.range g.nrCpus).filter g.dest.testCpu) := by
    refine (List.perm_ext_iff_of_nodup (hsorted.imp fun h => h.ne) hnodup).2 fun i => ?_
    rw [hmem, List.mem_filter, List.mem_range, and_iff_right (by omega)]
  have hperm := hperm.trans (hcpus.map _)
  refine ⟨_, if_pos hassert, hperm, fun hinj => ?_, fun e he => ?_⟩
  · refine hperm.nodup_iff.2 (hnodup.map_on fun i hi j hj heq => hinj ?_ ?_ heq)
    · exact List.mem_range.1 (List.mem_filter.1 hi).1
    · exact List.mem_range.1 (List.mem_filter.1 hj).1
  · obtain ⟨value, rfl, hintid, hirm⟩ := hwrites e he
    refine ⟨value, rfl, ?_, hirm⟩
    rw [hintid, BitVec.toNat_setWidth, Nat.mod_eq_of_lt hirq]

/-- Three CPUs of two clusters that alternate. -/
theorem gicv3IpiSendMask_spec_interleaved :
    let g : GicIpi := ⟨3, fun i => if i = 1 then 0x100 else BitVec.ofNat 64 i, ⟨fun _ => 7⟩⟩
    ∃ events, g.gicv3IpiSendMask 7 = some events ∧
      ((writes events).flatMap sgiTargets).Perm
        (((List.range g.nrCpus).filter g.dest.testCpu).map fun i => affinity (g.cpus i)) ∧
      (Set.InjOn (fun i => affinity (g.cpus i)) (Set.Iio g.nrCpus) →
        ((writes events).flatMap sgiTargets).Nodup) ∧
      ∀ e ∈ events, ∃ value, e = .writeSgi1r value ∧
        (Sgi1r.intid.get value).toNat = 7 ∧ Sgi1r.irm.get value = 0 :=
  gicv3IpiSendMask_spec ⟨by decide, by decide⟩ (show (7 : BitVec 32).toNat < 16 by decide)

end GicIpi

end AcrnUt
