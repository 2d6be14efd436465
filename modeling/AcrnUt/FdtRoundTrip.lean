import AcrnUt.FdtFinish

/-!
# Writing a device tree blob and reading it

A tree is written with one call of `lib/libfdt/fdt_sw.c` for each beginning and end of a node and
for each property. In a buffer that is large enough, each call returns 0, and what `fdt_finish`
leaves is a blob whose nodes are those of the tree (`Libfdt.roundTrip`). So what `FdtRead` and
`FdtLookup` say of a blob holds of it. The reservation map reads as it has been written, too
(`Libfdt.roundTrip_reserve`).
-/

set_option linter.unusedSectionVars false

namespace AcrnUt

namespace Libfdt

/-! ## Trees -/

/-- Nodes next to each other : each with its name, its properties and what is below it. -/
inductive Forest
  | nil
  | node (name : List (BitVec 8)) (props : List (List (BitVec 8) × List (BitVec 8)))
      (children siblings : Forest)

namespace Forest

/-- The calls that write the properties of a node. -/
def propCalls (props : List (List (BitVec 8) × List (BitVec 8))) : List Call :=
  props.map fun p => .property p.1 p.2

/-- The calls that write the nodes. -/
def calls : Forest → List Call
  | nil => []
  | node name props children siblings =>
    .beginNode name :: (propCalls props ++ (children.calls ++ .endNode :: siblings.calls))

/-- The properties of a node as a reader sees them. -/
def dtProps (props : List (List (BitVec 8) × List (BitVec 8))) : List DtProp :=
  props.map fun p => ⟨chars p.1, p.2⟩

/-- The nodes in the order in which they begin, from the depth `d` on. -/
def nodes : ℕ → Forest → List DtNode
  | _, nil => []
  | d, node name props children siblings =>
    ⟨d, chars name, dtProps props⟩ :: (children.nodes (d + 1) ++ siblings.nodes d)

/-- A tree : a root without siblings. -/
def tree (name : List (BitVec 8)) (props : List (List (BitVec 8) × List (BitVec 8)))
    (children : Forest) : Forest :=
  node name props children nil

theorem finish_notMem (f : Forest) : .finish ∉ f.calls := by
  induction f with
  | nil => simp [calls]
  | node name props children siblings ih₁ ih₂ => simp [calls, propCalls, ih₁, ih₂]

theorem not_isReserve (f : Forest) : ∀ c ∈ f.calls, ¬ c.IsReserve := by
  induction f with
  | nil => simp [calls]
  | node name props children siblings ih₁ ih₂ =>
    intro c hc
    simp only [calls, propCalls, List.mem_cons, List.mem_append, List.mem_map] at hc
    rcases hc with rfl | ⟨p, -, rfl⟩ | hc | rfl | hc
    · exact id
    · exact id
    · exact ih₁ c hc
    · exact id
    · exact ih₂ c hc

end Forest

/-! ## Calls that have room -/

section Room

variable {bufsize w : ℕ} {m₀ m : ByteMem} {rsv : List (BitVec 64 × BitVec 64)}
  {done cs : List Call} {c : Call} {ts : List Token}

/-- The bytes that calls may need. -/
def needs (cs : List Call) : ℕ := (cs.map Call.need).sum

/-- The bytes of the buffer that are in use. -/
def used (m : ByteMem) : ℕ := fdtOffDtStruct m + fdtSizeDtStruct m + fdtSizeDtStrings m

/-- With room for it, a call writes its token. -/
theorem Outcome.ok {need : ℕ} {p : ℤ × ByteMem}
    (hout : Outcome bufsize m₀ m rsv done ts c need p) (hoff : fdtOffDtStruct m =
      48 + 16 * rsv.length) (hroom : used m + need ≤ bufsize) :
    p.1 = 0 ∧ (∃ t, Layout bufsize m₀ p.2 rsv (done ++ [c]) (ts ++ [t])) ∧
      used p.2 ≤ used m + need := by
  unfold used at *
  rcases hout with ⟨hp, ⟨t, hlayout⟩, hle⟩ | ⟨-, -, -, hlt⟩
  · have hoff' := hlayout.off
    exact ⟨hp, ⟨t, hlayout⟩, by omega⟩
  · omega

/-- With room for it, a call that writes a token returns 0. -/
theorem Layout.exec (h : Layout bufsize m₀ m rsv done ts) (hw : 32 ≤ w) (hb : bufsize < 2 ^ 31)
    (hvalid : c.Valid) (hreserve : ¬ c.IsReserve) (hfinish : c ≠ .finish)
    (hroom : used m + c.need ≤ bufsize) (fuel : ℕ) :
    ∃ m' t, c.exec w fuel m = some (0, m') ∧
      Layout bufsize m₀ m' rsv (done ++ [c]) (ts ++ [t]) ∧ used m' ≤ used m + c.need := by
  have hok : ∀ p, Outcome bufsize m₀ m rsv done ts c c.need p → ∃ m' t, some p = some (0, m') ∧
      Layout bufsize m₀ m' rsv (done ++ [c]) (ts ++ [t]) ∧ used m' ≤ used m + c.need := by
    rintro ⟨r, m'⟩ hout
    obtain ⟨rfl, ⟨t, hlayout⟩, hle⟩ := hout.ok h.off hroom
    exact ⟨m', t, rfl, hlayout, hle⟩
  cases c with
  | reserve addr size => exact absurd trivial hreserve
  | beginNode name => exact hok _ (h.beginNode hw hb hvalid.1 hvalid.2)
  | endNode => exact hok _ (h.endNode hw hb)
  | property name val =>
    have hfit : name.length + 1 + fdtSizeDtStrings m ≤ bufsize := by
      simp only [used, Call.need] at hroom
      omega
    exact hok _ (h.property hw hb hvalid.1 hvalid.2.2 hfit)
  | finish => exact absurd rfl hfinish

/-- So do calls one after the other. -/
theorem Layout.run (h : Layout bufsize m₀ m rsv done ts) (hw : 32 ≤ w) (hb : bufsize < 2 ^ 31)
    (hvalid : ∀ c ∈ cs, c.Valid) (hreserve : ∀ c ∈ cs, ¬ c.IsReserve) (hfinish : .finish ∉ cs)
    (hroom : used m + needs cs ≤ bufsize) (fuel : ℕ) (rest : List Call) :
    ∃ m' ts', runCalls w fuel m (cs ++ rest) = (runCalls w fuel m' rest).map
        (fun p => (List.replicate cs.length 0 ++ p.1, p.2)) ∧
      Layout bufsize m₀ m' rsv (done ++ cs) ts' ∧ used m' ≤ used m + needs cs := by
  induction cs generalizing m done ts with
  | nil => exact ⟨m, ts, by simp, by rwa [List.append_nil], le_rfl⟩
  | cons c cs ih =>
    have hneeds : needs (c :: cs) = c.need + needs cs := rfl
    rw [List.mem_cons, not_or] at hfinish
    obtain ⟨m₁, t, hexec, h₁, hused⟩ := h.exec hw hb (hvalid c List.mem_cons_self)
      (hreserve c List.mem_cons_self) (Ne.symm hfinish.1) (by omega) fuel
    obtain ⟨m', ts', hrun, h', hused'⟩ := ih h₁ (fun c hc => hvalid c (List.mem_cons_of_mem _ hc))
      (fun c hc => hreserve c (List.mem_cons_of_mem _ hc)) hfinish.2 (by omega)
    refine ⟨m', ts', ?_, by simpa using h', by omega⟩
    rw [List.cons_append, runCalls_cons hexec, hrun, Option.map_map]
    rfl

/-- The entries of the reservation map come first. -/
theorem Layout.runReserve (h : Layout bufsize m₀ m rsv [] []) (hw : 32 ≤ w)
    (hb : bufsize < 2 ^ 31) (hstr : fdtSizeDtStrings m = 0)
    (entries : List (BitVec 64 × BitVec 64)) (hroom : used m + 16 * entries.length ≤ bufsize)
    (fuel : ℕ) (rest : List Call) :
    ∃ m', runCalls w fuel m (entries.map (fun e => .reserve e.1 e.2) ++ rest) =
        (runCalls w fuel m' rest).map
          (fun p => (List.replicate entries.length 0 ++ p.1, p.2)) ∧
      Layout bufsize m₀ m' (rsv ++ entries) [] [] ∧ used m' = used m + 16 * entries.length := by
  induction entries generalizing m rsv with
  | nil => exact ⟨m, by simp, by rwa [List.append_nil], rfl⟩
  | cons e entries ih =>
    have hoff := h.off
    have hsize := h.size
    rw [List.length_cons] at hroom
    rcases h.reserve hw hb (fun _ => hstr) e.1 e.2 with ⟨m₁, hr, -, h₁, hstr₁⟩ | ⟨_, -, -, hlt⟩
    · have hoff₁ := h₁.off
      have hsize₁ := h₁.size
      rw [List.length_append, List.length_singleton] at hoff₁
      have hused₁ : used m₁ = used m + 16 := by
        unfold used
        omega
      obtain ⟨m', hrun, h', hused'⟩ := ih h₁ hstr₁ (by omega)
      refine ⟨m', ?_, by simpa using h', by rw [List.length_cons]; omega⟩
      have hexec : (Call.reserve e.1 e.2).exec w fuel m = some (0, m₁) := congrArg some hr
      rw [List.map_cons, List.cons_append, runCalls_cons hexec, hrun, Option.map_map]
      rfl
    · have := hlt rfl
      unfold used at hroom
      omega

end Room

/-! ## The blob -/

/-- The string at an offset of the string table. -/
def stringOf (m : ByteMem) (nameoff : BitVec 32) : List (BitVec 8) :=
  (m.read (fdtOffDtStrings m + toInt nameoff.toNat) (fdtSizeDtStrings m)).takeWhile (· ≠ 0)

theorem takeWhile_read {m : ByteMem} {p : ℤ} {s : List (BitVec 8)} (hs : 0 ∉ s)
    (hholds : m.Holds p (s ++ [0])) {n : ℕ} (hn : s.length < n) :
    (m.read p n).takeWhile (· ≠ 0) = s := by
  induction s generalizing p n with
  | nil =>
    obtain ⟨n, rfl⟩ := Nat.exists_eq_add_one_of_ne_zero (Nat.ne_of_gt hn)
    have hz : m p = 0 := hholds.1
    simp [ByteMem.read, hz]
  | cons x s ih =>
    obtain ⟨n, rfl⟩ := Nat.exists_eq_add_one_of_ne_zero (Nat.ne_of_gt (Nat.zero_lt_of_lt hn))
    rw [List.mem_cons, not_or] at hs
    have hx : m p = x := hholds.1
    rw [ByteMem.read, hx, List.takeWhile_cons_of_pos (by simpa using Ne.symm hs.1),
      ih hs.2 hholds.2 (by simpa using hn)]

section Blob

variable {m : ByteMem} {c : Call} {cs : List Call} {t : Token} {ts tail : List Token}
  {nameoff : BitVec 32} {s : List (BitVec 8)} {d : ℕ} {o : ℤ}
  {props : List (List (BitVec 8) × List (BitVec 8))}

/-- A stored string is the one at its offset. -/
theorem Stored.eq (h : Stored m nameoff s) (hs : 0 ∉ s) (hsmall : fdtSizeDtStrings m < 2 ^ 31) :
    stringOf m nameoff = s ∧ s.length < fdtSizeDtStrings m ∧
      m.Holds (fdtOffDtStrings m + toInt nameoff.toNat) (s ++ [0]) := by
  obtain ⟨j, rfl, hlt, hholds⟩ := h
  have hj : toInt (BitVec.ofNat 32 j).toNat = j := by
    rw [BitVec.toNat_ofNat, Nat.mod_eq_of_lt (by omega)]
    exact toInt_of_lt (by omega) (by omega)
  rw [stringOf, hj]
  exact ⟨takeWhile_read hs hholds (by omega), by omega, hholds⟩

/-- The properties of a node are read as they have been written. -/
theorem leadProps_propCalls (hsmall : fdtSizeDtStrings m < 2 ^ 31) {ps : List Token}
    (h : List.Forall₂ (Stands m) (Forest.propCalls props) ps) (rest : List Token) :
    leadProps (stringOf m) (ps ++ rest) = Forest.dtProps props ++ leadProps (stringOf m) rest := by
  induction props generalizing ps with
  | nil =>
    cases h
    rfl
  | cons p props ih =>
    cases h with
    | cons hstands hrest =>
      cases hstands with
      | property hzero hname =>
        rw [List.cons_append, leadProps, ih hrest, (hname.eq hzero hsmall).1]
        rfl

/-- No node begins in them. -/
theorem nodesFrom_propCalls {str : BitVec 32 → List (BitVec 8)} {ps : List Token}
    (h : List.Forall₂ (Stands m) (Forest.propCalls props) ps) (rest : List Token) :
    nodesFrom str d o (ps ++ rest) = nodesFrom str d (o + sizes ps) rest := by
  induction props generalizing ps o with
  | nil =>
    cases h
    simp [sizes]
  | cons p props ih =>
    cases h with
    | cons hstands hrest =>
      cases hstands with
      | property hzero hname =>
        rw [List.cons_append, nodesFrom, ih hrest, sizes_cons]
        · push_cast
          rw [add_assoc]
        all_goals simp

theorem shaped_propCalls {ps : List Token}
    (h : List.Forall₂ (Stands m) (Forest.propCalls props) ps) {rest : List Token}
    (hrest : Shaped (d + 1) rest) : Shaped (d + 1) (ps ++ rest) := by
  induction props generalizing ps with
  | nil =>
    cases h
    exact hrest
  | cons p props ih =>
    cases h with
    | cons hstands htail =>
      cases hstands with
      | property hzero hname => exact .prop (ih htail)

theorem exists_of_forall₂_append {cs cs' : List Call} (h : List.Forall₂ (Stands m) (cs ++ cs') ts) :
    ∃ us vs, ts = us ++ vs ∧ List.Forall₂ (Stands m) cs us ∧ List.Forall₂ (Stands m) cs' vs := by
  induction cs generalizing ts with
  | nil => exact ⟨[], ts, rfl, .nil, h⟩
  | cons c cs ih =>
    cases h with
    | @cons _ t _ ts hstands hrest =>
      obtain ⟨us, vs, rfl, hus, hvs⟩ := ih hrest
      exact ⟨t :: us, vs, rfl, .cons hstands hus, hvs⟩

/-- The tokens of a node : its beginning, its properties, what is below it, its end and what is
next to it. -/
theorem forall₂_node {name : List (BitVec 8)} {children siblings : Forest}
    (h : List.Forall₂ (Stands m) (Forest.node name props children siblings).calls ts) :
    ∃ ps cs ss, ts = .beginNode name :: (ps ++ (cs ++ .endNode :: ss)) ∧
      List.Forall₂ (Stands m) (Forest.propCalls props) ps ∧
      List.Forall₂ (Stands m) children.calls cs ∧ List.Forall₂ (Stands m) siblings.calls ss := by
  rw [Forest.calls] at h
  obtain ⟨t, ts, hbegin, htokens, rfl⟩ := List.forall₂_cons_left_iff.mp h
  obtain ⟨ps, us, rfl, hps, hus⟩ := exists_of_forall₂_append htokens
  obtain ⟨cs, vs, rfl, hcs, hvs⟩ := exists_of_forall₂_append hus
  obtain ⟨t', ss, hend, hss, rfl⟩ := List.forall₂_cons_left_iff.mp hvs
  cases hbegin
  cases hend
  exact ⟨ps, cs, ss, rfl, hps, hcs, hss⟩

/-- The tokens below a node have the shape of trees. -/
theorem shaped_calls (f : Forest) (h : List.Forall₂ (Stands m) f.calls ts)
    (htail : Shaped (d + 1) tail) : Shaped (d + 1) (ts ++ tail) := by
  induction f generalizing d ts tail with
  | nil =>
    cases h
    exact htail
  | node name props children siblings ih₁ ih₂ =>
    obtain ⟨ps, cs, ss, rfl, hps, hcs, hss⟩ := forall₂_node h
    simp only [List.cons_append, List.append_assoc]
    exact .begin (shaped_propCalls hps (ih₁ hcs (.close (ih₂ hss htail))))

/-- The nodes that begin in them are those that have been written. -/
theorem nodesFrom_calls (hsmall : fdtSizeDtStrings m < 2 ^ 31) (f : Forest)
    (h : List.Forall₂ (Stands m) f.calls ts) :
    (nodesFrom (stringOf m) d o (ts ++ tail)).map Prod.snd =
      f.nodes d ++ (nodesFrom (stringOf m) d (o + sizes ts) tail).map Prod.snd := by
  induction f generalizing d o ts tail with
  | nil =>
    cases h
    simp [sizes, Forest.nodes]
  | node name props children siblings ih₁ ih₂ =>
    obtain ⟨ps, cs, ss, rfl, hps, hcs, hss⟩ := forall₂_node h
    have hprops : leadProps (stringOf m) (cs ++ .endNode :: (ss ++ tail)) = [] := by
      cases children with
      | nil =>
        cases hcs
        rfl
      | node =>
        obtain ⟨ps', cs', ss', rfl, -⟩ := forall₂_node hcs
        rfl
    simp only [List.cons_append, List.append_assoc]
    rw [nodesFrom, List.map_cons, leadProps_propCalls hsmall hps, hprops, List.append_nil,
      nodesFrom_propCalls hps, ih₁ hcs, nodesFrom, Nat.add_sub_cancel, ih₂ hss, Forest.nodes]
    simp only [sizes_cons, sizes_append, List.cons_append, List.append_assoc]
    push_cast
    simp only [add_assoc]

/-- The token of a property has its name in the string table. -/
theorem stored_of_mem {data : List (BitVec 8)} (h : List.Forall₂ (Stands m) cs ts)
    (hmem : .prop nameoff data ∈ ts) : ∃ name, 0 ∉ name ∧ Stored m nameoff name := by
  induction h with
  | nil => simp at hmem
  | cons hstands _ ih =>
    rcases List.mem_cons.mp hmem with rfl | hmem
    · cases hstands with
      | property hzero hname => exact ⟨_, hzero, hname⟩
    · exact ih hmem

/-- What is finished with the calls of a tree is a blob of this tree. -/
theorem Finished.exists_blob {bufsize fuel : ℕ} {m₀ : ByteMem}
    {rsv : List (BitVec 64 × BitVec 64)} {name : List (BitVec 8)} {children : Forest}
    (h : Finished bufsize m₀ m rsv (Forest.tree name props children).calls ts)
    (hb : bufsize < 2 ^ 31) (hfuel : bufsize ≤ fuel) :
    Enough m fuel ∧ ∃ b : Blob m, b.tree.nodes = (Forest.tree name props children).nodes 0 := by
  have hfits := h.fits
  have htotal := h.total
  have hoff := h.offStrings
  have hstr : fdtSizeDtStrings m < 2 ^ 31 := by omega
  obtain ⟨ps, cs, ss, rfl, hps, hcs, hss⟩ := forall₂_node h.written
  cases hss
  obtain ⟨body, hbody⟩ : ∃ body, body = ps ++ (cs ++ [.endNode, .fin]) := ⟨_, rfl⟩
  have htokens : .beginNode name :: (ps ++ (cs ++ [.endNode])) ++ [.fin] =
      .beginNode name :: body := by
    simp [hbody]
  have hshaped : Shaped 1 body := by
    rw [hbody]
    exact shaped_propCalls hps (shaped_calls children hcs (.close .fin))
  have hmem : ∀ nameoff data, .prop nameoff data ∈ body →
      ∃ name, 0 ∉ name ∧ Stored m nameoff name := by
    intro nameoff data hprop
    refine stored_of_mem h.written (?_ : Token.prop nameoff data ∈ _)
    simp only [hbody, List.mem_append, List.mem_cons, List.not_mem_nil, or_false,
      reduceCtorEq] at hprop ⊢
    exact Or.inr hprop
  refine ⟨⟨by omega, by omega⟩, ⟨name, body, stringOf m, h.magic, h.version, ?_, by omega, ?_, ?_,
    hshaped, fun nameoff data hprop => ?_⟩, ?_⟩
  · rw [h.lastComp]
    omega
  · rw [← htokens]
    exact h.size
  · rw [← htokens]
    exact h.tokens
  · obtain ⟨name, hzero, hname⟩ := hmem nameoff data hprop
    rw [(hname.eq hzero hstr).1]
    exact ⟨hzero, (hname.eq hzero hstr).2⟩
  · have hnodes : (nodesFrom (stringOf m) 0 0
        (.beginNode name :: (ps ++ (cs ++ [.endNode])) ++ [.fin])).map Prod.snd = _ :=
      nodesFrom_calls hstr _ h.written
    rw [htokens] at hnodes
    exact hnodes.trans (List.append_nil _)

end Blob

/-! ## The reservation map -/

/-- The double word at `a`. -/
def be64 (m : ByteMem) (a : ℤ) : BitVec 64 := m.be32 a ++ m.be32 (a + 4)

/-- `_fdt_mem_rsv`, as an address. -/
def fdtMemRsv (m : ByteMem) (n : ℤ) : ℤ := fdtOffMemRsvmap m + 16 * n

/-- `fdt_get_mem_rsv` : what it returns, and `*address` and `*size` if they are set. -/
def fdtGetMemRsv (m : ByteMem) (n : ℤ) : ℤ × Option (BitVec 64 × BitVec 64) :=
  if fdtCheckHeader m ≠ 0 then (fdtCheckHeader m, none)
  else (0, some (be64 m (fdtMemRsv m n), be64 m (fdtMemRsv m n + 8)))

/-- The loop of `fdt_num_mem_rsv`. -/
def numMemRsvLoop (m : ByteMem) : ℕ → ℤ → Option ℤ
  | 0, _ => none
  | fuel + 1, i =>
    if be64 m (fdtMemRsv m i + 8) ≠ 0 then numMemRsvLoop m fuel (i + 1) else some i

/-- `fdt_num_mem_rsv`. -/
def fdtNumMemRsv (fuel : ℕ) (m : ByteMem) : Option ℤ := numMemRsvLoop m fuel 0

section Reserve

variable {m : ByteMem} {a : ℤ} {rsv : List (BitVec 64 × BitVec 64)}

theorem be64_of_holds {v : BitVec 64} (h : m.Holds a (be64Bytes v)) : be64 m a = v := by
  rw [be64Bytes, ByteMem.holds_append] at h
  have hlow : m.Holds (a + 4) (ByteMem.be32Bytes (v.extractLsb' 0 32)) := h.2
  rw [be64, ByteMem.be32_of_holds h.1, ByteMem.be32_of_holds hlow]
  refine BitVec.eq_of_getLsbD_eq fun i hi => ?_
  rw [BitVec.getLsbD_append, BitVec.getLsbD_extractLsb', BitVec.getLsbD_extractLsb']
  split
  · rename_i hlt
    simp [hlt]
  · rename_i hge
    simp [show i - 32 < 32 by omega, show 32 + (i - 32) = i by omega]

/-- Each entry stands at its place. -/
theorem entry_of_holds (h : m.Holds a (rsvBytes rsv)) {i : ℕ} (hi : i < rsv.length) :
    be64 m (a + 16 * i) = rsv[i].1 ∧ be64 m (a + 16 * i + 8) = rsv[i].2 := by
  induction rsv generalizing a i with
  | nil => simp at hi
  | cons e rsv ih =>
    rw [rsvBytes, List.flatMap_cons, ByteMem.holds_append, ← rsvBytes, ByteMem.holds_append] at h
    obtain ⟨⟨haddr, hsize⟩, hrest⟩ := h
    have hsize' : m.Holds (a + 8) (be64Bytes e.2) := hsize
    cases i with
    | zero => exact ⟨be64_of_holds (by simpa using haddr), be64_of_holds (by simpa using hsize')⟩
    | succ i =>
      have hi' := ih (i := i) hrest (by simpa using hi)
      rw [show a + 16 * ((i + 1 : ℕ) : ℤ) = a + 16 + 16 * i by push_cast; ring]
      exact hi'

/-- The loop counts up to the first empty entry. -/
theorem numMemRsvLoop_eq {n i fuel : ℕ} (hlast : be64 m (fdtMemRsv m n + 8) = 0)
    (hne : ∀ j : ℕ, j < n → be64 m (fdtMemRsv m j + 8) ≠ 0) (hi : i ≤ n) (hfuel : n - i < fuel) :
    numMemRsvLoop m fuel i = some (n : ℤ) := by
  induction fuel generalizing i with
  | zero => omega
  | succ fuel ih =>
    rw [numMemRsvLoop]
    rcases hi.eq_or_lt with rfl | hlt
    · rw [if_neg (not_not.mpr hlast)]
    · rw [if_pos (hne i hlt)]
      exact_mod_cast ih (i := i + 1) hlt (by omega)

end Reserve

/-! ## The round trip -/

section RoundTrip

variable {bufsize w fuel : ℕ}

/-- The calls that write a reservation map and a tree. -/
def writeCalls (entries : List (BitVec 64 × BitVec 64)) (f : Forest) : List Call :=
  (entries ++ [(0, 0)]).map (fun e : BitVec 64 × BitVec 64 => .reserve e.1 e.2) ++
    (f.calls ++ [.finish])

/-- The last entry is the one of `fdt_finish_reservemap`. -/
example (m : ByteMem) : (Call.reserve 0 0).exec w fuel m = some (fdtFinishReservemap w m) := rfl

/-- With enough room, every call returns 0, and the buffer holds the finished blob. -/
theorem exists_finished (hw : 32 ≤ w) (hb : bufsize < 2 ^ 31) (hfuel : bufsize ≤ fuel)
    (m : ByteMem) (entries : List (BitVec 64 × BitVec 64)) (f : Forest)
    (hvalid : ∀ c ∈ f.calls, c.Valid)
    (hroom : 48 + (16 * (entries.length + 1) + (needs f.calls + 4)) ≤ bufsize) :
    ∃ m' ts, runCalls w fuel (fdtCreate w m bufsize).2 (writeCalls entries f) =
        some (List.replicate (writeCalls entries f).length 0, m') ∧
      Finished bufsize m m' (entries ++ [(0, 0)]) f.calls ts := by
  obtain ⟨m₁, hcreate, hcreated⟩ := exists_created hw hb (by omega) m
  have h₁ := hcreated.layout (by omega)
  have hstr := hcreated.strings
  have hoff := h₁.off
  have hsize : fdtSizeDtStruct m₁ = 0 := h₁.size
  have hused : used m₁ = 48 := by
    rw [used, hoff, hsize, hstr]
    rfl
  have hlen : (entries ++ [((0 : BitVec 64), (0 : BitVec 64))]).length = entries.length + 1 := by
    simp
  obtain ⟨m₂, hrun₂, h₂, hused₂⟩ := h₁.runReserve hw hb hstr (entries ++ [(0, 0)])
    (by omega) fuel (f.calls ++ [.finish])
  obtain ⟨m₃, ts, hrun₃, h₃, hused₃⟩ := h₂.run hw hb hvalid f.not_isReserve
    f.finish_notMem (by omega) fuel [.finish]
  rw [List.nil_append] at h₂ h₃
  rcases h₃.finish hw hb f.finish_notMem hfuel with ⟨-, hlt⟩ | ⟨m', ts', hfinish, hblob⟩
  · have hlt' : bufsize < used m₃ + 4 := hlt
    omega
  · refine ⟨m', ts', ?_, hblob⟩
    have hexec : Call.finish.exec w fuel m₃ = some (0, m') := hfinish
    rw [hcreate, writeCalls, hrun₂, hrun₃, runCalls_cons hexec]
    simp only [runCalls, Option.map_some, List.length_append, List.length_map,
      List.replicate_add, List.length_singleton, List.replicate_one]

/-- A tree that is written to a buffer with enough room is read as it has been written : every call
returns 0, nothing changes outside of the buffer, and the nodes of the blob are those of the tree,
with their depths, names and properties. -/
theorem roundTrip (hw : 32 ≤ w) (hb : bufsize < 2 ^ 31) (hfuel : bufsize ≤ fuel)
    (m : ByteMem) (entries : List (BitVec 64 × BitVec 64)) (name : List (BitVec 8))
    (props : List (List (BitVec 8) × List (BitVec 8))) (children : Forest)
    (hvalid : ∀ c ∈ (Forest.tree name props children).calls, c.Valid)
    (hroom : 48 + (16 * (entries.length + 1) +
      (needs (Forest.tree name props children).calls + 4)) ≤ bufsize) :
    ∃ m', runCalls w fuel (fdtCreate w m bufsize).2
          (writeCalls entries (Forest.tree name props children)) =
        some (List.replicate (writeCalls entries (Forest.tree name props children)).length 0, m') ∧
      (∀ x : ℤ, x < 0 ∨ bufsize ≤ x → m' x = m x) ∧
      Enough m' fuel ∧ ∃ b : Blob m', b.tree.nodes = (Forest.tree name props children).nodes 0 := by
  obtain ⟨m', ts, hrun, hblob⟩ := exists_finished hw hb hfuel m entries _ hvalid hroom
  exact ⟨m', hrun, hblob.outside, hblob.exists_blob hb hfuel⟩

/-- The entries of the reservation map are read as they have been written, if none of them is
empty, as the first empty one ends the map. -/
theorem roundTrip_reserve (hw : 32 ≤ w) (hb : bufsize < 2 ^ 31) (hfuel : bufsize ≤ fuel)
    (m : ByteMem) (entries : List (BitVec 64 × BitVec 64)) (f : Forest)
    (hvalid : ∀ c ∈ f.calls, c.Valid) (hne : ∀ e ∈ entries, e.2 ≠ 0)
    (hroom : 48 + (16 * (entries.length + 1) + (needs f.calls + 4)) ≤ bufsize) :
    ∃ m', runCalls w fuel (fdtCreate w m bufsize).2 (writeCalls entries f) =
        some (List.replicate (writeCalls entries f).length 0, m') ∧
      fdtNumMemRsv fuel m' = some (entries.length : ℤ) ∧
      ∀ (i : ℕ) (hi : i < entries.length), fdtGetMemRsv m' i = (0, some entries[i]) := by
  obtain ⟨m', ts, hrun, hblob⟩ := exists_finished hw hb hfuel m entries f hvalid hroom
  have hrsv : ∀ i : ℤ, fdtMemRsv m' i = 48 + 16 * i := by
    intro i
    rw [fdtMemRsv, hblob.rsvmap]
    rfl
  have hentry : ∀ (i : ℕ) (hi : i < entries.length),
      be64 m' (fdtMemRsv m' i) = entries[i].1 ∧ be64 m' (fdtMemRsv m' i + 8) = entries[i].2 := by
    intro i hi
    have hi' := entry_of_holds hblob.reserved (i := i) (by simp; omega)
    rwa [List.getElem_append_left hi, ← hrsv] at hi'
  have hlast : be64 m' (fdtMemRsv m' entries.length + 8) = 0 := by
    have hlast' := (entry_of_holds hblob.reserved (i := entries.length) (by simp)).2
    rwa [List.getElem_concat_length rfl, ← hrsv] at hlast'
  have hfull : ∀ j : ℕ, j < entries.length → be64 m' (fdtMemRsv m' j + 8) ≠ 0 := by
    intro j hj
    rw [(hentry j hj).2]
    exact hne _ (List.getElem_mem hj)
  have hnum : fdtNumMemRsv fuel m' = some (entries.length : ℤ) :=
    numMemRsvLoop_eq (i := 0) hlast hfull (Nat.zero_le _) (by omega)
  refine ⟨m', hrun, hnum, fun i hi => ?_⟩
  have hcheck : fdtCheckHeader m' = 0 := by
    rw [fdtCheckHeader, if_pos hblob.magic, hblob.version, hblob.lastComp]
    rfl
  rw [fdtGetMemRsv, if_neg (not_not.mpr hcheck), (hentry i hi).1, (hentry i hi).2]

/-- A root with a property and a subnode. -/
def sampleForest : Forest := .tree [] [([0x61], [1])] (.node [0x62] [] .nil .nil)

theorem valid_sampleForest : ∀ c ∈ sampleForest.calls, c.Valid := by
  simp [sampleForest, Forest.tree, Forest.calls, Forest.propCalls, Call.Valid]

theorem roundTrip_sample :
    ∃ m', runCalls 64 256 (fdtCreate 64 (fun _ => 0) (256 : ℕ)).2 (writeCalls [] sampleForest) =
        some (List.replicate (writeCalls [] sampleForest).length 0, m') ∧
      (∀ x : ℤ, x < 0 ∨ (256 : ℕ) ≤ x → m' x = (fun _ => 0 : ByteMem) x) ∧
      Enough m' 256 ∧ ∃ b : Blob m', b.tree.nodes = sampleForest.nodes 0 :=
  roundTrip (by decide) (by decide) le_rfl _ [] [] [([0x61], [1])] (.node [0x62] [] .nil .nil)
    valid_sampleForest (by decide)

theorem roundTrip_reserve_sample :
    ∃ m', runCalls 64 256 (fdtCreate 64 (fun _ => 0) (256 : ℕ)).2
          (writeCalls [(0x1000, 0x10)] sampleForest) =
        some (List.replicate (writeCalls [(0x1000, 0x10)] sampleForest).length 0, m') ∧
      fdtNumMemRsv 256 m' = some (([(0x1000, 0x10)] : List (BitVec 64 × BitVec 64)).length : ℤ) ∧
      ∀ (i : ℕ) (hi : i < ([(0x1000, 0x10)] : List (BitVec 64 × BitVec 64)).length),
        fdtGetMemRsv m' i = (0, some ([(0x1000, 0x10)] : List (BitVec 64 × BitVec 64))[i]) :=
  roundTrip_reserve (by decide) (by decide) le_rfl _ [(0x1000, 0x10)] sampleForest
    valid_sampleForest (by simp) (by decide)

end RoundTrip

end Libfdt

end AcrnUt
