import AcrnUt.FdtRead

/-!
# Looking up in a device tree blob

The lookups of `lib/libfdt/fdt_ro.c` by a name, by a path and by the value of a property. On a
well-formed blob they answer what `Fdt` says of the abstract tree : the first property of the name
(`Libfdt.Blob.fdtGetpropNamelen_eq`), the first subnode of a name (`fdtSubnodeOffsetNamelen_eq`),
the node of an absolute path (`fdtPathOffset_eq`), and the next node with a property of a given
value (`fdtNodeOffsetByPropValue_eq`).
-/

set_option linter.unusedSectionVars false

namespace AcrnUt

namespace Libfdt

/-! ## The code -/

/-- `-FDT_ERR_BADPATH`. -/
def errBadpath : ℤ := -5

/-- `'/'`. -/
def slash : BitVec 8 := 0x2f

/-- `'@'`. -/
def atSign : BitVec 8 := 0x40

/-- `strlen`. -/
def strlen (m : ByteMem) : ℕ → ℤ → Option ℕ
  | 0, _ => none
  | fuel + 1, p => if m p = 0 then some 0 else (strlen m fuel (p + 1)).map (· + 1)

/-- `fdt_string`. -/
def fdtString (m : ByteMem) (stroffset : ℤ) : ℤ :=
  fdtOffDtStrings m + stroffset

/-- `_fdt_string_eq`. -/
def fdtStringEq (fuel : ℕ) (m : ByteMem) (stroffset : ℤ) (s : List (BitVec 8)) : Option Bool :=
  (strlen m fuel (fdtString m stroffset)).map fun n =>
    n == s.length && m.read (fdtString m stroffset) n == s

/-- `_nextprop`. -/
def nextprop (fuel : ℕ) (m : ByteMem) : ℕ → ℤ → Option ℤ
  | 0, _ => none
  | n + 1, offset =>
    match fdtNextTag fuel m offset with
    | none => none
    | some r =>
      if r.1 = fin then some (if 0 ≤ r.2 then errBadstructure else r.2)
      else if r.1 = prop then some offset
      else if r.1 = nop then nextprop fuel m n r.2
      else some errNotfound

/-- `fdt_first_property_offset`. -/
def fdtFirstPropertyOffset (fuel : ℕ) (m : ByteMem) (nodeoffset : ℤ) : Option ℤ :=
  match fdtCheckNodeOffset fuel m nodeoffset with
  | none => none
  | some offset => if offset < 0 then some offset else nextprop fuel m fuel offset

/-- `fdt_next_property_offset`. -/
def fdtNextPropertyOffset (fuel : ℕ) (m : ByteMem) (offset : ℤ) : Option ℤ :=
  match fdtCheckPropOffset fuel m offset with
  | none => none
  | some offset => if offset < 0 then some offset else nextprop fuel m fuel offset

/-- `fdt_get_property_by_offset` : the pointer it returns, unless it is null, and `*lenp`. -/
def fdtGetPropertyByOffset (fuel : ℕ) (m : ByteMem) (offset : ℤ) : Option (Option ℤ × ℤ) :=
  (fdtCheckPropOffset fuel m offset).map fun err =>
    if err < 0 then (none, err)
    else
      let p := fdtOffDtStruct m + offset
      (some p, toInt (m.be32 (p + 4)).toNat)

/-- The loop of `fdt_get_property_namelen`. -/
def getPropertyLoop (fuel : ℕ) (m : ByteMem) (name : List (BitVec 8)) :
    ℕ → ℤ → Option (Option ℤ × ℤ)
  | 0, _ => none
  | n + 1, offset =>
    if 0 ≤ offset then
      match fdtGetPropertyByOffset fuel m offset with
      | none => none
      | some (none, _) => some (none, errInternal)
      | some (some p, len) =>
        match fdtStringEq fuel m (toInt (m.be32 (p + 8)).toNat) name with
        | none => none
        | some true => some (some p, len)
        | some false =>
          match fdtNextPropertyOffset fuel m offset with
          | none => none
          | some offset => getPropertyLoop fuel m name n offset
    else some (none, offset)

/-- `fdt_get_property_namelen`, where `*lenp` is set. -/
def fdtGetPropertyNamelen (fuel : ℕ) (m : ByteMem) (offset : ℤ) (name : List (BitVec 8)) :
    Option (Option ℤ × ℤ) :=
  match fdtFirstPropertyOffset fuel m offset with
  | none => none
  | some offset => getPropertyLoop fuel m name fuel offset

/-- `fdt_getprop_namelen`. -/
def fdtGetpropNamelen (fuel : ℕ) (m : ByteMem) (nodeoffset : ℤ) (name : List (BitVec 8)) :
    Option (Option ℤ × ℤ) :=
  (fdtGetPropertyNamelen fuel m nodeoffset name).map fun r => (r.1.map (· + 12), r.2)

/-- `_fdt_nodename_eq`. -/
def fdtNodenameEq (m : ByteMem) (offset : ℤ) (s : List (BitVec 8)) : Bool :=
  match fdtOffsetPtr m (offset + 4) (s.length + 1) with
  | none => false
  | some p =>
    if m.read p s.length ≠ s then false
    else if m (p + s.length) = 0 then true
    else if s.contains atSign = false ∧ m (p + s.length) = atSign then true
    else false

/-- The loop of `fdt_subnode_offset_namelen`. -/
def subnodeOffsetLoop (fuel : ℕ) (m : ByteMem) (name : List (BitVec 8)) :
    ℕ → ℤ → ℤ → Option ℤ
  | 0, _, _ => none
  | n + 1, offset, depth =>
    if 0 ≤ offset ∧ 0 ≤ depth then
      if depth = 1 ∧ fdtNodenameEq m offset name = true then some offset
      else
        match fdtNextNode fuel m offset (some depth) with
        | some (offset, some depth) => subnodeOffsetLoop fuel m name n offset depth
        | _ => none
    else if depth < 0 then some errNotfound
    else some offset

/-- `fdt_subnode_offset_namelen`. -/
def fdtSubnodeOffsetNamelen (fuel : ℕ) (m : ByteMem) (offset : ℤ) (name : List (BitVec 8)) :
    Option ℤ :=
  if fdtCheckHeader m ≠ 0 then some (fdtCheckHeader m)
  else subnodeOffsetLoop fuel m name fuel offset 0

/-- The loop of `fdt_path_offset` over the rest of the path. -/
def pathLoop (fuel : ℕ) (m : ByteMem) : ℕ → ℤ → List (BitVec 8) → Option ℤ
  | 0, _, _ => none
  | n + 1, offset, p =>
    if p = [] then some offset
    else
      let p := p.dropWhile (· == slash)
      if p = [] then some offset
      else
        match fdtSubnodeOffsetNamelen fuel m offset (p.takeWhile (· != slash)) with
        | none => none
        | some offset =>
          if offset < 0 then some offset else pathLoop fuel m n offset (p.dropWhile (· != slash))

/-- The string at `p`. -/
def stringAt (fuel : ℕ) (m : ByteMem) (p : ℤ) : Option (List (BitVec 8)) :=
  (strlen m fuel p).map fun n => m.read p n

/-- `"/aliases"`. -/
def aliases : List (BitVec 8) := [0x2f, 0x61, 0x6c, 0x69, 0x61, 0x73, 0x65, 0x73]

/-- `fdt_path_offset`, with the call of `fdt_get_alias_namelen` for a path that is not absolute. -/
def fdtPathOffset (fuel : ℕ) (m : ByteMem) : ℕ → List (BitVec 8) → Option ℤ
  | 0, _ => none
  | n + 1, path =>
    if fdtCheckHeader m ≠ 0 then some (fdtCheckHeader m)
    else if path.head? = some slash then pathLoop fuel m fuel 0 path
    else
      match fdtPathOffset fuel m n aliases with
      | none => none
      | some aliasoffset =>
        if aliasoffset < 0 then some errBadpath
        else
          match fdtGetpropNamelen fuel m aliasoffset (path.takeWhile (· != slash)) with
          | none => none
          | some (none, _) => some errBadpath
          | some (some p, _) =>
            match stringAt fuel m p with
            | none => none
            | some path' =>
              match fdtPathOffset fuel m n path' with
              | none => none
              | some offset => pathLoop fuel m fuel offset (path.dropWhile (· != slash))

/-- The loop of `fdt_node_offset_by_prop_value`. -/
def propValueLoop (fuel : ℕ) (m : ByteMem) (propname propval : List (BitVec 8)) :
    ℕ → ℤ → Option ℤ
  | 0, _ => none
  | n + 1, offset =>
    if 0 ≤ offset then
      match fdtGetpropNamelen fuel m offset propname with
      | none => none
      | some (val, len) =>
        if val.any (fun p => len == propval.length && m.read p propval.length == propval) then
          some offset
        else
          match fdtNextNode fuel m offset none with
          | none => none
          | some (offset, _) => propValueLoop fuel m propname propval n offset
    else some offset

/-- `fdt_node_offset_by_prop_value`. -/
def fdtNodeOffsetByPropValue (fuel : ℕ) (m : ByteMem) (startoffset : ℤ)
    (propname propval : List (BitVec 8)) : Option ℤ :=
  if fdtCheckHeader m ≠ 0 then some (fdtCheckHeader m)
  else
    match fdtNextNode fuel m startoffset none with
    | none => none
    | some (offset, _) => propValueLoop fuel m propname propval fuel offset

namespace Blob

variable {m : ByteMem} {b : Blob m} {fuel : ℕ}

/-! ## Strings -/

/-- A string is as long as its bytes up to the first 0. -/
theorem strlen_eq {s : List (BitVec 8)} {p : ℤ} (h : 0 ∉ s) (hholds : m.Holds p (s ++ [0]))
    (hfuel : s.length < fuel) : strlen m fuel p = some s.length := by
  obtain ⟨fuel, rfl⟩ := Nat.exists_eq_add_one_of_ne_zero (Nat.ne_of_gt (Nat.zero_lt_of_lt hfuel))
  induction s generalizing p fuel with
  | nil =>
    have hz : m p = 0 := hholds.1
    simp [strlen, hz]
  | cons x s ih =>
    obtain ⟨hx, hrest⟩ := hholds
    rw [List.mem_cons, not_or] at h
    rw [List.length_cons] at hfuel
    obtain ⟨fuel, rfl⟩ := Nat.exists_eq_add_one_of_ne_zero (show fuel ≠ 0 by omega)
    rw [strlen, if_neg fun hz => h.1 (hz.symm.trans hx), ih h.2 hrest fuel (by omega)]
    rfl

/-- Bytes are different characters. -/
theorem chars_injective : Function.Injective fun b : BitVec 8 => Char.ofNat b.toNat := by
  intro x y h
  have hnat : ∀ b : BitVec 8, (Char.ofNat b.toNat).toNat = b.toNat := fun b => by
    have hlt := b.isLt
    rw [Char.ofNat, dif_pos (Or.inl (by omega))]
    rfl
  have h' := congrArg Char.toNat h
  simp only [hnat] at h'
  exact BitVec.eq_of_toNat_eq h'

theorem chars_inj {s t : List (BitVec 8)} : chars s = chars t ↔ s = t := by
  rw [chars, chars, String.ofList_inj, (List.map_injective_iff.mpr chars_injective).eq_iff]

/-! ## Properties -/

section Property

variable {D : ℕ} {ts : List Token} {o : ℤ} {name : List (BitVec 8)}

/-- A place between tokens inside `D` nodes, from which they go on to the end of the block. -/
structure Place (b : Blob m) (D : ℕ) (o : ℤ) (ts : List Token) : Prop where
  shaped : Shaped D ts
  tokens : StructAt m o ts
  nonneg : 0 ≤ o
  aligned : o % 4 = 0
  inside : o + sizes ts ≤ fdtSizeDtStruct m
  body : ∀ t ∈ ts, t ∈ b.body

theorem NodeAt.place {x : DtNode} {rest : List (ℤ × DtNode)}
    (h : b.NodeAt o x rest name ts) (he : Enough m fuel) :
    fdtCheckNodeOffset fuel m o = some (o + (Token.beginNode name).size) ∧
      b.Place (x.depth + 1) (o + (Token.beginNode name).size) ts := by
  obtain ⟨hcheck, hat, hn, hmod, hsize⟩ := h.step he
  exact ⟨hcheck, h.shaped, hat, hn, hmod, hsize, h.body⟩

theorem Place.length_le (h : b.Place D o ts) (he : Enough m fuel) : ts.length ≤ fuel := by
  have hlen := length_le_sizes ts
  have hin := h.inside
  have hpos := h.nonneg
  have hfuel := he.struct
  omega

/-- A token is stepped over, to a further place. -/
theorem Place.step {t : Token} {D' : ℕ} (h : b.Place D o (t :: ts)) (hs : Shaped D' ts)
    (he : Enough m fuel) :
    fdtNextTag fuel m o = some (t.tag, o + t.size) ∧ b.Place D' (o + t.size) ts := by
  obtain ⟨htag, hat, hn, hmod, hsize⟩ :=
    step_cons h.tokens h.nonneg h.aligned h.inside b.small he.struct
  exact ⟨htag, hs, hat, hn, hmod, hsize, fun t' ht' => h.body t' (List.mem_cons_of_mem _ ht')⟩

/-- `_nextprop` comes to the next property, or to something else. -/
theorem nextprop_eq (h : b.Place (D + 1) o ts) (he : Enough m fuel) {k : ℕ}
    (hk : ts.length ≤ k) :
    (propsFrom b.str o ts = [] ∧ nextprop fuel m k o = some errNotfound) ∨
      ∃ o' nameoff data ts', b.Place (D + 1) o' (.prop nameoff data :: ts') ∧
        ts'.length < ts.length ∧
        propsFrom b.str o ts = (o', ⟨chars (b.str nameoff), data⟩) ::
          propsFrom b.str (o' + (Token.prop nameoff data).size) ts' ∧
        nextprop fuel m k o = some o' := by
  induction k generalizing o ts with
  | zero =>
    obtain rfl := List.length_eq_zero_iff.mp (Nat.le_zero.mp hk)
    exact nomatch h.shaped
  | succ k ih =>
    unfold nextprop
    cases hshape : h.shaped with
    | begin hs =>
      rw [(h.step hs he).1]
      exact Or.inl ⟨rfl, rfl⟩
    | close hs =>
      rw [(h.step hs he).1]
      exact Or.inl ⟨rfl, rfl⟩
    | @prop _ nameoff data ts' hs =>
      rw [(h.step hs he).1]
      exact Or.inr ⟨o, nameoff, data, ts', h, Nat.lt_succ_self _, rfl, rfl⟩
    | @nop _ ts' hs =>
      obtain ⟨htag, hplace⟩ := h.step hs he
      rw [htag]
      rcases ih hplace (by simpa using hk) with
        hcase | ⟨o', nameoff, data, ts'', hp, hlt, hprops, hn⟩
      · exact Or.inl hcase
      · exact Or.inr ⟨o', nameoff, data, ts'', hp, hlt.trans (Nat.lt_succ_self _), hprops, hn⟩

/-- What `fdt_get_property` returns for the properties `ps` : a pointer to the first of the name,
with the length of its value, which stands behind the header, or that there is none. -/
def PropAnswer (m : ByteMem) (name : List (BitVec 8)) (ps : List (ℤ × DtProp))
    (r : Option ℤ × ℤ) : Prop :=
  match ps.find? (fun p => p.2.name == chars name) with
  | some (a, p) => r = (some (fdtOffDtStruct m + a), (p.data.length : ℤ)) ∧
      m.Holds (fdtOffDtStruct m + a + 12) p.data
  | none => r = (none, errNotfound)

/-- At a property, `fdt_get_property_by_offset` and the comparison of its name. -/
theorem Place.prop_eq {nameoff : BitVec 32} {data : List (BitVec 8)}
    (h : b.Place (D + 1) o (.prop nameoff data :: ts)) (he : Enough m fuel)
    (name : List (BitVec 8)) :
    fdtCheckPropOffset fuel m o = some (o + (Token.prop nameoff data).size) ∧
      fdtGetPropertyByOffset fuel m o = some (some (fdtOffDtStruct m + o), (data.length : ℤ)) ∧
      fdtStringEq fuel m (toInt (m.be32 (fdtOffDtStruct m + o + 8)).toNat) name =
        some (chars (b.str nameoff) == chars name) := by
  obtain ⟨htag, hplace⟩ := h.step h.shaped.of_prop he
  obtain ⟨-, hlen, hoff, -⟩ := h.tokens.1
  have hok : ¬ (o < 0 ∨ o % 4 ≠ 0) := by
    have hpos := h.nonneg
    have hmod := h.aligned
    omega
  have hcheck : fdtCheckPropOffset fuel m o = some (o + (Token.prop nameoff data).size) := by
    rw [fdtCheckPropOffset, if_neg hok, htag]
    rfl
  have hdata : data.length < 2 ^ 31 := by
    have hle := (Token.prop nameoff data).bytes_le_size
    have hin := h.inside
    have hpos := h.nonneg
    have hsmall := b.small
    rw [sizes_cons] at hin
    rw [Token.bytes] at hle
    omega
  have hword : (BitVec.ofNat 32 data.length).toNat = data.length := by
    rw [BitVec.toNat_ofNat]
    exact Nat.mod_eq_of_lt (by omega)
  refine ⟨hcheck, ?_, ?_⟩
  · rw [fdtGetPropertyByOffset, hcheck, Option.map_some, if_neg (not_lt.mpr hplace.nonneg)]
    dsimp only
    rw [hlen, hword, toInt_of_lt (by omega) (by omega)]
  · obtain ⟨hname, hlt, hholds⟩ := b.strings nameoff data (h.body _ List.mem_cons_self)
    have hread := ByteMem.holds_iff_read.mp (ByteMem.holds_append.mp hholds).1
    rw [hoff, fdtStringEq, fdtString, strlen_eq hname hholds (hlt.trans_le he.strings),
      Option.map_some, hread]
    congr 1
    rw [Bool.eq_iff_iff, Bool.and_eq_true, beq_iff_eq, beq_iff_eq, beq_iff_eq, chars_inj]
    exact ⟨fun h => h.2, fun h => ⟨congrArg _ h, h⟩⟩

/-- The loop of `fdt_get_property_namelen`. -/
theorem getPropertyLoop_eq (name : List (BitVec 8)) (h : b.Place (D + 1) o ts)
    (he : Enough m fuel) {k k' : ℕ} (hk : ts.length ≤ k) (hk' : ts.length < k') :
    ∃ offset, nextprop fuel m k o = some offset ∧
      ∃ r, getPropertyLoop fuel m name k' offset = some r ∧
        PropAnswer m name (propsFrom b.str o ts) r := by
  induction k' generalizing o ts k with
  | zero => omega
  | succ k' ih =>
    rcases nextprop_eq h he hk with
      ⟨hprops, hnext⟩ | ⟨o', nameoff, data, ts', hp, hlt, hprops, hnext⟩
    · refine ⟨_, hnext, _, if_neg (by decide), ?_⟩
      rw [hprops]
      rfl
    · refine ⟨o', hnext, ?_⟩
      obtain ⟨hcheck, hget, hname⟩ := hp.prop_eq he name
      have hplace := (hp.step hp.shaped.of_prop he).2
      unfold getPropertyLoop PropAnswer
      rw [if_pos hp.nonneg, hget, hprops, List.find?_cons]
      dsimp only
      rw [hname]
      cases hsame : chars (b.str nameoff) == chars name with
      | true => exact ⟨_, rfl, rfl, hp.tokens.1.2.2.2⟩
      | false =>
        obtain ⟨offset, hnext', hrest⟩ := ih hplace (hplace.length_le he) (by omega)
        rw [fdtNextPropertyOffset, hcheck]
        dsimp only
        rw [if_neg (not_lt.mpr hplace.nonneg), hnext']
        exact hrest

end Property

/-- The properties of a node in the abstract tree are those at their offsets. -/
theorem fdtGetProperty_eq {i : ℕ} (hi : i < b.nodes.length) (name : String) :
    b.tree.fdtGetProperty i name =
      match (b.props i).find? (fun p => p.2.name == name) with
      | some p => .ok p.2.data
      | none => .error notFound := by
  obtain ⟨o, x, hget⟩ := exists_node hi
  obtain ⟨nodeName, ts, hnode, hprops⟩ := b.exists_nodeAt_props hget
  have hfind : x.props.find? (fun p => p.name == name) =
      ((b.props i).find? fun p => p.2.name == name).map Prod.snd := by
    rw [hnode.props, hprops, ← map_propsFrom, List.find?_map]
    rfl
  rw [Fdt.fdtGetProperty, getElem?_tree hget]
  dsimp only
  rw [hfind]
  cases (b.props i).find? fun p => p.2.name == name <;> rfl

/-- `fdt_get_property`. -/
theorem fdtGetPropertyNamelen_eq {i : ℕ} (hi : i < b.nodes.length) (he : Enough m fuel)
    (name : List (BitVec 8)) :
    ∃ r, fdtGetPropertyNamelen fuel m (b.offset i) name = some r ∧
      PropAnswer m name (b.props i) r := by
  obtain ⟨o, x, hget⟩ := exists_node hi
  obtain ⟨nodeName, ts, hnode, hprops⟩ := b.exists_nodeAt_props hget
  obtain ⟨hcheck, hplace⟩ := hnode.place he
  have hlt : ts.length < fuel := by
    have hlen := length_le_sizes (.beginNode nodeName :: ts)
    have hin := hnode.inside
    have hpos := hnode.nonneg
    have hfuel := he.struct
    rw [List.length_cons] at hlen
    omega
  obtain ⟨offset, hnext, r, hloop, hr⟩ := getPropertyLoop_eq name hplace he hlt.le hlt
  refine ⟨r, ?_, hprops ▸ hr⟩
  rw [offset_eq hget, fdtGetPropertyNamelen, fdtFirstPropertyOffset, hcheck]
  dsimp only
  rw [if_neg (not_lt.mpr hplace.nonneg), hnext]
  exact hloop

/-- `fdt_getprop` : the address of the value of the first property of the name, behind its header,
wherever it stands among the properties of the node. -/
theorem fdtGetpropNamelen_eq {i : ℕ} (hi : i < b.nodes.length) (he : Enough m fuel)
    (name : List (BitVec 8)) :
    (∀ data, b.tree.fdtGetProperty i (chars name) = .ok data → ∃ a p,
      (b.props i).find? (fun q => q.2.name == chars name) = some (a, p) ∧ p.data = data ∧
      fdtGetpropNamelen fuel m (b.offset i) name =
        some (some (fdtOffDtStruct m + a + 12), (data.length : ℤ)) ∧
      m.Holds (fdtOffDtStruct m + a + 12) data) ∧
      ∀ e, b.tree.fdtGetProperty i (chars name) = .error e →
        fdtGetpropNamelen fuel m (b.offset i) name = some (none, errNotfound) := by
  obtain ⟨r, hr, hprop⟩ := fdtGetPropertyNamelen_eq hi he name
  unfold PropAnswer at hprop
  rw [fdtGetpropNamelen, hr, fdtGetProperty_eq hi]
  cases hfind : (b.props i).find? fun p => p.2.name == chars name with
  | none =>
    rw [hfind] at hprop
    obtain rfl := hprop
    exact ⟨fun _ hdata => (nomatch hdata), fun _ _ => rfl⟩
  | some q =>
    obtain ⟨a, p⟩ := q
    rw [hfind] at hprop
    obtain ⟨rfl, hholds⟩ := hprop
    refine ⟨fun data hdata => ?_, fun e herror => nomatch herror⟩
    obtain rfl := Except.ok.inj hdata
    exact ⟨a, p, rfl, rfl, rfl, hholds⟩

/-- The property of the root of a blob. -/
theorem fdtGetpropNamelen_sample :
    (∀ data, sampleBlob.tree.fdtGetProperty 0 (chars [0x61]) = .ok data → ∃ a p,
      (sampleBlob.props 0).find? (fun q => q.2.name == chars [0x61]) = some (a, p) ∧
      p.data = data ∧
      fdtGetpropNamelen 64 sample (sampleBlob.offset 0) [0x61] =
        some (some (fdtOffDtStruct sample + a + 12), (data.length : ℤ)) ∧
      sample.Holds (fdtOffDtStruct sample + a + 12) data) ∧
      ∀ e, sampleBlob.tree.fdtGetProperty 0 (chars [0x61]) = .error e →
        fdtGetpropNamelen 64 sample (sampleBlob.offset 0) [0x61] = some (none, errNotfound) :=
  fdtGetpropNamelen_eq (by decide) ⟨by decide, by decide⟩ [0x61]

/-! ## Names -/

/-- A block without a 0 stands in front of a string if it is a first part of it. -/
theorem holds_iff_isPrefix {nm u : List (BitVec 8)} {p : ℤ} (hnm : m.Holds p (nm ++ [0]))
    (hu : 0 ∉ u) : m.Holds p u ↔ u <+: nm := by
  induction u generalizing nm p with
  | nil => simp [ByteMem.Holds]
  | cons y u ih =>
    rw [List.mem_cons, not_or] at hu
    cases nm with
    | nil =>
      have hz : m p = 0 := hnm.1
      refine iff_of_false (fun h => hu.1 (hz.symm.trans h.1)) (by simp)
    | cons x nm =>
      obtain ⟨hx, hrest⟩ := hnm
      rw [List.cons_prefix_cons, ← ih hrest hu.2]
      refine and_congr ?_ Iff.rfl
      rw [hx]
      exact eq_comm

/-- Two strings at one place are the same. -/
theorem holds_iff_eq {nm s : List (BitVec 8)} {p : ℤ} (hnm : m.Holds p (nm ++ [0])) (h : 0 ∉ nm)
    (hs : 0 ∉ s) : m.Holds p (s ++ [0]) ↔ s = nm := by
  refine ⟨fun hholds => ?_, fun he => he ▸ hnm⟩
  have h₁ : s <+: nm := (holds_iff_isPrefix hnm hs).mp (ByteMem.holds_append.mp hholds).1
  have h₂ : nm <+: s := (holds_iff_isPrefix hholds h).mp (ByteMem.holds_append.mp hnm).1
  exact h₁.eq_of_length (le_antisymm h₁.length_le h₂.length_le)

theorem holds_concat {s : List (BitVec 8)} {p : ℤ} {c : BitVec 8} :
    m.Holds p (s ++ [c]) ↔ m.read p s.length = s ∧ m (p + s.length) = c := by
  rw [ByteMem.holds_append, ByteMem.holds_iff_read]
  simp [ByteMem.Holds]

/-- The comparison of names in the abstract tree, on the bytes. -/
theorem nodenameEq_iff {t : Fdt} {i : ℕ} {x : DtNode} {nm s : List (BitVec 8)}
    (hget : t.nodes[i]? = some x) (hx : x.name = chars nm) :
    t.nodenameEq i (chars s) = true ↔ s = nm ∨ atSign ∉ s ∧ s ++ [atSign] <+: nm := by
  have hat : Char.ofNat atSign.toNat = '@' := rfl
  have hmap : (chars s).toList ++ ['@'] = (s ++ [atSign]).map fun b => Char.ofNat b.toNat := by
    rw [List.map_append, List.map_singleton, hat, chars, String.toList_ofList]
  have hmem : '@' ∈ (chars s).toList ↔ atSign ∈ s := by
    rw [chars, String.toList_ofList, ← hat]
    exact List.mem_map_of_injective chars_injective
  have hpre : ((chars s).toList ++ ['@']).isPrefixOf (chars nm).toList = true ↔
      s ++ [atSign] <+: nm := by
    rw [hmap, List.isPrefixOf_iff_prefix, chars, String.toList_ofList]
    exact List.prefix_map_iff_of_injective chars_injective
  unfold Fdt.nodenameEq
  rw [hget]
  dsimp only
  rw [hx, Bool.or_eq_true, Bool.and_eq_true, hpre, beq_iff_eq, chars_inj, eq_comm (a := nm)]
  simp [hmem]

/-- `_fdt_nodename_eq`. -/
theorem fdtNodenameEq_eq {i : ℕ} (hi : i < b.nodes.length) {s : List (BitVec 8)} (hs : 0 ∉ s) :
    fdtNodenameEq m (b.offset i) s = b.tree.nodenameEq i (chars s) := by
  obtain ⟨o, x, hget⟩ := exists_node hi
  obtain ⟨nm, ts, hnode⟩ := b.exists_nodeAt hget
  obtain ⟨hnm, hholds⟩ := hnode.tokens.1.2
  have hin := hnode.inside
  have hbytes := (Token.beginNode nm).bytes_le_size
  have hpos := hnode.nonneg
  have hsmall := b.small
  rw [sizes_cons] at hin
  rw [Token.bytes] at hbytes
  rw [offset_eq hget, Bool.eq_iff_iff, nodenameEq_iff (getElem?_tree hget) hnode.name_eq]
  unfold fdtNodenameEq
  split
  · rename_i hptr
    -- The name would end behind the block, so it is longer than that of the node.
    have hlong : nm.length < s.length := by
      by_contra hle
      rw [fdtOffsetPtr_inside (by omega) (by omega) (by omega)] at hptr
      exact absurd hptr (by simp)
    refine iff_of_false (by simp) ?_
    rintro (rfl | ⟨-, hpre⟩)
    · exact absurd hlong (lt_irrefl _)
    · have := hpre.length_le
      simp only [List.length_append, List.length_cons, List.length_nil] at this
      omega
  · rename_i p hptr
    have hp : p = fdtOffDtStruct m + o + 4 := by
      rw [fdtOffsetPtr] at hptr
      split at hptr
      · exact absurd hptr (by simp)
      · have := Option.some.inj hptr
        omega
    rw [hp]
    have hat : (0 : BitVec 8) ∉ s ++ [atSign] := by
      rw [List.mem_append, not_or]
      exact ⟨hs, by decide⟩
    have hmem : s.contains atSign = false ↔ atSign ∉ s := by simp
    rw [← holds_iff_eq hholds hnm hs, ← holds_iff_isPrefix hholds hat, holds_concat, holds_concat,
      ← hmem]
    split_ifs with h₁ h₂ h₃
    · exact iff_of_false (by simp) fun h => h.elim (fun h => h₁ h.1) fun h => h₁ h.2.1
    · exact iff_of_true rfl (Or.inl ⟨not_not.mp h₁, h₂⟩)
    · exact iff_of_true rfl (Or.inr ⟨h₃.1, not_not.mp h₁, h₃.2⟩)
    · exact iff_of_false (by simp) fun h => h.elim (fun h => h₂ h.2) fun h => h₃ ⟨h.1, h.2.2⟩

/-! ## Subnodes by name -/

section Subnode

variable {i j k : ℕ} {name : List (BitVec 8)}

/-- A node between `i` and the place where the levels come up to that of `i` again is a child of
`i` if it is one level down. -/
theorem parentIn_iff (hij : i < j)
    (hbelow : ∀ k, i < k → k ≤ j → depthAt b.tree.nodes i < depthAt b.tree.nodes k) :
    parentIn (depthAt b.tree.nodes) j = some i ↔
      depthAt b.tree.nodes j = depthAt b.tree.nodes i + 1 := by
  rw [parentIn_eq_some_iff]
  refine ⟨fun h => h.2.1.symm, fun h => ⟨hij, h.symm, fun k h₁ h₂ => ?_⟩⟩
  have := hbelow k h₁ h₂.le
  omega

/-- The subnodes of `i` with the name. -/
def isNamed (b : Blob m) (i : ℕ) (name : List (BitVec 8)) (j : ℕ) : Bool :=
  parentIn (depthAt b.tree.nodes) j == some i && b.tree.nodenameEq j (chars name)

/-- The loop of `fdt_subnode_offset_namelen`, below the node that it has started at. -/
theorem subnodeOffsetLoop_eq (he : Enough m fuel) (hname : 0 ∉ name) (hij : i ≤ j)
    (hj : j < b.nodes.length)
    (hbelow : ∀ k, i < k → k ≤ j → depthAt b.tree.nodes i < depthAt b.tree.nodes k)
    (hmiss : ∀ k, k < j → b.isNamed i name k = false) (hk : b.nodes.length - j ≤ k) :
    subnodeOffsetLoop fuel m name (k + 1) (b.offset j)
        (depthAt b.tree.nodes j - depthAt b.tree.nodes i) =
      some (b.answer (firstIn (b.isNamed i name) 0 b.nodes.length)) := by
  induction k generalizing j with
  | zero => omega
  | succ k ih =>
    have hle : depthAt b.tree.nodes i ≤ depthAt b.tree.nodes j := depth_le_of_below hij hbelow
    have hdepth : (0 : ℤ) ≤ depthAt b.tree.nodes j - depthAt b.tree.nodes i := by omega
    have hhit : ((depthAt b.tree.nodes j : ℤ) - depthAt b.tree.nodes i = 1 ∧
        fdtNodenameEq m (b.offset j) name = true) ↔ b.isNamed i name j = true := by
      rw [fdtNodenameEq_eq hj hname, isNamed, Bool.and_eq_true, beq_iff_eq]
      refine and_congr_left fun _ => ?_
      rcases hij.eq_or_lt with rfl | hlt
      · rw [parentIn_eq_some_iff]
        exact iff_of_false (by omega) fun h => absurd h.1 (lt_irrefl _)
      · rw [parentIn_iff hlt hbelow]
        omega
    unfold subnodeOffsetLoop
    rw [if_pos ⟨offset_nonneg hj, hdepth⟩]
    by_cases hnamed : b.isNamed i name j = true
    · rw [if_pos (hhit.mpr hnamed), firstIn_eq_some_iff.mpr
        ⟨Nat.zero_le _, hj, hnamed, fun k _ h => hmiss k h⟩]
      rfl
    · rw [if_neg fun h => hnamed (hhit.mp h)]
      have hmiss' : ∀ k, k < j + 1 → b.isNamed i name k = false := by
        intro k h
        rcases (Nat.lt_succ_iff.mp h).eq_or_lt with rfl | h
        · exact Bool.eq_false_iff.mpr hnamed
        · exact hmiss k h
      by_cases hnext : j + 1 < b.nodes.length ∧
          depthAt b.tree.nodes i < depthAt b.tree.nodes (j + 1)
      · have hgo := ih (show i ≤ j + 1 by omega) hnext.1 (below_succ hbelow hnext.2) hmiss'
          (by omega)
        rw [next_found hj he hdepth hnext.1 (by omega), ← hgo]
        dsimp only
        rw [show (depthAt b.tree.nodes j : ℤ) - depthAt b.tree.nodes i +
          depthAt b.tree.nodes (j + 1) - depthAt b.tree.nodes j =
            depthAt b.tree.nodes (j + 1) - depthAt b.tree.nodes i by ring]
      · have hlast : ∀ h : j + 1 < b.nodes.length,
            depthAt b.tree.nodes (j + 1) ≤ depthAt b.tree.nodes i :=
          fun h => not_lt.mp fun h' => hnext ⟨h, h'⟩
        obtain ⟨o, -, hout⟩ := next_out hj he hdepth (fun h => by have := hlast h; omega)
          fun _ => by omega
        -- Behind `j`, no subnode of `i` follows.
        have hnone : firstIn (b.isNamed i name) 0 b.nodes.length = none := by
          refine firstIn_eq_none_iff.mpr fun k _ hk => ?_
          rcases lt_or_ge k (j + 1) with h | h
          · exact hmiss' k h
          · have hdesc := b.tree.descends
            rw [length_tree] at hdesc
            rw [isNamed, beq_false_of_ne, Bool.false_and]
            exact parentIn_ne_of_depth_le hdesc (show i < j + 1 by omega) (hlast (by omega)) h hk
        rw [hout, hnone]
        unfold subnodeOffsetLoop
        dsimp only
        rw [if_neg fun h => absurd h.2 (by decide), if_pos (by decide)]
        rfl

/-- `fdt_subnode_offset_namelen`. -/
theorem fdtSubnodeOffsetNamelen_eq (hi : i < b.nodes.length) (he : Enough m fuel)
    (hname : 0 ∉ name) :
    fdtSubnodeOffsetNamelen fuel m (b.offset i) name =
      some (b.result (b.tree.fdtSubnodeOffset i (chars name))) := by
  have hfind : (b.tree.children i).find? (fun k => b.tree.nodenameEq k (chars name)) =
      firstIn (b.isNamed i name) 0 b.nodes.length := by
    rw [Fdt.children, List.find?_filter, length_tree, List.range_eq_range', firstIn]
    congr 1
    funext k
    rw [Bool.eq_iff_iff]
    simp [isNamed]
  have hfuel := length_lt_fuel (b := b) he
  have hmiss : ∀ k, k < i → b.isNamed i name k = false := by
    intro k hk
    rw [isNamed, beq_false_of_ne, Bool.false_and]
    intro hpar
    have := (parentIn_eq_some_iff.mp hpar).1
    omega
  have hloop := subnodeOffsetLoop_eq (k := fuel - 1) he hname le_rfl hi
    (fun k h₁ h₂ => absurd h₁ (not_lt.mpr h₂)) hmiss (by omega)
  rw [sub_self, Nat.sub_add_cancel (by omega)] at hloop
  rw [fdtSubnodeOffsetNamelen, if_neg (not_not.mpr b.fdtCheckHeader_eq), hloop,
    Fdt.fdtSubnodeOffset, hfind]
  cases firstIn (b.isNamed i name) 0 b.nodes.length <;> rfl

end Subnode

/-! ## Paths -/

/-- The components of a path : its parts between slashes that are not empty. -/
def components (path : List (BitVec 8)) : List (List (BitVec 8)) :=
  (path.splitOn slash).filter (· ≠ [])

theorem components_slash (path : List (BitVec 8)) :
    components (slash :: path) = components path := by
  have hsplit : (slash :: path).splitOn slash = [] :: path.splitOn slash := by
    simpa using List.splitOn_append_cons_self (a := slash) [] path
  rw [components, hsplit]
  rfl

theorem components_dropWhile (path : List (BitVec 8)) :
    components (path.dropWhile (· == slash)) = components path := by
  induction path with
  | nil => rfl
  | cons x path ih =>
    by_cases hx : x = slash
    · rw [List.dropWhile_cons_of_pos (by simpa using hx), ih, hx, components_slash]
    · rw [List.dropWhile_cons_of_neg (by simpa using hx)]

/-- The first component of a path that does not begin with a slash. -/
theorem components_cons {x : BitVec 8} {path : List (BitVec 8)} (hx : x ≠ slash) :
    components (x :: path) = (x :: path).takeWhile (· != slash) ::
      components ((x :: path).dropWhile (· != slash)) := by
  generalize hpath : x :: path = p
  have hfirst : p.takeWhile (· != slash) ≠ [] := by
    rw [← hpath, List.takeWhile_cons_of_pos (by simpa using hx)]
    simp
  have hsplit := List.takeWhile_append_dropWhile (p := (· != slash)) (l := p)
  have hnot : slash ∉ p.takeWhile (· != slash) := fun h => by
    simpa using List.all_eq_true.mp (List.all_takeWhile (p := (· != slash)) (l := p)) slash h
  have hone : ([p.takeWhile (· != slash)]).filter (· ≠ []) = [p.takeWhile (· != slash)] :=
    List.filter_eq_self.mpr (by simpa using hfirst)
  rcases hrest : p.dropWhile (· != slash) with _ | ⟨y, rest⟩
  · rw [hrest, List.append_nil] at hsplit
    rw [hsplit] at hnot hone
    rw [hsplit, components, List.splitOn_eq_singleton hnot, hone]
    rfl
  · have hy : y = slash := by
      have hhead := List.head_dropWhile_not (· != slash) (l := p) (by simp [hrest])
      simpa [hrest] using hhead
    subst hy
    rw [hrest] at hsplit
    conv_lhs => rw [← hsplit]
    rw [components_slash, components, List.splitOn_append_cons_self,
      List.splitOn_eq_singleton hnot, List.filter_append, hone]
    rfl

theorem fdtSubnodeOffset_cases (i : ℕ) (name : String) :
    (∃ j, j < b.nodes.length ∧ b.tree.fdtSubnodeOffset i name = .ok j) ∨
      b.tree.fdtSubnodeOffset i name = .error notFound := by
  unfold Fdt.fdtSubnodeOffset
  split
  · exact Or.inr rfl
  · rename_i k hk
    have hmem := List.mem_of_find?_eq_some hk
    rw [Fdt.children, List.mem_filter, List.mem_range, length_tree] at hmem
    exact Or.inl ⟨k, hmem.1, rfl⟩

/-- The loop of `fdt_path_offset`. -/
theorem pathLoop_eq (he : Enough m fuel) {i k : ℕ} (hi : i < b.nodes.length)
    {path : List (BitVec 8)} (hpath : 0 ∉ path) (hk : path.length < k) :
    pathLoop fuel m k (b.offset i) path = some (b.result
      ((components path).foldlM (fun node name => b.tree.fdtSubnodeOffset node (chars name))
        i)) := by
  induction k generalizing i path with
  | zero => omega
  | succ k ih =>
    rw [pathLoop, ← components_dropWhile]
    split_ifs with hnil
    · rw [hnil]
      rfl
    dsimp only
    cases hp : path.dropWhile (· == slash) with
    | nil => rfl
    | cons x rest =>
      have hx : x ≠ slash := by
        have hhead := List.head_dropWhile_not (· == slash) (l := path) (by simp [hp])
        simpa [hp] using hhead
      have hsub : ∀ {y}, y ∈ x :: rest → y ∈ path := fun h =>
        (List.dropWhile_sublist _).subset (hp ▸ h)
      have hlen : rest.length < path.length := by
        have := (List.dropWhile_sublist (· == slash) (l := path)).length_le
        rw [hp] at this
        exact this
      rw [if_neg (List.cons_ne_nil _ _), components_cons hx, List.foldlM_cons,
        fdtSubnodeOffsetNamelen_eq hi he fun h =>
          hpath (hsub ((List.takeWhile_sublist _).subset h))]
      rcases fdtSubnodeOffset_cases (b := b) i (chars ((x :: rest).takeWhile (· != slash))) with
        ⟨j, hj, hok⟩ | herror
      · rw [hok]
        have hdrop : (x :: rest).dropWhile (· != slash) = rest.dropWhile (· != slash) :=
          List.dropWhile_cons_of_pos (by simpa using hx)
        have hshort := (List.dropWhile_sublist (· != slash) (l := rest)).length_le
        have hgo : pathLoop fuel m k (b.offset j) (rest.dropWhile (· != slash)) = _ := ih hj
          (fun h => hpath (hsub (List.mem_cons_of_mem _ ((List.dropWhile_sublist _).subset h))))
          (by omega)
        have hpos := offset_nonneg hj
        rw [hdrop]
        dsimp only [result]
        rw [if_neg (by omega)]
        exact hgo
      · rw [herror]
        rfl

/-- `fdt_path_offset` of an absolute path. -/
theorem fdtPathOffset_eq (he : Enough m fuel) {n : ℕ} {path : List (BitVec 8)} (hpath : 0 ∉ path)
    (habs : path.head? = some slash) (hfuel : path.length < fuel) :
    Libfdt.fdtPathOffset fuel m (n + 1) path =
      some (b.result (b.tree.fdtPathOffset ((components path).map chars))) := by
  rw [Libfdt.fdtPathOffset, if_neg (not_not.mpr b.fdtCheckHeader_eq), if_pos habs, ← offset_root,
    pathLoop_eq he nodes_pos hpath hfuel, Fdt.fdtPathOffset, List.foldlM_map]

/-- The path of the subnode of a blob. -/
theorem fdtPathOffset_sample : Libfdt.fdtPathOffset 64 sample 1 [0x2f, 0x62] =
    some (sampleBlob.result (sampleBlob.tree.fdtPathOffset
      ((components [0x2f, 0x62]).map chars))) :=
  fdtPathOffset_eq ⟨by decide, by decide⟩ (by decide) rfl (by decide)

/-! ## Nodes by the value of a property -/

/-- The comparison of a property's value. -/
theorem value_eq {i : ℕ} {name : List (BitVec 8)} {r : Option ℤ × ℤ} (value : List (BitVec 8))
    (hi : i < b.nodes.length) (hr : PropAnswer m name (b.props i) r) :
    (r.1.map (· + 12)).any (fun p => r.2 == value.length && m.read p value.length == value) =
      b.tree.hasProp (chars name) value i := by
  unfold Fdt.hasProp
  unfold PropAnswer at hr
  rw [fdtGetProperty_eq hi]
  cases hfind : (b.props i).find? fun p => p.2.name == chars name with
  | none =>
    rw [hfind] at hr
    obtain rfl := hr
    rfl
  | some q =>
    rw [hfind] at hr
    obtain ⟨rfl, hholds⟩ := hr
    rw [ByteMem.holds_iff_read] at hholds
    rw [Bool.eq_iff_iff]
    simp only [Option.map_some, Option.any_some, Bool.and_eq_true, beq_iff_eq, Nat.cast_inj]
    refine ⟨fun ⟨h, h'⟩ => ?_, fun h => ?_⟩
    · rw [← h, hholds] at h'
      exact h'
    · rw [← h]
      exact ⟨rfl, hholds⟩

theorem firstIn_of_neg {p : ℕ → Bool} {lo hi : ℕ} (hlo : lo < hi) (h : p lo = false) :
    firstIn p lo hi = firstIn p (lo + 1) hi := by
  rw [firstIn, firstIn, show hi - lo = (hi - (lo + 1)) + 1 by omega, List.range'_succ,
    List.find?_cons_of_neg (by simp [h])]

/-- The loop of `fdt_node_offset_by_prop_value`. -/
theorem propValueLoop_eq (he : Enough m fuel) (name value : List (BitVec 8)) {i k : ℕ}
    (hk : b.nodes.length - i ≤ k) (hi : i ≤ b.nodes.length) :
    propValueLoop fuel m name value (k + 1)
        (if i < b.nodes.length then b.offset i else errNotfound) =
      some (b.answer (firstIn (b.tree.hasProp (chars name) value) i b.nodes.length)) := by
  induction k generalizing i with
  | zero =>
    obtain rfl : i = b.nodes.length := by omega
    rw [if_neg (lt_irrefl _), firstIn_eq_none_iff.mpr fun j h₁ h₂ => absurd h₁ (not_le.mpr h₂)]
    rfl
  | succ k ih =>
    by_cases hlt : i < b.nodes.length
    · obtain ⟨r, hr, hprop⟩ := fdtGetPropertyNamelen_eq hlt he name
      have hval := value_eq value hlt hprop
      rw [if_pos hlt]
      unfold propValueLoop
      rw [if_pos (offset_nonneg hlt), fdtGetpropNamelen, hr, Option.map_some]
      dsimp only
      rw [hval]
      by_cases hhas : b.tree.hasProp (chars name) value i = true
      · rw [if_pos hhas, firstIn_eq_some_iff.mpr ⟨le_rfl, hlt, hhas, fun j h₁ h₂ =>
          absurd h₁ (not_le.mpr h₂)⟩]
        rfl
      · rw [if_neg hhas, next_none hlt he, firstIn_of_neg hlt (Bool.eq_false_iff.mpr hhas)]
        exact ih (by omega) hlt
    · obtain rfl : i = b.nodes.length := by omega
      rw [if_neg hlt, firstIn_eq_none_iff.mpr fun j h₁ h₂ => absurd h₁ (not_le.mpr h₂)]
      rfl

/-- `fdt_node_offset_by_prop_value`, from the beginning or from behind a node on. -/
theorem fdtNodeOffsetByPropValue_eq (he : Enough m fuel) (name value : List (BitVec 8)) :
    Libfdt.fdtNodeOffsetByPropValue fuel m (-1) name value =
        some (b.answer (b.tree.fdtNodeOffsetByPropValue (-1) (chars name) value)) ∧
      ∀ i, i < b.nodes.length →
        Libfdt.fdtNodeOffsetByPropValue fuel m (b.offset i) name value =
          some (b.answer (b.tree.fdtNodeOffsetByPropValue i (chars name) value)) := by
  have hfuel := length_lt_fuel (b := b) he
  have hloop : ∀ i, i ≤ b.nodes.length →
      propValueLoop fuel m name value fuel
          (if i < b.nodes.length then b.offset i else errNotfound) =
        some (b.answer (firstIn (b.tree.hasProp (chars name) value) i b.nodes.length)) := by
    intro i hi
    have hgo := propValueLoop_eq (k := fuel - 1) he name value
      (show b.nodes.length - i ≤ fuel - 1 by omega) hi
    rwa [Nat.sub_add_cancel (by omega)] at hgo
  unfold Libfdt.fdtNodeOffsetByPropValue Fdt.fdtNodeOffsetByPropValue
  rw [if_neg (not_not.mpr b.fdtCheckHeader_eq), next_first he, length_tree]
  refine ⟨?_, fun i hi => ?_⟩
  · have hroot := hloop 0 (Nat.zero_le _)
    rwa [if_pos nodes_pos] at hroot
  · rw [if_neg (not_not.mpr b.fdtCheckHeader_eq), next_none hi he]
    exact hloop (i + 1) hi

/-- The root of a blob, which has a property of the value. -/
theorem fdtNodeOffsetByPropValue_sample :
    Libfdt.fdtNodeOffsetByPropValue 64 sample (-1) [0x61] [1] =
        some (sampleBlob.answer
          (sampleBlob.tree.fdtNodeOffsetByPropValue (-1) (chars [0x61]) [1])) ∧
      ∀ i, i < sampleBlob.nodes.length →
        Libfdt.fdtNodeOffsetByPropValue 64 sample (sampleBlob.offset i) [0x61] [1] =
          some (sampleBlob.answer
            (sampleBlob.tree.fdtNodeOffsetByPropValue i (chars [0x61]) [1])) :=
  fdtNodeOffsetByPropValue_eq ⟨by decide, by decide⟩ [0x61] [1]

end Blob

end Libfdt

end AcrnUt
