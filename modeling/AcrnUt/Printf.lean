import AcrnUt.Digits
import AcrnUt.SetupEnv

/-!
# Formatted output

`vsnprintf` of `lib/printf.c`, on a build with longs of `w` bits. The format is read through
positions, and a byte past its NUL is a fault, as is a store outside the caller's memory. The stream
remembers the characters that were given to `addchar`, which its buffer may have no room for.

No function looks at the stream : each emits a text of its own, so a call stores as much of one text
as the buffer takes (`vsnprintf_eq`), and for a matching argument list without the smallest number
there is such a text (`vsnprintf_bounded`).
-/

set_option linter.unusedSectionVars false

namespace AcrnUt

/-! ## The stream -/

/-- How a call ends without a result : a read or a store outside an object, a `va_arg` of another
type than the argument's or past the last one, or no fuel. -/
inductive Stuck
  | fault
  | args
  | fuel
deriving DecidableEq

/-- `pstream_t`. `mem` is the memory from the caller's buffer on, `buffer` an offset in it, and
`text` all characters so far. -/
@[ext] structure PStream where
  mem : List (BitVec 8)
  buffer : ℕ
  remain : BitVec 32
  added : BitVec 32
  text : List (BitVec 8)

/-- `*buffer = c`. -/
def PStream.store (p : PStream) (c : BitVec 8) : Except Stuck PStream :=
  if p.buffer < p.mem.length then .ok { p with mem := p.mem.set p.buffer c } else .error .fault

/-- `addchar`. -/
def addchar (p : PStream) (c : BitVec 8) : Except Stuck PStream := do
  let p ←
    if p.remain ≠ 0 then do
      let p ← p.store c
      .ok { p with buffer := p.buffer + 1, remain := p.remain - 1 }
    else .ok p
  .ok { p with added := p.added + 1, text := p.text ++ [c] }

/-- The loops that pad, of `n` turns. -/
def padLoop (c : BitVec 8) : ℕ → PStream → Except Stuck PStream
  | 0, p => .ok p
  | n + 1, p => do
    let p ← addchar p c
    padLoop c n p

/-- `print_str`. -/
def printStr (p : PStream) (s : List (BitVec 8)) (props : StrProps) : Except Stuck PStream := do
  let npad := props.npad
  let (p, npad) ←
    if 0 < npad.toInt then do
      let npad := npad - BitVec.ofNat 32 s.length
      let p ← padLoop props.pad npad.toInt.toNat p
      .ok (p, if 0 < npad.toInt then 0 else npad)
    else .ok (p, npad)
  let p ← s.foldlM addchar p
  if npad.toInt < 0 then
    let npad := npad + BitVec.ofNat 32 s.length
    padLoop 0x20 (-npad.toInt).toNat p
  else .ok p

/-- A local buffer that may have been overrun. -/
def localBuf : Option (List (BitVec 8)) → Except Stuck (List (BitVec 8))
  | some buf => .ok buf
  | none => .error .fault

/-- `print_int`. -/
def printInt (w : ℕ) (ps : PStream) (n : BitVec 64) (base : ℕ) (props : StrProps) :
    Except Stuck PStream := do
  let buf ← localBuf (printIntBuf w n base)
  printStr ps buf props

/-- `print_unsigned`. The prefix of a number padded with zeros is not in the buffer. -/
def printUnsigned (w : ℕ) (ps : PStream) (n : BitVec 64) (base : ℕ) (props : StrProps) :
    Except Stuck PStream := do
  let buf ← localBuf (printUnsignedBuf w n base props)
  if n ≠ 0 ∧ props.alternate ∧ base = 16 ∧ props.pad = 0x30 then
    let ps ← addchar ps 0x30
    let ps ← addchar ps 0x78
    let npad :=
      if 0 < props.npad.toInt then
        if 0 < (props.npad - 2).toInt then props.npad - 2 else 0
      else props.npad
    printStr ps buf { props with npad := npad }
  else printStr ps buf props

/-! ## The arguments -/

/-- An argument, with longs of `w` bits. A `long` is an `int` or a `long long`, by its width. -/
inductive VaArg (w : ℕ)
  | int (unsigned : Bool) (n : BitVec 32)
  | longLong (unsigned : Bool) (n : BitVec 64)
  | ptr (p : BitVec w)
  | str (p : BitVec w) (s : CString)

/-- `va_arg` of an integer type with `nlong` times `long`, converted to 64 bits. An unsigned
argument is not read as a signed one that cannot be so large. -/
def vaInt {w : ℕ} (nlong : BitVec 32) (signed : Bool) :
    List (VaArg w) → Except Stuck (BitVec 64 × List (VaArg w))
  | .int unsigned n :: va =>
    if (nlong = 0 ∨ nlong = 1 ∧ w = 32) ∧ ¬(signed ∧ unsigned ∧ n.toInt < 0) then
      .ok (if signed then n.signExtend 64 else n.setWidth 64, va)
    else .error .args
  | .longLong unsigned n :: va =>
    if (nlong ≠ 0 ∧ (nlong = 1 → w = 64)) ∧ ¬(signed ∧ unsigned ∧ n.toInt < 0) then .ok (n, va)
    else .error .args
  | _ => .error .args

/-- `va_arg(va, void *)`. -/
def vaPtr {w : ℕ} : List (VaArg w) → Except Stuck (BitVec w × List (VaArg w))
  | .ptr p :: va => .ok (p, va)
  | .str p _ :: va => .ok (p, va)
  | _ => .error .args

/-- `va_arg(va, const char *)`. -/
def vaStr {w : ℕ} : List (VaArg w) → Except Stuck (CString × List (VaArg w))
  | .str _ s :: va => .ok (s, va)
  | _ => .error .args

/-! ## The format -/

/-- The byte of the format at `pos`. -/
def CString.at (fmt : CString) (pos : ℕ) : Except Stuck (BitVec 8) :=
  if pos ≤ fmt.bytes.length then .ok (deref (fmt.bytes.drop pos)) else .error .fault

/-- `'0'` to `'9'`. -/
def isDigit (c : BitVec 8) : Bool :=
  0x30 ≤ c ∧ c ≤ 0x39

/-- `acc = acc * 10 + c`, for the digit `c`. -/
def atol.step {w : ℕ} (acc : BitVec w) (c : BitVec 8) : BitVec w :=
  acc * 10 + (c.setWidth w - 0x30#w)

/-- `atol`, of the string `s`. -/
def atol (w : ℕ) (s : List (BitVec 8)) : BitVec w :=
  let s := s.dropWhile isblank
  let neg : Bool := deref s = 0x2d
  let s := if neg ∨ deref s = 0x2b then s.tail else s
  let acc := (s.takeWhile isDigit).foldl atol.step 0
  if neg then -acc else acc

/-- `fmtnum`. The result is the number and where the format goes on. -/
def fmtnum (w : ℕ) (fmt : CString) (pos : ℕ) : Except Stuck (BitVec 32 × ℕ) :=
  if pos ≤ fmt.bytes.length then
    let f := fmt.bytes.drop pos
    let len := if deref f = 0x2d then 1 else 0
    let len := len + ((f.drop len).takeWhile isDigit).length
    .ok ((atol w f).setWidth 32, pos + len)
  else .error .fault

/-- What has been read of a directive. -/
structure Directive where
  nlong : BitVec 32
  props : StrProps

/-- The cases of the switch that go back to `morefmt`. The result is the character that ends the
directive, what was read before it, and where the format goes on. -/
def morefmt (w : ℕ) (fmt : CString) : ℕ → ℕ → Directive → Except Stuck (BitVec 8 × Directive × ℕ)
  | 0, _, _ => .error .fuel
  | fuel + 1, pos, d => do
    let f ← fmt.at pos
    let pos := pos + 1
    if f = 0x23 then morefmt w fmt fuel pos { d with props := { d.props with alternate := true } }
    else if f = 0x30 then do
      let (npad, pos) ← fmtnum w fmt (pos + 1 - 1)
      morefmt w fmt fuel pos { d with props := { d.props with pad := 0x30, npad := npad } }
    else if isDigit f ∨ f = 0x2d then do
      let (npad, pos) ← fmtnum w fmt (pos - 1)
      morefmt w fmt fuel pos { d with props := { d.props with npad := npad } }
    else if f = 0x6c then morefmt w fmt fuel pos { d with nlong := d.nlong + 1 }
    else if f = 0x74 ∨ f = 0x7a then morefmt w fmt fuel pos { d with nlong := 1 }
    else .ok (f, d, pos)

/-- The other cases of the switch. -/
def convert (w : ℕ) (f : BitVec 8) (d : Directive) (va : List (VaArg w)) (s : PStream) :
    Except Stuck (List (VaArg w) × PStream) :=
  if f = 0x25 then do
    let s ← addchar s 0x25
    .ok (va, s)
  else if f = 0x63 then do
    let (n, va) ← vaInt 0 true va
    let s ← addchar s (n.setWidth 8)
    .ok (va, s)
  else if f = 0 then .ok (va, s)
  else if f = 0x64 then do
    let (n, va) ← vaInt d.nlong true va
    let s ← printInt w s n 10 d.props
    .ok (va, s)
  else if f = 0x75 ∨ f = 0x78 then do
    let (n, va) ← vaInt d.nlong false va
    let s ← printUnsigned w s n (if f = 0x75 then 10 else 16) d.props
    .ok (va, s)
  else if f = 0x70 then do
    let (p, va) ← vaPtr va
    let s ← printUnsigned w s (p.setWidth 64) 16 { d.props with alternate := true }
    .ok (va, s)
  else if f = 0x73 then do
    let (str, va) ← vaStr va
    let s ← printStr s str.bytes d.props
    .ok (va, s)
  else do
    let s ← addchar s f
    .ok (va, s)

/-- The loop of `vsnprintf`. -/
def vsnprintf.loop (w : ℕ) (fmt : CString) :
    ℕ → ℕ → List (VaArg w) → PStream → Except Stuck PStream
  | 0, _, _, _ => .error .fuel
  | fuel + 1, pos, va, s => do
    let f ← fmt.at pos
    if f = 0 then .ok s
    else if f ≠ 0x25 then do
      let s ← addchar s f
      vsnprintf.loop w fmt fuel (pos + 1) va s
    else do
      let (f, d, pos) ← morefmt w fmt (fuel + 1) (pos + 1) ⟨0, 0x20, 0, false⟩
      let (va, s) ← convert w f d va s
      vsnprintf.loop w fmt fuel (if f = 0 then pos - 1 else pos) va s

/-- `vsnprintf`. The stream at its end holds the memory and, in `added`, the result. A turn of the
loop goes on in the format, so there are at most as many as it has characters. -/
def vsnprintf (w : ℕ) (mem : List (BitVec 8)) (size : BitVec 32) (fmt : CString)
    (va : List (VaArg w)) : Except Stuck PStream := do
  let s ← vsnprintf.loop w fmt (fmt.bytes.length + 1) 0 va ⟨mem, 0, size - 1, 0, []⟩
  s.store 0

/-! ## The text of a call -/

/-- The text of `print_str`. -/
def strText (s : List (BitVec 8)) (props : StrProps) : List (BitVec 8) :=
  let len := BitVec.ofNat 32 s.length
  let npad := props.npad
  let left := if 0 < npad.toInt then (npad - len).toInt.toNat else 0
  let npad := if 0 < npad.toInt then if 0 < (npad - len).toInt then 0 else npad - len else npad
  let right := if npad.toInt < 0 then (-(npad + len).toInt).toNat else 0
  List.replicate left props.pad ++ s ++ List.replicate right 0x20

/-- The text of `print_int`. -/
def intText (w : ℕ) (n : BitVec 64) (base : ℕ) (props : StrProps) :
    Except Stuck (List (BitVec 8)) := do
  let buf ← localBuf (printIntBuf w n base)
  .ok (strText buf props)

/-- The text of `print_unsigned`. -/
def unsignedText (w : ℕ) (n : BitVec 64) (base : ℕ) (props : StrProps) :
    Except Stuck (List (BitVec 8)) := do
  let buf ← localBuf (printUnsignedBuf w n base props)
  if n ≠ 0 ∧ props.alternate ∧ base = 16 ∧ props.pad = 0x30 then
    let npad :=
      if 0 < props.npad.toInt then
        if 0 < (props.npad - 2).toInt then props.npad - 2 else 0
      else props.npad
    .ok (0x30 :: 0x78 :: strText buf { props with npad := npad })
  else .ok (strText buf props)

/-- The text of a directive, and the arguments after it. -/
def convertText (w : ℕ) (f : BitVec 8) (d : Directive) (va : List (VaArg w)) :
    Except Stuck (List (VaArg w) × List (BitVec 8)) :=
  if f = 0x25 then .ok (va, [0x25])
  else if f = 0x63 then do
    let (n, va) ← vaInt 0 true va
    .ok (va, [n.setWidth 8])
  else if f = 0 then .ok (va, [])
  else if f = 0x64 then do
    let (n, va) ← vaInt d.nlong true va
    let t ← intText w n 10 d.props
    .ok (va, t)
  else if f = 0x75 ∨ f = 0x78 then do
    let (n, va) ← vaInt d.nlong false va
    let t ← unsignedText w n (if f = 0x75 then 10 else 16) d.props
    .ok (va, t)
  else if f = 0x70 then do
    let (p, va) ← vaPtr va
    let t ← unsignedText w (p.setWidth 64) 16 { d.props with alternate := true }
    .ok (va, t)
  else if f = 0x73 then do
    let (str, va) ← vaStr va
    .ok (va, strText str.bytes d.props)
  else .ok (va, [f])

/-- The text of the format from `pos` on. -/
def formatText (w : ℕ) (fmt : CString) :
    ℕ → ℕ → List (VaArg w) → Except Stuck (List (BitVec 8))
  | 0, _, _ => .error .fuel
  | fuel + 1, pos, va => do
    let f ← fmt.at pos
    if f = 0 then .ok []
    else if f ≠ 0x25 then do
      let t ← formatText w fmt fuel (pos + 1) va
      .ok (f :: t)
    else do
      let (f, d, pos) ← morefmt w fmt (fuel + 1) (pos + 1) ⟨0, 0x20, 0, false⟩
      let (va, t) ← convertText w f d va
      let t' ← formatText w fmt fuel (if f = 0 then pos - 1 else pos) va
      .ok (t ++ t')

/-- `addchar` of the characters of a text. -/
def emit (p : PStream) (t : List (BitVec 8)) : Except Stuck PStream :=
  t.foldlM addchar p

section Emit

variable {w : ℕ} {p : PStream} {s t : List (BitVec 8)} {props : StrProps}

theorem ok_bind {α β : Type} (a : α) (f : α → Except Stuck β) : (Except.ok a >>= f) = f a := rfl

theorem error_bind {α β : Type} (e : Stuck) (f : α → Except Stuck β) :
    ((Except.error e : Except Stuck α) >>= f) = .error e := rfl

/-- A computation that has a result has one at each step. -/
theorem exists_of_bind_eq_ok {α β : Type} {x : Except Stuck α} {f : α → Except Stuck β} {b : β}
    (h : (x >>= f) = .ok b) : ∃ a, x = .ok a ∧ f a = .ok b := by
  rcases x with e | a
  · simp [error_bind] at h
  · exact ⟨a, rfl, h⟩

theorem emit_cons (p : PStream) (c : BitVec 8) (t : List (BitVec 8)) :
    emit p (c :: t) = (do let p ← addchar p c; emit p t) := rfl

theorem emit_singleton (p : PStream) (c : BitVec 8) : emit p [c] = addchar p c := by
  unfold emit
  simp

theorem emit_append (p : PStream) (s t : List (BitVec 8)) :
    emit p (s ++ t) = (do let p ← emit p s; emit p t) := by
  unfold emit
  rw [List.foldlM_append]

theorem padLoop_eq (c : BitVec 8) (n : ℕ) (p : PStream) :
    padLoop c n p = emit p (List.replicate n c) := by
  induction n generalizing p with
  | zero => rfl
  | succ n ih =>
    rw [List.replicate_succ, emit_cons, padLoop]
    simp only [ih]

/-- A loop that pads only under a condition. -/
theorem ite_emit (b : Prop) [Decidable b] (p : PStream) (n : ℕ) (c : BitVec 8) :
    (if b then emit p (List.replicate n c) else .ok p) =
      emit p (List.replicate (if b then n else 0) c) := by
  split_ifs <;> rfl

theorem printStr_eq (p : PStream) (s : List (BitVec 8)) (props : StrProps) :
    printStr p s props = emit p (strText s props) := by
  unfold printStr strText
  simp only [padLoop_eq, emit_append, ite_emit, bind_assoc]
  by_cases hpos : 0 < props.npad.toInt
  · simp only [if_pos hpos, ok_bind]
    rfl
  · simp only [if_neg hpos, ok_bind]
    rfl

theorem printInt_eq (p : PStream) (n : BitVec 64) (base : ℕ) (props : StrProps) :
    printInt w p n base props = (do let t ← intText w n base props; emit p t) := by
  unfold printInt intText
  simp only [printStr_eq, bind_assoc, ok_bind]

theorem printUnsigned_eq (p : PStream) (n : BitVec 64) (base : ℕ) (props : StrProps) :
    printUnsigned w p n base props = (do let t ← unsignedText w n base props; emit p t) := by
  unfold printUnsigned unsignedText
  by_cases hzeros : n ≠ 0 ∧ props.alternate ∧ base = 16 ∧ props.pad = 0x30
  · simp only [if_pos hzeros, printStr_eq, bind_assoc, ok_bind]
    rfl
  · simp only [if_neg hzeros, printStr_eq, bind_assoc, ok_bind]

theorem convert_eq_bind (f : BitVec 8) (d : Directive) (va : List (VaArg w)) (p : PStream) :
    convert w f d va p =
      (do let (va, t) ← convertText w f d va; let p ← emit p t; .ok (va, p)) := by
  unfold convert convertText
  simp only [printInt_eq, printUnsigned_eq, printStr_eq, ← emit_singleton]
  split_ifs
  all_goals simp only [bind_assoc, ok_bind]
  all_goals rfl

/-- A directive emits its text, if it has one. -/
theorem convert_eq {f : BitVec 8} {d : Directive} {va va' : List (VaArg w)}
    (h : convertText w f d va = .ok (va', t)) (p : PStream) :
    convert w f d va p = (do let p ← emit p t; .ok (va', p)) := by
  rw [convert_eq_bind, h]
  rfl

/-- The loop emits the text of the format. -/
theorem loop_eq {fmt : CString} {fuel pos : ℕ} {va : List (VaArg w)}
    (h : formatText w fmt fuel pos va = .ok t) (p : PStream) :
    vsnprintf.loop w fmt fuel pos va p = emit p t := by
  induction fuel generalizing pos va t p with
  | zero => simp [formatText] at h
  | succ fuel ih =>
    unfold formatText at h
    obtain ⟨f, hf, h⟩ := exists_of_bind_eq_ok h
    rw [vsnprintf.loop, hf, ok_bind]
    by_cases hnul : f = 0
    · rw [if_pos hnul] at h ⊢
      obtain rfl := Except.ok.inj h
      rfl
    rw [if_neg hnul] at h ⊢
    by_cases hplain : f ≠ 0x25
    · rw [if_pos hplain] at h ⊢
      obtain ⟨t', htext, h⟩ := exists_of_bind_eq_ok h
      obtain rfl := Except.ok.inj h
      rw [emit_cons]
      simp only [ih htext]
    · rw [if_neg hplain] at h ⊢
      obtain ⟨⟨f', d, pos'⟩, hmore, h⟩ := exists_of_bind_eq_ok h
      obtain ⟨⟨va', t'⟩, hconvert, h⟩ := exists_of_bind_eq_ok h
      obtain ⟨t'', htext, h⟩ := exists_of_bind_eq_ok h
      obtain rfl := Except.ok.inj h
      rw [hmore, ok_bind, emit_append]
      simp only [convert_eq hconvert, bind_assoc, ok_bind, ih htext]

/-! ## What a buffer takes of a text -/

/-- The stream after the text `t`, from a buffer with room for `room` characters and a NUL. -/
def PStream.filled (mem : List (BitVec 8)) (room : ℕ) (t : List (BitVec 8)) : PStream where
  mem := t.take room ++ mem.drop (min room t.length)
  buffer := min room t.length
  remain := BitVec.ofNat 32 (room - t.length)
  added := BitVec.ofNat 32 t.length
  text := t

section Filled

variable {mem : List (BitVec 8)} {room : ℕ}

theorem addchar_of_remain {c : BitVec 8} {mem' : List (BitVec 8)} (hremain : p.remain ≠ 0)
    (hstore : p.store c = .ok { p with mem := mem' }) :
    addchar p c = .ok ⟨mem', p.buffer + 1, p.remain - 1, p.added + 1, p.text ++ [c]⟩ := by
  unfold addchar
  rw [if_pos hremain, hstore]
  rfl

theorem addchar_of_full {c : BitVec 8} (hremain : p.remain = 0) :
    addchar p c = .ok { p with added := p.added + 1, text := p.text ++ [c] } := by
  unfold addchar
  rw [if_neg (not_not.mpr hremain)]
  rfl

/-- What a store behind the characters does. -/
theorem store_filled (hmem : room < mem.length) (c : BitVec 8) :
    (PStream.filled mem room t).store c = .ok { PStream.filled mem room t with
      mem := t.take room ++ c :: mem.drop (min room t.length + 1) } := by
  have hlen : (t.take room).length = min room t.length := List.length_take
  have hlt : min room t.length < (t.take room ++ mem.drop (min room t.length)).length := by
    rw [List.length_append, List.length_drop]
    omega
  unfold PStream.store PStream.filled
  rw [if_pos hlt, List.set_append_right _ _ hlen.le, hlen, Nat.sub_self,
    List.drop_eq_getElem_cons (by omega), List.set_cons_zero]

/-- A character that the buffer has room for is stored. -/
theorem addchar_filled_of_lt (hroom : room < 2 ^ 31) (hmem : room < mem.length)
    (ht : t.length < room) (c : BitVec 8) :
    addchar (PStream.filled mem room t) c = .ok (PStream.filled mem room (t ++ [c])) := by
  have hremain : (PStream.filled mem room t).remain ≠ 0 := fun h => by
    have := congrArg BitVec.toNat h
    simp [PStream.filled] at this
    omega
  rw [addchar_of_remain hremain (store_filled hmem c)]
  unfold PStream.filled
  rw [List.length_append, List.length_singleton, List.take_of_length_le ht.le,
    List.take_of_length_le (by simpa using ht), Nat.min_eq_right ht.le, Nat.min_eq_right ht,
    List.append_assoc, List.singleton_append]
  congr 2
  · apply BitVec.eq_of_toNat_eq
    simp
    omega
  · exact (BitVec.ofNat_add ..).symm

/-- Any other character is only counted. -/
theorem addchar_filled_of_le (ht : room ≤ t.length) (c : BitVec 8) :
    addchar (PStream.filled mem room t) c = .ok (PStream.filled mem room (t ++ [c])) := by
  have hremain : (PStream.filled mem room t).remain = 0 := by
    simp [PStream.filled, Nat.sub_eq_zero_of_le ht]
  rw [addchar_of_full hremain]
  unfold PStream.filled
  rw [List.length_append, List.length_singleton, List.take_append_of_le_length ht,
    Nat.min_eq_left ht, Nat.min_eq_left (Nat.le_succ_of_le ht), Nat.sub_eq_zero_of_le ht,
    Nat.sub_eq_zero_of_le (Nat.le_succ_of_le ht)]
  congr 2
  exact (BitVec.ofNat_add ..).symm

/-- The stream keeps the first characters and counts all. -/
theorem emit_filled (hroom : room < 2 ^ 31) (hmem : room < mem.length) (t : List (BitVec 8)) :
    emit ⟨mem, 0, BitVec.ofNat 32 room, 0, []⟩ t = .ok (PStream.filled mem room t) := by
  induction t using List.reverseRecOn with
  | nil => simp [emit, PStream.filled]; rfl
  | append_singleton t c ih =>
    rw [emit_append, ih, ok_bind, emit_singleton]
    rcases Nat.lt_or_ge t.length room with hlt | hge
    · exact addchar_filled_of_lt hroom hmem hlt c
    · exact addchar_filled_of_le hge c

/-- A call stores what its buffer takes of the text, and a NUL. -/
theorem vsnprintf_eq {fmt : CString} {va : List (VaArg w)} {size : BitVec 32}
    (h : formatText w fmt (fmt.bytes.length + 1) 0 va = .ok t) (hsize : 0 < size.toInt)
    (hmem : size.toNat ≤ mem.length) :
    vsnprintf w mem size fmt va = .ok
      { PStream.filled mem (size.toNat - 1) t with
        mem := t.take (size.toNat - 1) ++ 0 :: mem.drop (min (size.toNat - 1) t.length + 1) } := by
  have hnat : size.toNat < 2 ^ 31 ∧ 0 < size.toNat := by
    have := BitVec.toInt_eq_toNat_cond size
    split_ifs at this <;> omega
  have hroom : size - 1 = BitVec.ofNat 32 (size.toNat - 1) := by
    apply BitVec.eq_of_toNat_eq
    simp
    omega
  unfold vsnprintf
  rw [loop_eq h, hroom, emit_filled (by omega) (by omega), ok_bind, store_filled (by omega)]

end Filled

end Emit

/-! ## The format is read up to its NUL -/

section Format

variable {fmt : CString} {w pos fuel : ℕ}

theorem at_eq (hpos : pos ≤ fmt.bytes.length) : fmt.at pos = .ok (deref (fmt.bytes.drop pos)) :=
  if_pos hpos

/-- The NUL is the byte after the last. -/
theorem deref_drop_eq_zero (hpos : pos ≤ fmt.bytes.length) :
    deref (fmt.bytes.drop pos) = 0 ↔ pos = fmt.bytes.length := by
  constructor
  · intro h
    by_contra hne
    rw [List.drop_eq_getElem_cons (by omega), deref_cons] at h
    exact fmt.zero_notMem (h ▸ List.getElem_mem _)
  · rintro rfl
    simp

/-- The length of what `fmtnum` takes. -/
def numLength (f : List (BitVec 8)) : ℕ :=
  let len := if deref f = 0x2d then 1 else 0
  len + ((f.drop len).takeWhile isDigit).length

theorem fmtnum_eq (w : ℕ) (hpos : pos ≤ fmt.bytes.length) :
    fmtnum w fmt pos =
      .ok ((atol w (fmt.bytes.drop pos)).setWidth 32, pos + numLength (fmt.bytes.drop pos)) :=
  if_pos hpos

/-- `fmtnum` does not go past the NUL. -/
theorem numLength_le (f : List (BitVec 8)) : numLength f ≤ f.length := by
  have htake : ∀ l : List (BitVec 8), (l.takeWhile isDigit).length ≤ l.length := fun l =>
    (List.takeWhile_prefix isDigit).length_le
  unfold numLength
  rcases f with _ | ⟨c, f⟩
  · simp
  · by_cases hminus : deref (c :: f) = 0x2d
    · have := htake f
      simp only [if_pos hminus, List.drop_succ_cons, List.drop_zero, List.length_cons]
      omega
    · simpa only [if_neg hminus, List.drop_zero, Nat.zero_add] using htake (c :: f)

/-- `fmtnum` takes a digit or a minus. -/
theorem numLength_pos {f : List (BitVec 8)} (h : isDigit (deref f) ∨ deref f = 0x2d) :
    0 < numLength f := by
  unfold numLength
  by_cases hminus : deref f = 0x2d
  · simp only [if_pos hminus]
    omega
  · rcases f with _ | ⟨c, f⟩
    · simp at h
      revert h
      decide
    · have hdigit : isDigit c := h.resolve_right hminus
      simp only [if_neg hminus, List.drop_zero, List.takeWhile_cons_of_pos hdigit,
        List.length_cons]
      omega

/-- A directive ends in the format or at its NUL, and has at least one character. -/
theorem morefmt_spec (hpos : pos ≤ fmt.bytes.length) (hfuel : fmt.bytes.length < pos + fuel)
    (d : Directive) :
    ∃ f d' pos', morefmt w fmt fuel pos d = .ok (f, d', pos') ∧ pos < pos' ∧
      pos' ≤ fmt.bytes.length + 1 ∧ (f ≠ 0 → pos' ≤ fmt.bytes.length) := by
  induction fuel generalizing pos d with
  | zero => omega
  | succ fuel ih =>
    have hnul := deref_drop_eq_zero hpos
    have hnum := @numLength_pos (fmt.bytes.drop pos)
    -- what is read after a part of the directive
    have hnext : ∀ {q : ℕ}, pos < q → q ≤ fmt.bytes.length → ∀ d,
        ∃ f d' pos', morefmt w fmt fuel q d = .ok (f, d', pos') ∧ pos < pos' ∧
          pos' ≤ fmt.bytes.length + 1 ∧ (f ≠ 0 → pos' ≤ fmt.bytes.length) := fun hq hle d => by
      obtain ⟨f, d', pos', hmore, hlt, hend⟩ := ih hle (by omega) d
      exact ⟨f, d', pos', hmore, hq.trans hlt, hend⟩
    have hdrop : ∀ q, q ≤ fmt.bytes.length → q + numLength (fmt.bytes.drop q) ≤ fmt.bytes.length :=
      fun q hq => by
        have := numLength_le (fmt.bytes.drop q)
        rw [List.length_drop] at this
        omega
    rw [morefmt, at_eq hpos, ok_bind]
    generalize deref (fmt.bytes.drop pos) = f at hnul hnum ⊢
    by_cases hzero : f = 0
    · subst hzero
      exact ⟨0, d, pos + 1, rfl, by omega, by omega, fun h => absurd rfl h⟩
    have hlt : pos < fmt.bytes.length := lt_of_le_of_ne hpos fun h => hzero (hnul.mpr h)
    simp only [Nat.add_sub_cancel, fmtnum_eq w hpos, fmtnum_eq w hlt, ok_bind]
    split_ifs with hhash hpad hdigit hlong hsize
    · exact hnext (Nat.lt_succ_self pos) hlt _
    · exact hnext (by omega) (hdrop _ hlt) _
    · have := hnum hdigit
      exact hnext (by omega) (hdrop _ hpos) _
    · exact hnext (Nat.lt_succ_self pos) hlt _
    · exact hnext (Nat.lt_succ_self pos) hlt _
    · exact ⟨f, d, pos + 1, rfl, by omega, by omega, fun _ => hlt⟩

end Format

/-! ## A matching argument list has a text -/

/-- No `va_arg` of the call finds an argument of another type, or none. -/
def Matches {w : ℕ} (fmt : CString) (va : List (VaArg w)) : Prop :=
  formatText w fmt (fmt.bytes.length + 1) 0 va ≠ .error .args

section Text

variable {w : ℕ} {va : List (VaArg 64)} {fmt : CString}

theorem natAbs_le_of_bitVec (n : BitVec 64) : n.toInt.natAbs ≤ 2 ^ 63 := by
  have := n.isLt
  have := BitVec.toInt_eq_toNat_cond n
  split_ifs at this <;> omega

/-- With 8-byte longs, all numbers but the smallest fit the buffer of `print_int`. -/
theorem intText_eq_ok {n : BitVec 64} (hn : n ≠ BitVec.intMin 64) (props : StrProps) :
    ∃ t, intText 64 n 10 props = .ok t := by
  have hnumeral : (numeral 10 n.toInt.natAbs).length ≤ 24 :=
    (length_numeral (by omega) (by omega) _).mpr
      ((natAbs_le_of_bitVec n).trans_lt (by norm_num))
  have hfits : (signChars n ++ numeral 10 n.toInt.natAbs).length < 64 / 8 * 3 + 2 := by
    rw [List.length_append, length_signChars]
    split_ifs <;> omega
  unfold intText
  rw [printIntBuf_eq (by omega) hn, if_pos hfits]
  exact ⟨_, rfl⟩

/-- All numbers fit the buffer of `print_unsigned`. -/
theorem unsignedText_eq_ok {base : ℕ} (hbase : base = 10 ∨ base = 16) (n : BitVec 64)
    (props : StrProps) : ∃ t, unsignedText 64 n base props = .ok t := by
  have hnumeral : (numeral base n.toNat).length ≤ 20 :=
    (length_numeral (by omega) (by omega) _).mpr (n.isLt.trans_le (by
      rcases hbase with rfl | rfl <;> norm_num))
  have hprefix : (hexPrefix n base props).length ≤ 2 := by
    unfold hexPrefix
    split_ifs <;> simp
  have hfits : (hexPrefix n base props ++ numeral base n.toNat).length < 64 / 8 * 3 + 3 := by
    rw [List.length_append]
    omega
  unfold unsignedText
  rw [printUnsignedBuf_eq (by omega), if_pos hfits]
  simp only [localBuf, ok_bind]
  by_cases hzeros : n ≠ 0 ∧ props.alternate ∧ base = 16 ∧ props.pad = 0x30
  · rw [if_pos hzeros]
    exact ⟨_, rfl⟩
  · rw [if_neg hzeros]
    exact ⟨_, rfl⟩

theorem vaInt_int {va : List (VaArg w)} (nlong : BitVec 32) (signed unsigned : Bool)
    (n : BitVec 32) :
    vaInt nlong signed (.int unsigned n :: va) =
      if (nlong = 0 ∨ nlong = 1 ∧ w = 32) ∧ ¬(signed ∧ unsigned ∧ n.toInt < 0) then
        .ok (if signed then n.signExtend 64 else n.setWidth 64, va)
      else .error .args := rfl

theorem vaInt_longLong {va : List (VaArg w)} (nlong : BitVec 32) (signed unsigned : Bool)
    (n : BitVec 64) :
    vaInt nlong signed (.longLong unsigned n :: va) =
      if (nlong ≠ 0 ∧ (nlong = 1 → w = 64)) ∧ ¬(signed ∧ unsigned ∧ n.toInt < 0) then .ok (n, va)
      else .error .args := rfl

/-- A number of 32 bits is not the smallest of 64. -/
theorem signExtend_ne_intMin (n : BitVec 32) : n.signExtend 64 ≠ BitVec.intMin 64 := fun h => by
  have hsmall := congrArg BitVec.toInt h
  rw [BitVec.toInt_signExtend_of_le (by omega), show (BitVec.intMin 64).toInt = -2 ^ 63 by decide]
    at hsmall
  have := BitVec.le_toInt n
  omega

/-- A signed directive does not read the smallest number, if it is no argument. -/
theorem vaInt_spec (hmin : .longLong false (BitVec.intMin 64) ∉ va) (nlong : BitVec 32)
    (signed : Bool) :
    vaInt nlong signed va = .error .args ∨
      ∃ n va', vaInt nlong signed va = .ok (n, va') ∧ va' <:+ va ∧
        (signed → n ≠ BitVec.intMin 64) := by
  rcases va with _ | ⟨⟨unsigned, n⟩ | ⟨unsigned, n⟩ | p | ⟨p, s⟩, va⟩
  · exact Or.inl rfl
  · rw [vaInt_int]
    by_cases h : (nlong = 0 ∨ nlong = 1 ∧ 64 = 32) ∧ ¬(signed ∧ unsigned ∧ n.toInt < 0)
    · rw [if_pos h]
      refine Or.inr ⟨_, va, rfl, List.suffix_cons .., fun hsigned => ?_⟩
      rw [if_pos hsigned]
      exact signExtend_ne_intMin n
    · exact Or.inl (if_neg h)
  · rw [vaInt_longLong]
    by_cases h : (nlong ≠ 0 ∧ (nlong = 1 → 64 = 64)) ∧ ¬(signed ∧ unsigned ∧ n.toInt < 0)
    · rw [if_pos h]
      refine Or.inr ⟨n, va, rfl, List.suffix_cons .., fun hsigned hn => ?_⟩
      subst hn
      rcases unsigned with _ | _
      · exact hmin List.mem_cons_self
      · exact h.2 ⟨hsigned, rfl, by decide⟩
    · exact Or.inl (if_neg h)
  · exact Or.inl rfl
  · exact Or.inl rfl

theorem vaPtr_spec (va : List (VaArg 64)) :
    vaPtr va = .error .args ∨ ∃ p va', vaPtr va = .ok (p, va') ∧ va' <:+ va := by
  rcases va with _ | ⟨⟨unsigned, n⟩ | ⟨unsigned, n⟩ | p | ⟨p, s⟩, va⟩
  · exact Or.inl rfl
  · exact Or.inl rfl
  · exact Or.inl rfl
  · exact Or.inr ⟨p, va, rfl, List.suffix_cons ..⟩
  · exact Or.inr ⟨p, va, rfl, List.suffix_cons ..⟩

theorem vaStr_spec (va : List (VaArg 64)) :
    vaStr va = .error .args ∨ ∃ s va', vaStr va = .ok (s, va') ∧ va' <:+ va := by
  rcases va with _ | ⟨⟨unsigned, n⟩ | ⟨unsigned, n⟩ | p | ⟨p, s⟩, va⟩
  · exact Or.inl rfl
  · exact Or.inl rfl
  · exact Or.inl rfl
  · exact Or.inl rfl
  · exact Or.inr ⟨s, va, rfl, List.suffix_cons ..⟩

/-- A directive that finds its argument has a text. -/
theorem convertText_spec (hmin : .longLong false (BitVec.intMin 64) ∉ va) (f : BitVec 8)
    (d : Directive) :
    convertText 64 f d va = .error .args ∨
      ∃ va' t, convertText 64 f d va = .ok (va', t) ∧ va' <:+ va := by
  unfold convertText
  by_cases hpercent : f = 0x25
  · exact Or.inr ⟨va, _, if_pos hpercent, List.suffix_rfl⟩
  rw [if_neg hpercent]
  by_cases hchar : f = 0x63
  · rw [if_pos hchar]
    rcases vaInt_spec hmin 0 true with h | ⟨n, va', h, hva, -⟩ <;> rw [h]
    · exact Or.inl rfl
    · exact Or.inr ⟨va', _, rfl, hva⟩
  rw [if_neg hchar]
  by_cases hnul : f = 0
  · exact Or.inr ⟨va, _, if_pos hnul, List.suffix_rfl⟩
  rw [if_neg hnul]
  by_cases hint : f = 0x64
  · rw [if_pos hint]
    rcases vaInt_spec hmin d.nlong true with h | ⟨n, va', h, hva, hn⟩ <;> rw [h]
    · exact Or.inl rfl
    · obtain ⟨t, ht⟩ := intText_eq_ok (hn rfl) d.props
      simp only [ok_bind, ht]
      exact Or.inr ⟨va', t, rfl, hva⟩
  rw [if_neg hint]
  by_cases hunsigned : f = 0x75 ∨ f = 0x78
  · rw [if_pos hunsigned]
    rcases vaInt_spec hmin d.nlong false with h | ⟨n, va', h, hva, -⟩ <;> rw [h]
    · exact Or.inl rfl
    · obtain ⟨t, ht⟩ := @unsignedText_eq_ok (if f = 0x75 then 10 else 16)
        (by split_ifs <;> simp) n d.props
      simp only [ok_bind, ht]
      exact Or.inr ⟨va', t, rfl, hva⟩
  rw [if_neg hunsigned]
  by_cases hptr : f = 0x70
  · rw [if_pos hptr]
    rcases vaPtr_spec va with h | ⟨p, va', h, hva⟩ <;> rw [h]
    · exact Or.inl rfl
    · obtain ⟨t, ht⟩ := unsignedText_eq_ok (Or.inr rfl) (p.setWidth 64)
        { d.props with alternate := true }
      simp only [ok_bind, ht]
      exact Or.inr ⟨va', t, rfl, hva⟩
  rw [if_neg hptr]
  by_cases hstr : f = 0x73
  · rw [if_pos hstr]
    rcases vaStr_spec va with h | ⟨s, va', h, hva⟩ <;> rw [h]
    · exact Or.inl rfl
    · exact Or.inr ⟨va', _, rfl, hva⟩
  · exact Or.inr ⟨va, _, if_neg hstr, List.suffix_rfl⟩

/-- The loop comes to the NUL, or to an argument that does not match. -/
theorem formatText_spec {fuel pos : ℕ} (hpos : pos ≤ fmt.bytes.length)
    (hfuel : fmt.bytes.length < pos + fuel) (hmin : .longLong false (BitVec.intMin 64) ∉ va) :
    formatText 64 fmt fuel pos va = .error .args ∨ ∃ t, formatText 64 fmt fuel pos va = .ok t := by
  induction fuel generalizing pos va with
  | zero => omega
  | succ fuel ih =>
    have hnul := deref_drop_eq_zero hpos
    rw [formatText, at_eq hpos, ok_bind]
    generalize deref (fmt.bytes.drop pos) = f at hnul ⊢
    by_cases hzero : f = 0
    · exact Or.inr ⟨[], if_pos hzero⟩
    have hlt : pos < fmt.bytes.length := lt_of_le_of_ne hpos fun h => hzero (hnul.mpr h)
    rw [if_neg hzero]
    by_cases hplain : f ≠ 0x25
    · rw [if_pos hplain]
      rcases ih hlt (by omega) hmin with h | ⟨t, h⟩ <;> rw [h]
      · exact Or.inl rfl
      · exact Or.inr ⟨f :: t, rfl⟩
    · rw [if_neg hplain]
      obtain ⟨f', d, pos', hmore, hpos', hend, hchar⟩ :=
        @morefmt_spec fmt 64 (pos + 1) (fuel + 1) hlt (by omega) ⟨0, 0x20, 0, false⟩
      rw [hmore, ok_bind]
      rcases convertText_spec hmin f' d with h | ⟨va', t, h, hva⟩ <;> simp only [h]
      · exact Or.inl rfl
      · have hnext : (if f' = 0 then pos' - 1 else pos') ≤ fmt.bytes.length ∧
            pos < if f' = 0 then pos' - 1 else pos' := by
          split_ifs with hf
          · omega
          · exact ⟨hchar hf, by omega⟩
        rcases ih hnext.1 (by omega) (fun hmem => hmin (hva.subset hmem)) with h' | ⟨t', h'⟩ <;>
          simp only [ok_bind, h']
        · exact Or.inl rfl
        · exact Or.inr ⟨t ++ t', rfl⟩

/-- For every format and every matching list of arguments without the smallest number there is a
text, and every call with a buffer of `size` bytes stores its first `size - 1` characters and a NUL,
leaves what is behind the NUL alone, and returns the length of the text. -/
theorem vsnprintf_bounded (fmt : CString) (va : List (VaArg 64)) (hargs : Matches fmt va)
    (hmin : .longLong false (BitVec.intMin 64) ∉ va) :
    ∃ text : List (BitVec 8), ∀ (mem : List (BitVec 8)) (size : BitVec 32), 0 < size.toInt →
      size.toNat ≤ mem.length → ∃ s, vsnprintf 64 mem size fmt va = .ok s ∧
        s.mem = text.take (size.toNat - 1) ++
          0 :: mem.drop (min (size.toNat - 1) text.length + 1) ∧
        s.text = text ∧ s.added = BitVec.ofNat 32 text.length ∧
        (text.length < 2 ^ 31 → s.added.toInt = text.length) := by
  obtain ⟨text, htext⟩ := (formatText_spec (Nat.zero_le _) (by omega) hmin).resolve_left hargs
  refine ⟨text, fun mem size hsize hmem => ⟨_, vsnprintf_eq htext hsize hmem, rfl, rfl, rfl,
    fun hlen => ?_⟩⟩
  simp only [PStream.filled]
  rw [BitVec.toInt_eq_toNat_of_lt] <;> rw [BitVec.toNat_ofNat, Nat.mod_eq_of_lt] <;> omega

/-- `"%-4d|%c"`. -/
def sampleFormat : CString :=
  ⟨[0x25, 0x2d, 0x34, 0x64, 0x7c, 0x25, 0x63], by decide⟩

/-- Six bytes take five characters of the text. -/
theorem vsnprintf_bounded_six : ∃ (text : List (BitVec 8)) (s : PStream),
    vsnprintf 64 (List.replicate 8 0xff) 6 sampleFormat [.int false 7, .int false 0x78] = .ok s ∧
      s.mem = text.take 5 ++ 0 :: List.drop (min 5 text.length + 1) (List.replicate 8 0xff) ∧
      s.text = text := by
  have hargs : Matches (w := 64) sampleFormat [.int false 7, .int false 0x78] := by
    unfold Matches
    decide +kernel
  have hmin : VaArg.longLong false (BitVec.intMin 64) ∉
      [VaArg.int false 7, (VaArg.int false 0x78 : VaArg 64)] := by
    simp
  obtain ⟨text, h⟩ := vsnprintf_bounded sampleFormat _ hargs hmin
  obtain ⟨s, hcall, hmem, htext, -⟩ := h (List.replicate 8 0xff) 6 (by decide) (by decide)
  exact ⟨text, s, hcall, hmem, htext⟩

end Text

end AcrnUt
