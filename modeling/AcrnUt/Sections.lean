import Mathlib.Data.List.Basic

/-!
# Texts of lines and sections

`splitLines` is a text as the lines that a newline ends and what is behind the last newline.
`splitSections header` is a list of lines as the lines before the first header, and the
sections, each with the value of its header. The last line belongs to the last section, if it is
no header (`splitSections_concat`).
-/

set_option linter.unusedSectionVars false

namespace AcrnUt

/-! ## Lines -/

/-- The lines that end in a newline, and the rest. -/
def splitLines : List Char → List (List Char) × List Char
  | [] => ([], [])
  | c :: s =>
    let r := splitLines s
    if c = '\n' then ([] :: r.1, r.2)
    else
      match r.1 with
      | [] => ([], c :: r.2)
      | l :: ls => ((c :: l) :: ls, r.2)

/-- All lines of a text, with the rest as the last one. -/
def allLines (s : List Char) : List (List Char) :=
  (splitLines s).1 ++ [(splitLines s).2]

theorem splitLines_of_notMem {s : List Char} (h : '\n' ∉ s) : splitLines s = ([], s) := by
  induction s with
  | nil => rfl
  | cons c s ih =>
    rw [List.mem_cons, not_or] at h
    rw [splitLines, ih h.2, if_neg (Ne.symm h.1)]

theorem splitLines_append_newline {l : List Char} (h : '\n' ∉ l) (s : List Char) :
    splitLines (l ++ '\n' :: s) = (l :: (splitLines s).1, (splitLines s).2) := by
  induction l with
  | nil => rw [List.nil_append, splitLines, if_pos rfl]
  | cons c l ih =>
    rw [List.mem_cons, not_or] at h
    rw [List.cons_append, splitLines, ih h.2, if_neg (Ne.symm h.1)]

/-- A newline at the end leaves no rest. -/
theorem exists_splitLines_concat_newline (s : List Char) :
    ∃ l ls, splitLines (s ++ ['\n']) = (l :: ls, []) := by
  induction s with
  | nil => exact ⟨[], [], rfl⟩
  | cons c s ih =>
    obtain ⟨l, ls, h⟩ := ih
    rw [List.cons_append, splitLines, h]
    by_cases hc : c = '\n'
    · exact ⟨[], l :: ls, if_pos hc⟩
    · exact ⟨c :: l, ls, if_neg hc⟩

/-! ## Sections -/

section Sections

variable {Line Name : Type*} (header : Line → Option Name)

/-- The lines before the first header, and the sections. -/
def splitSections : List Line → List Line × List (Name × List Line)
  | [] => ([], [])
  | l :: ls =>
    let r := splitSections ls
    match header l with
    | some n => ([], (n, r.1) :: r.2)
    | none => (l :: r.1, r.2)

variable {header}

theorem splitSections_header {l : Line} {n : Name} (h : header l = some n) (ls : List Line) :
    splitSections header (l :: ls) =
      ([], (n, (splitSections header ls).1) :: (splitSections header ls).2) := by
  rw [splitSections, h]

theorem splitSections_of_none {l : Line} (h : header l = none) (ls : List Line) :
    splitSections header (l :: ls) =
      (l :: (splitSections header ls).1, (splitSections header ls).2) := by
  rw [splitSections, h]

/-- A header at the end begins a section of no lines. -/
theorem splitSections_concat_header {l : Line} {n : Name} (h : header l = some n)
    (ls : List Line) :
    splitSections header (ls ++ [l]) =
      ((splitSections header ls).1, (splitSections header ls).2 ++ [(n, [])]) := by
  induction ls with
  | nil => rw [List.nil_append, splitSections_header h]; rfl
  | cons x ls ih =>
    rw [List.cons_append]
    cases hx : header x with
    | none => rw [splitSections_of_none hx, ih, splitSections_of_none hx]
    | some m => rw [splitSections_header hx, ih, splitSections_header hx, List.cons_append]

/-- Any other line at the end belongs to the last section, or to what is before the first. -/
theorem splitSections_concat {l : Line} (h : header l = none) (ls : List Line) :
    splitSections header (ls ++ [l]) =
      match (splitSections header ls).2.getLast? with
      | none => ((splitSections header ls).1 ++ [l], [])
      | some s => ((splitSections header ls).1,
          (splitSections header ls).2.dropLast ++ [(s.1, s.2 ++ [l])]) := by
  induction ls with
  | nil => rw [List.nil_append, splitSections_of_none h]; rfl
  | cons x ls ih =>
    rw [List.cons_append]
    cases hx : header x with
    | none =>
      rw [splitSections_of_none hx, ih, splitSections_of_none hx]
      cases (splitSections header ls).2.getLast? <;> rfl
    | some m =>
      rw [splitSections_header hx, ih, splitSections_header hx]
      cases hs : (splitSections header ls).2 with
      | nil => rfl
      | cons s ss =>
        rw [List.getLast?_cons_cons, List.getLast?_eq_some_getLast (List.cons_ne_nil s ss)]
        rfl

end Sections

end AcrnUt
