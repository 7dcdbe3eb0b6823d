import Invariance.Lineage

/-!
The drawing of a lineage read back. The reader knows nothing of lineages: it takes a text apart into
lines, and each line between the first and the last into a mark or an arrow. Main statement: the
text that a lineage writes is read back as its strokes, with one arrow for each origin and one mark
for each learnt formula that is invalid. A parent that was not learnt itself is drawn without a
mark, so the marks are all the invalid formulas in the picture unless there is such a parent.
-/

namespace Invariance

namespace Drawing

def lines : List Char → List (List Char)
  | [] => []
  | c :: text =>
      if c = '\n' then [] :: lines text
      else match lines text with
        | [] => [[c]]
        | line :: rest => (c :: line) :: rest

/-- The number that a line begins with, and what comes after it. -/
def readNumber (line : List Char) : Option (Nat × List Char) :=
  let digits := line.takeWhile Char.isDigit
  if digits.isEmpty then none
  else some (Nat.ofDigitChars 10 digits 0, line.dropWhile Char.isDigit)

def readStroke (line : List Char) : Option Stroke := do
  let (source, rest) ← readNumber line
  match rest with
  | '-' :: '>' :: rest =>
      let (target, rest) ← readNumber rest
      if rest = [';'] then some (.arrow ⟨source⟩ ⟨target⟩) else none
  | rest => if rest = " [color = red];".toList then some (.mark ⟨source⟩) else none

def readBody : List (List Char) → Option (List Stroke)
  | [] => none
  | line :: rest =>
      if line = ['\x7d'] then if rest.isEmpty then some [] else none
      else do return (← readStroke line) :: (← readBody rest)

def read (text : String) : Option (List Stroke) :=
  match lines text.toList with
  | [] => none
  | line :: rest => if line = "digraph G \x7b".toList then readBody rest else none

theorem lines_append {line text : List Char} (h : '\n' ∉ line) :
    lines (line ++ '\n' :: text) = line :: lines text := by
  induction line with
  | nil => rw [List.nil_append, lines, if_pos rfl]
  | cons c line ih =>
      obtain ⟨hc, hline⟩ := not_or.mp (mt List.mem_cons.mpr h)
      rw [List.cons_append, lines, if_neg (Ne.symm hc), ih hline]

theorem readNumber_append {n : Nat} {rest : List Char}
    (h : ∀ c ∈ rest.head?, c.isDigit = false) :
    readNumber (Nat.toDigits 10 n ++ rest) = some (n, rest) := by
  have hdigits : ∀ c ∈ Nat.toDigits 10 n, c.isDigit = true := fun c hc =>
    Nat.isDigit_of_mem_toDigits (by decide) (by decide) hc
  have hstop : rest.takeWhile Char.isDigit = [] ∧ rest.dropWhile Char.isDigit = rest := by
    cases rest with
    | nil => exact ⟨rfl, rfl⟩
    | cons c rest => simp [h c rfl]
  rw [readNumber, List.takeWhile_append_of_pos hdigits, List.dropWhile_append_of_pos hdigits,
    hstop.1, hstop.2, List.append_nil, if_neg (by simp),
    Nat.ofDigitChars_toDigits (by decide) (by decide)]

end Drawing

namespace Stroke

def mark? : Stroke → Option Formula
  | .mark f => some f
  | .arrow .. => none

def arrow? : Stroke → Option (Formula × Formula)
  | .mark _ => none
  | .arrow source target => some (source, target)

/-- The text of a stroke without the end of the line. -/
def line : Stroke → List Char
  | .mark f => Nat.toDigits 10 f.id ++ " [color = red];".toList
  | .arrow source target => Nat.toDigits 10 source.id ++ '-' :: '>' ::
      (Nat.toDigits 10 target.id ++ [';'])

theorem toList_render (stroke : Stroke) : stroke.render.toList = stroke.line ++ ['\n'] := by
  cases stroke <;> simp [render, line, toString, Nat.toList_repr]

theorem newline_not_mem_line (stroke : Stroke) : '\n' ∉ stroke.line := by
  have hdigits : ∀ n, '\n' ∉ Nat.toDigits 10 n := fun n h =>
    absurd (Nat.isDigit_of_mem_toDigits (by decide) (by decide) h) (by decide)
  cases stroke <;> simp [line, hdigits]

theorem readStroke_line (stroke : Stroke) : Drawing.readStroke stroke.line = some stroke := by
  cases stroke with
  | mark f =>
      have hf : Drawing.readNumber (mark f).line = some (f.id, " [color = red];".toList) :=
        Drawing.readNumber_append (by simp)
      rw [Drawing.readStroke, hf]
      rfl
  | arrow source target =>
      have hsource : Drawing.readNumber (arrow source target).line =
          some (source.id, '-' :: '>' :: (Nat.toDigits 10 target.id ++ [';'])) :=
        Drawing.readNumber_append (by simp)
      have htarget : Drawing.readNumber (Nat.toDigits 10 target.id ++ [';']) =
          some (target.id, [';']) :=
        Drawing.readNumber_append (by simp)
      rw [Drawing.readStroke, hsource]
      change (Drawing.readNumber (Nat.toDigits 10 target.id ++ [';']) >>= _) = _
      rw [htarget]
      rfl

end Stroke

namespace Drawing

theorem lines_strokes (strokes : List Stroke) (text : List Char) :
    lines (strokes.flatMap (fun stroke => stroke.render.toList) ++ text) =
      strokes.map Stroke.line ++ lines text := by
  induction strokes with
  | nil => rfl
  | cons stroke strokes ih =>
      rw [List.flatMap_cons, stroke.toList_render, List.append_assoc, List.append_assoc,
        List.singleton_append, lines_append stroke.newline_not_mem_line, ih, List.map_cons,
        List.cons_append]

theorem readBody_strokes (strokes : List Stroke) :
    readBody (strokes.map Stroke.line ++ [['\x7d']]) = some strokes := by
  induction strokes with
  | nil => rfl
  | cons stroke strokes ih =>
      have hline : stroke.line ≠ ['\x7d'] := fun h => by
        have hread := stroke.readStroke_line
        rw [h] at hread
        cases hread
      rw [List.map_cons, List.cons_append, readBody, if_neg hline, stroke.readStroke_line, ih]
      rfl

end Drawing

namespace Lineage

variable {l : Lineage} {f : Formula}

theorem read_dot (l : Lineage) : Drawing.read (String.join l.dot) = some l.strokes := by
  have htext : (String.join l.dot).toList = "digraph G \x7b".toList ++ '\n' ::
      (l.strokes.flatMap (fun stroke => stroke.render.toList) ++ ['\x7d', '\n']) := by
    simp [dot, List.flatMap_map]
  have hlines : Drawing.lines (String.join l.dot).toList =
      "digraph G \x7b".toList :: (l.strokes.map Stroke.line ++ [['\x7d']]) := by
    rw [htext, Drawing.lines_append (by decide), Drawing.lines_strokes]
    rfl
  rw [Drawing.read, hlines]
  exact (if_pos rfl).trans (Drawing.readBody_strokes l.strokes)

def Learnt (l : Lineage) (f : Formula) : Prop := ∃ o, l.origin? f = some o

def IsParent (l : Lineage) (f : Formula) : Prop := ∃ g o, l.origin? g = some o ∧ o.parent = f

/-- What a drawing shows of a lineage. -/
structure Depicted (l : Lineage) (strokes : List Stroke) : Prop where
  arrows : strokes.filterMap Stroke.arrow? = l.origins.entries.map fun (f, o) => (f, o.parent)
  marks : strokes.filterMap Stroke.mark? = l.origins.keys.filter l.isInvalid
  red : ∀ f, (l.IsParent f → l.isInvalid f = true → l.Learnt f) →
    (.mark f ∈ strokes ↔ (l.Learnt f ∨ l.IsParent f) ∧ l.isInvalid f = true)

theorem arrows_strokes (l : Lineage) :
    l.strokes.filterMap Stroke.arrow? = l.origins.entries.map fun (f, o) => (f, o.parent) := by
  rw [strokes]
  induction l.origins.entries with
  | nil => rfl
  | cons x entries ih =>
      obtain ⟨f, o⟩ := x
      rw [List.flatMap_cons, List.filterMap_append, ih, List.map_cons]
      cases hf : l.isInvalid f <;> simp [hf, Stroke.arrow?, List.filterMap_cons]

theorem marks_strokes (l : Lineage) :
    l.strokes.filterMap Stroke.mark? = l.origins.keys.filter l.isInvalid := by
  rw [strokes, FormulaMap.keys]
  induction l.origins.entries with
  | nil => rfl
  | cons x entries ih =>
      obtain ⟨f, o⟩ := x
      rw [List.flatMap_cons, List.filterMap_append, ih, List.map_cons, List.filter_cons]
      cases hf : l.isInvalid f <;> simp [hf, Stroke.mark?, List.filterMap_cons]

theorem mark_mem_strokes : .mark f ∈ l.strokes ↔ l.Learnt f ∧ l.isInvalid f = true := by
  have hmark : .mark f ∈ l.strokes ↔ f ∈ l.strokes.filterMap Stroke.mark? := by
    rw [List.mem_filterMap]
    refine ⟨fun h => ⟨_, h, rfl⟩, fun ⟨stroke, h, hf⟩ => ?_⟩
    cases stroke with
    | mark g =>
        obtain rfl := Option.some.inj hf
        exact h
    | arrow source target => cases hf
  rw [hmark, marks_strokes, List.mem_filter, FormulaMap.mem_keys, FormulaMap.contains_iff]
  rfl

theorem dot_depicts (l : Lineage) :
    ∃ strokes, Drawing.read (String.join l.dot) = some strokes ∧ l.Depicted strokes := by
  refine ⟨l.strokes, l.read_dot, l.arrows_strokes, l.marks_strokes, fun f hf => ?_⟩
  rw [mark_mem_strokes]
  constructor
  · exact fun ⟨hlearnt, hinvalid⟩ => ⟨Or.inl hlearnt, hinvalid⟩
  · exact fun ⟨hdrawn, hinvalid⟩ => ⟨hdrawn.elim id (hf · hinvalid), hinvalid⟩

/-- A property, which a formula was learnt against; in the end it is invalid like the other. -/
def disproved : Lineage :=
  { origins := .ofList [(⟨2⟩, ⟨⟨1⟩, ⟨10⟩, 1⟩)]
    invalid := .ofList [(⟨1⟩, 0), (⟨2⟩, 1)]
    properties := .ofList [⟨1⟩]
    propertyInvalid := true }

theorem disproved_unmarked :
    (do let l ← ((addProperty {} ⟨1⟩).addOrigin ⟨2⟩ ⟨⟨1⟩, ⟨10⟩, 1⟩).markInvalid ⟨2⟩ 1
        l.markInvalid ⟨1⟩ 0) = .ok disproved ∧
      ∃ strokes, Drawing.read (String.join disproved.dot) = some strokes ∧
        ¬ ∀ f, .mark f ∈ strokes ↔
          (disproved.Learnt f ∨ disproved.IsParent f) ∧ disproved.isInvalid f = true := by
  refine ⟨rfl, _, read_dot _, fun h => ?_⟩
  have hparent : disproved.IsParent ⟨1⟩ := ⟨⟨2⟩, ⟨⟨1⟩, ⟨10⟩, 1⟩, rfl, rfl⟩
  exact absurd ((h ⟨1⟩).mpr ⟨Or.inr hparent, rfl⟩) (by decide)

end Lineage

end Invariance
