import Mathlib.Data.List.Basic
import ShaderLink.Glsl.Declaration
import ShaderLink.Proofs.Glsl.Scan
import ShaderLink.Proofs.Text.Dedent

/-!
# Lines that declare variables

A line that declares variables is written as a type, which may stand behind a qualifier, and a list
of names with commas between them, each of which may be given an initial value
(`Glsl.DeclarationLine`).

The scan of a declaration knows names and commas, and ends at an equality sign just as at a semicolon
(`Scan.declaration_append`). So it reads the names up to the first one that has an initial value
(`Glsl.DeclarationLine.seen`), which are all names just if none but the last has one
(`Glsl.DeclarationLine.map_seen_eq_iff`).

The variables of a line are among those of all code that has the line, also after the code is
dedented, which leaves the line less indented (`Glsl.DeclarationLine.mem_findAll_dedent`).
-/

namespace ShaderLink

variable {s : List Char}

namespace Glsl

/-! ### Declarations as they are written -/

/-- An initial value: any text without commas, semicolons and line feeds. -/
structure InitialValue where
  chars : List Char
  plain : ∀ c ∈ chars, c ≠ ',' ∧ c ≠ ';' ∧ c ≠ '\n'

/-- A name with the initial value it is given, if it is, and what stands before the equality
sign. -/
structure Declarator where
  name : Word
  initial : Option (Blanks × InitialValue)

/-- An initial value behind a name, as it is written. -/
def initialChars : Option (Blanks × InitialValue) → List Char
  | none => []
  | some (b, v) => b.chars ++ '=' :: v.chars

/-- A name with its initial value, as it is written. -/
def Declarator.chars (d : Declarator) : List Char := d.name.text.toList ++ initialChars d.initial

/-- A qualifier in front of a type, as it is written. -/
def qualifierChars : Option (Qualifier × Gap) → List Char
  | none => []
  | some (q, g) => q.keyword.toList ++ g.chars

/-- A line that declares variables. -/
structure DeclarationLine where
  indentation : Blanks
  qualifier : Option (Qualifier × Gap)
  type : TypeWord
  gap : Gap
  first : Declarator
  /-- Commas with what separates them from their neighbours, each with the name behind it. -/
  more : List (Blanks × Blanks × Declarator)
  beforeEnd : Blanks

/-- Up to the first name that is given an initial value, which ends what is seen. -/
def upToInitial : List Declarator → List Declarator
  | [] => []
  | d :: ds => if d.initial.isSome then [d] else d :: upToInitial ds

namespace DeclarationLine

/-- The line between its indentation and its semicolon. -/
def unindented (l : DeclarationLine) : List Char :=
  qualifierChars l.qualifier ++ (l.type.text.toList ++ (l.gap.chars ++
    (l.first.chars ++ (Scan.separated Declarator.chars l.more ++ l.beforeEnd.chars))))

/-- The line up to its semicolon. -/
def body (l : DeclarationLine) : List Char := l.indentation.chars ++ l.unindented

/-- The line as it is written. -/
def chars (l : DeclarationLine) : List Char := l.body ++ [';']

/-- The names that are declared. -/
def declarators (l : DeclarationLine) : List Declarator := l.first :: l.more.map (·.2.2)

/-- The names that are read. -/
def seen (l : DeclarationLine) : List Declarator := upToInitial l.declarators

/-- The variable of a name, with the qualifier and the type of the line. -/
def variableOf (l : DeclarationLine) (d : Declarator) : ProgramVariable where
  name := d.name.text
  qualifier := l.qualifier.map (·.1)
  type := l.type.text

end DeclarationLine

/-! ### Reading declarations -/

/-- The keyword of a qualifier is a name. -/
def qualifierWord (q : Qualifier) : Word where
  text := q.keyword
  isName := by cases q <;> decide +kernel

/-- No type is the keyword of a qualifier. -/
theorem TypeWord.ofKeyword?_eq_none (t : TypeWord) : Qualifier.ofKeyword? t.text = none := by
  have htypes : ∀ w ∈ types, Qualifier.ofKeyword? w = none := by decide +kernel
  exact htypes t.text (by simpa [Glsl.isType] using t.isType)

namespace Scan

theorem qualifier_append (q : Qualifier) {r : List Char} (hr : Stops isNamePart r) :
    qualifier (q.keyword.toList ++ r) = some (q, r) := by
  refine bind_of (name_append (qualifierWord q) hr) ?_
  show (Qualifier.ofKeyword? q.keyword).bind (fun q => some (q, r)) = some (q, r)
  rw [Qualifier.ofKeyword?_keyword, Option.bind_some]

theorem qualifier_eq_none (t : TypeWord) {r : List Char} (hr : Stops isNamePart r) :
    qualifier (t.text.toList ++ r) = none := by
  refine bind_eq_none_of (name_append t.word hr) ?_
  show (Qualifier.ofKeyword? t.text).bind (fun q => some (q, r)) = none
  rw [t.ofKeyword?_eq_none, Option.bind_none]

/-- Names behind the first one of a list, as they are written. -/
abbrev namesChars (more : List (Blanks × Blanks × Word)) : List Char :=
  separated (·.text.toList) more

/-- Names with commas between them are read to the end of the list. -/
theorem names_append (w : Word) (more : List (Blanks × Blanks × Word)) {r : List Char}
    (hr : Stops isNamePart r) (hend : comma r = none) :
    items1 name (w.text.toList ++ (namesChars more ++ r)) =
      some (w.text :: more.map (·.2.2.text), r) := by
  have hcomma : ∀ (b : Blanks) s, Stops isNamePart (b.chars ++ ',' :: s) :=
    fun b s => b.stops_isNamePart (stops_cons.2 (by decide))
  refine bind_of (name_append w (goesOn_separated hcomma hr more)) ?_
  exact bind_of (congrArg some (moreItems_separated (fun w _ h => name_append w h)
    Word.stops_isSpace hcomma hr hend more)) (run_pure _ _)

/-- A qualifier is read if there is one. -/
theorem optionalQualifier_append (q : Option (Qualifier × Gap)) (t : TypeWord) {r : List Char}
    (hr : Stops isNamePart r) :
    ((do let q ← qualifier; spaces1; return some q) <|> pure none : Scan (Option Qualifier))
      (qualifierChars q ++ (t.text.toList ++ r)) = some (q.map (·.1), t.text.toList ++ r) := by
  cases q with
  | none => exact orElse_right (bind_eq_none (qualifier_eq_none t hr))
  | some q =>
    obtain ⟨q, g⟩ := q
    rw [qualifierChars, List.append_assoc]
    exact orElse_left (bind_of (qualifier_append q (g.stops_isNamePart _))
      (bind_of (spaces1_append g (t.word.stops_isSpace _)) (run_pure _ _)))

/-- **A declaration of names is read up to the semicolon or the first initial value.** -/
theorem declaration_append (q : Option (Qualifier × Gap)) (t : TypeWord) (g : Gap) (w : Word)
    (more : List (Blanks × Blanks × Word)) (b : Blanks) {c : Char} (hc : c = '=' ∨ c = ';')
    (r : List Char) :
    declaration (qualifierChars q ++ (t.text.toList ++ (g.chars ++ (w.text.toList ++
      (namesChars more ++ (b.chars ++ c :: r)))))) =
        some ((w :: more.map (·.2.2)).map fun w => ⟨w.text, q.map (·.1), t.text⟩, r) := by
  have hspace : Stops isSpace (c :: r) := by
    obtain rfl | rfl := hc <;> exact stops_cons.2 (by decide)
  have hname : Stops isNamePart (b.chars ++ c :: r) := by
    refine b.stops_isNamePart (stops_cons.2 ?_)
    obtain rfl | rfl := hc <;> decide
  have hcomma : comma (b.chars ++ c :: r) = none := by
    refine comma_eq_none b hspace ?_
    obtain rfl | rfl := hc <;> simp
  have hread : (char '=' <|> char ';' : Scan Unit) (c :: r) = some ((), r) := by
    obtain rfl | rfl := hc <;> rfl
  refine bind_of (optionalQualifier_append q t (g.stops_isNamePart _)) ?_
  refine bind_of (typeName_append t (g.stops_isNamePart _)) ?_
  refine bind_of (spaces1_append g (w.stops_isSpace _)) ?_
  refine bind_of (names_append w more hname hcomma) (bind_of (spaces_append b hspace) ?_)
  refine bind_of hread ?_
  simp [run_pure]

end Scan

namespace DeclarationLine

/-- What is declared, written from the first name on, are the names that are seen, up to an equality
sign or the semicolon. -/
theorem exists_names (d : Declarator) (more : List (Blanks × Blanks × Declarator)) (b : Blanks) :
    ∃ (names : List (Blanks × Blanks × Word)) (b' : Blanks) (c : Char) (r : List Char),
      (c = '=' ∨ c = ';') ∧
      d.name :: names.map (·.2.2) = (upToInitial (d :: more.map (·.2.2))).map (·.name) ∧
      d.chars ++ (Scan.separated Declarator.chars more ++ (b.chars ++ [';'])) =
        d.name.text.toList ++ (Scan.namesChars names ++ (b'.chars ++ c :: r)) := by
  induction more generalizing d with
  | nil =>
    obtain ⟨name, _ | ⟨b', v⟩⟩ := d
    · exact ⟨[], b, ';', [], .inr rfl, rfl, by
        simp [Declarator.chars, initialChars, Scan.separated]⟩
    · exact ⟨[], b', '=', v.chars ++ (b.chars ++ [';']), .inl rfl, rfl, by
        simp [Declarator.chars, initialChars, Scan.separated]⟩
  | cons m more ih =>
    obtain ⟨b₁, b₂, next⟩ := m
    obtain ⟨name, _ | ⟨b', v⟩⟩ := d
    · obtain ⟨names, b', c, r, hc, hnames, htext⟩ := ih next
      refine ⟨(b₁, b₂, next.name) :: names, b', c, r, hc, ?_, ?_⟩
      · exact congrArg (name :: ·) hnames
      · simpa [Declarator.chars, initialChars, Scan.separated] using htext
    · refine ⟨[], b', '=', v.chars ++ (Scan.separated Declarator.chars ((b₁, b₂, next) :: more) ++
        (b.chars ++ [';'])), .inl rfl, rfl, ?_⟩
      simp [Declarator.chars, initialChars, Scan.separated]

variable (l : DeclarationLine)

/-- **A line that declares variables is read as the names that are seen.** -/
theorem scan?_declaration :
    scan? Scan.declaration l.chars = some (l.seen.map l.variableOf) := by
  obtain ⟨names, b, c, r, hc, hnames, htext⟩ := exists_names l.first l.more l.beforeEnd
  have hchars : l.chars = l.indentation.chars ++ (qualifierChars l.qualifier ++
      (l.type.text.toList ++ (l.gap.chars ++ (l.first.name.text.toList ++
        (Scan.namesChars names ++ (b.chars ++ c :: r)))))) := by
    simp [chars, body, unindented, ← htext]
  have hstart : Stops isSpace (qualifierChars l.qualifier ++ (l.type.text.toList ++ (l.gap.chars ++
      (l.first.name.text.toList ++ (Scan.namesChars names ++ (b.chars ++ c :: r)))))) := by
    cases l.qualifier with
    | none => exact l.type.word.stops_isSpace _
    | some q =>
      rw [qualifierChars, List.append_assoc]
      exact (qualifierWord q.1).stops_isSpace _
  rw [hchars, scan?_append l.indentation hstart
    (Scan.declaration_append l.qualifier l.type l.gap l.first.name names b hc r), hnames,
    List.map_map]
  rfl

theorem findAll_chars (h : '\n' ∉ l.chars) :
    ProgramVariable.findAll l.chars = l.seen.map l.variableOf := by
  have hne : l.chars ≠ [] := by simp [chars]
  rw [ProgramVariable.findAll, Text.lines_of_not_mem hne h, List.filterMap_cons,
    l.scan?_declaration]
  exact List.append_nil _

theorem upToInitial_eq_iff (ds : List Declarator) :
    upToInitial ds = ds ↔ ∀ d ∈ ds.dropLast, d.initial = none := by
  induction ds with
  | nil => simp [upToInitial]
  | cons d ds ih =>
    cases ds with
    | nil => cases hinitial : d.initial <;> simp [upToInitial, hinitial]
    | cons e ds =>
      rw [List.dropLast_cons_cons, List.forall_mem_cons, ← ih, upToInitial]
      cases hinitial : d.initial with
      | none => simp
      | some v => simp

theorem seen_prefix : l.seen <+: l.declarators := by
  have hprefix : ∀ ds, upToInitial ds <+: ds := by
    intro ds
    induction ds with
    | nil => exact List.prefix_rfl
    | cons d ds ih =>
      rw [upToInitial]
      split
      · exact ⟨ds, rfl⟩
      · exact (List.prefix_cons_inj d).2 ih
  exact hprefix l.declarators

/-- **All names are read just if none but the last has an initial value.** -/
theorem map_seen_eq_iff : l.seen.map l.variableOf = l.declarators.map l.variableOf ↔
    ∀ d ∈ l.declarators.dropLast, d.initial = none := by
  rw [← upToInitial_eq_iff]
  refine ⟨fun h => l.seen_prefix.eq_of_length ?_, fun h => congrArg _ h⟩
  simpa using congrArg List.length h

/-! ### Lines of code -/

theorem stops_isBlank_unindented : Stops Text.isBlank l.unindented := by
  have hword : ∀ (w : Word) (r : List Char), Stops Text.isBlank (w.text.toList ++ r) := by
    intro w r
    obtain ⟨c, s, hs, hc, -⟩ := w.exists_cons
    rw [hs, List.cons_append, stops_cons]
    exact Bool.eq_false_iff.2 fun hblank => by simp [isNameStart_of_isBlank hblank] at hc
  unfold unindented
  cases l.qualifier with
  | none => exact hword l.type.word _
  | some q =>
    rw [qualifierChars, List.append_assoc]
    exact hword (qualifierWord q.1) _

/-- Blanks that are cut off in front are cut off the indentation. -/
theorem exists_of_cutOf {cut : List Char} (h : Text.CutOf l.body cut) :
    ∃ b : Blanks, { l with indentation := b }.body = cut := by
  obtain ⟨blanks, hbody, hblanks⟩ := h
  have hsplit : l.indentation.chars ++ l.unindented = blanks ++ cut := hbody
  obtain ⟨t, rfl, ht⟩ | ⟨t, hindentation, rfl⟩ := List.append_eq_append_iff.1 hsplit
  · -- nothing behind the indentation is blank
    cases t with
    | nil => exact ⟨.none, ht⟩
    | cons c t =>
      have hc : Text.isBlank c = true := hblanks c (by simp)
      have hstart := l.stops_isBlank_unindented
      rw [ht, List.cons_append, stops_cons, hc] at hstart
      cases hstart
  · exact ⟨⟨t, fun c hc => l.indentation.isSpace_of_mem c (by simp [hindentation, hc])⟩, rfl⟩

variable {l} {code dedented : List Char} {d : Declarator}

/-- The variables of a line are among those of the code. -/
theorem mem_findAll (hl : l.chars ∈ Text.lines code) (hd : d ∈ l.seen) :
    l.variableOf d ∈ ProgramVariable.findAll code :=
  List.mem_flatten.2 ⟨_, List.mem_filterMap.2 ⟨_, hl, l.scan?_declaration⟩,
    List.mem_map_of_mem hd⟩

/-- **The variables of a line are among those of the dedented code.** -/
theorem mem_findAll_dedent (h : Text.dedent code = some dedented) (hl : l.chars ∈ Text.lines code)
    (hd : d ∈ l.seen) : l.variableOf d ∈ ProgramVariable.findAll dedented := by
  obtain ⟨cut, hcut, hmem⟩ := Text.exists_mem_lines_dedent h hl (by decide)
  obtain ⟨b, rfl⟩ := l.exists_of_cutOf hcut
  exact mem_findAll (l := { l with indentation := b }) hmem hd

end DeclarationLine

end Glsl

/-- A line that declares one variable declares nothing else. -/
theorem ProgramVariable.findAll_line (q : Qualifier) (g : Glsl.Gap) (t : Glsl.TypeWord)
    (g' : Glsl.Gap) (w : Glsl.Word) (b : Glsl.Blanks) {c : Char} (hc : c = '=' ∨ c = ';')
    {r : List Char} (hs : s = q.keyword.toList ++ (g.chars ++ (t.text.toList ++ (g'.chars ++
      (w.text.toList ++ (b.chars ++ c :: r)))))) (hline : '\n' ∉ s) :
    findAll s = [⟨w.text, some q, t.text⟩] := by
  have hstart : Glsl.Stops Glsl.isSpace s := hs ▸ (Glsl.qualifierWord q).stops_isSpace _
  have hne : s ≠ [] := by
    rintro rfl
    simp at hs
  have hread : Glsl.scan? Glsl.Scan.declaration s = some [⟨w.text, some q, t.text⟩] := by
    rw [Glsl.scan?_of_stops _ hstart, hs, ← List.append_assoc]
    exact congrArg (Option.map (·.1)) (Glsl.Scan.declaration_append (some (q, g)) t g' w [] b hc r)
  rw [findAll, Text.lines_of_not_mem hne hline, List.filterMap_cons, hread]
  rfl

end ShaderLink
