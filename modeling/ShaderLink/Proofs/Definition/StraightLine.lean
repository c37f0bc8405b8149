import Mathlib.Data.List.TakeWhile
import Mathlib.Data.Option.Basic
import Mathlib.Logic.Function.Basic
import ShaderLink.Glsl.Signature

/-!
# Straight-line programs

The code of a chain has no branches: each of its lines calls a function, keeps the result of a call
in a new local, or returns a local. This module reads code of that form line by line
(`StraightLine.read?`) and runs what was read (`StraightLine.Program.run?`).

Reading accepts one shape for each kind of line, up to the blanks between its words, and fails on
anything else. What a line was written from is read back from it (`StraightLine.readLine?_text`),
provided that its names are words, that is, are not empty and hold none of the characters that
separate words.

What a program does depends on what its functions do (`StraightLine.Interpretation`): a function may
have any effect on a world, and takes and returns values of any kind. A run is stuck where a call
passes something that has no value, and where a parameter or a local hides the function that is
called. What has been passed, how often and in which order is seen by an interpretation that writes
it into the world.
-/

namespace ShaderLink

namespace StraightLine

/-! ### Lines -/

/-- A line of a straight-line program. -/
inductive Line where
  /-- A call, and nothing is kept of what it returns. -/
  | call (callee : String) (arguments : List String)
  /-- A new local that holds what a call returns. -/
  | define (type name callee : String) (arguments : List String)
  /-- The end of the program, with the value of a parameter or local. -/
  | answer (name : String)
deriving DecidableEq

/-- A straight-line program: a head, and lines between braces. -/
structure Program where
  result : String
  name : String
  parameters : List Argument
  body : List Line
deriving DecidableEq

/-! ### Reading -/

/-- What stands before the first occurrence of a character, and what stands behind it. -/
def cut? (c : Char) (text : List Char) : Option (List Char × List Char) :=
  match text.dropWhile (· ≠ c) with
  | [] => none
  | _ :: rest => some (text.takeWhile (· ≠ c), rest)

/-- The words of a text, which stand between blanks. -/
def words (text : List Char) : List String :=
  ((text.splitOn ' ').filter (· ≠ [])).map String.ofList

/-- The items of a list with commas, each as its words. -/
def items (text : List Char) : List (List String) :=
  if text = [] then [] else (text.splitOn ',').map words

/-- What stands before the first parenthesis, the items up to the next closing one, and the
rest. -/
def parenthesized? (text : List Char) : Option (List String × List (List String) × List Char) := do
  let (before, text) ← cut? '(' text
  let (inside, after) ← cut? ')' text
  return (words before, items inside, after)

/-- An argument of a call: one word. -/
def readArgument? : List String → Option String
  | [name] => some name
  | _ => none

/-- A parameter: its type and its name. -/
def readParameter? : List String → Option Argument
  | [type, name] => some { type, name }
  | _ => none

/-- Reads a line. Without parentheses it has to be the end of the program. -/
def readLine? (text : List Char) : Option Line :=
  match parenthesized? text with
  | some (before, inside, after) => do
    guard (after = [';'])
    let arguments ← inside.mapM readArgument?
    match before with
    | [callee] => some (.call callee arguments)
    | [type, name, "=", callee] => some (.define type name callee arguments)
    | _ => none
  | none => do
    let (before, after) ← cut? ';' text
    guard (after = [])
    match words before with
    | ["return", name] => some (.answer name)
    | _ => none

/-- Reads the head of a program: what it returns, its name, and its parameters. -/
def readHead? (text : List Char) : Option (String × String × List Argument) := do
  let (before, inside, after) ← parenthesized? text
  guard (after = [' ', '{'])
  let parameters ← inside.mapM readParameter?
  match before with
  | [result, name] => some (result, name, parameters)
  | _ => none

/-- What the first line of a text declares, if it is the head of a program. -/
def declared? (code : String) : Option (String × String × List Argument) :=
  (code.toList.splitOn '\n').head?.bind readHead?

/-- **Reads a straight-line program** line by line: its head, its lines, and a closing brace. -/
def read? (code : String) : Option Program :=
  match code.toList.splitOn '\n' with
  | [] => none
  | head :: rest => do
    let (result, name, parameters) ← readHead? head
    guard (rest.getLast? = some ['}'])
    let body ← rest.dropLast.mapM readLine?
    return { result, name, parameters, body }

/-! ### Running -/

/-- What the functions that a program calls do: those whose results are kept return a value, and all
of them have an effect on a world. -/
structure Interpretation (V W : Type) where
  value : String → List V → W → V × W
  action : String → List V → W → W

variable {V W : Type}

/-- The values of parameters and locals. -/
abbrev Locals (V : Type) := String → Option V

/-- Runs lines, and answers what they return and the world after that. The run is stuck at a call of
something that is hidden by a parameter or local, and where a value is missing. -/
def runLines? (I : Interpretation V W) : List Line → Locals V → W → Option (Option V × W)
  | [], _, w => some (none, w)
  | .answer name :: _, locals, w => (locals name).map fun v => (some v, w)
  | .call callee arguments :: rest, locals, w => do
    guard (locals callee).isNone
    let input ← arguments.mapM locals
    runLines? I rest locals (I.action callee input w)
  | .define _ name callee arguments :: rest, locals, w => do
    guard (locals callee).isNone
    let input ← arguments.mapM locals
    let (v, w) := I.value callee input w
    runLines? I rest (Function.update locals name (some v)) w

/-- **Runs a program** on arguments that are given by the names of its parameters. -/
def Program.run? (p : Program) (I : Interpretation V W) (arguments : String → V) (w : W) :
    Option (Option V × W) :=
  runLines? I p.body
    (fun x => if x ∈ p.parameters.map (·.name) then some (arguments x) else none) w

/-! ### Words -/

/-- The characters that separate words. -/
def separators : List Char := [' ', '(', ')', ',', ';', '\n']

/-- A text that is read as one word. -/
structure IsWord (s : String) : Prop where
  ne_nil : s.toList ≠ []
  free : ∀ c ∈ s.toList, c ∉ separators

variable {s : String} {c : Char} {a b t : List Char}

theorem IsWord.not_mem (h : IsWord s) (hc : c ∈ separators) : c ∉ s.toList :=
  fun hs => h.free c hs hc

theorem isWord_of_all (hne : s.toList ≠ [])
    (hfree : s.toList.all (fun c => decide (c ∉ separators)) = true) : IsWord s :=
  ⟨hne, fun c hc => of_decide_eq_true (List.all_eq_true.1 hfree c hc)⟩

/-- A name is a word. -/
theorem isWord_of_isName (h : Glsl.isName s.toList = true) : IsWord s := by
  have hpart : separators.all (fun c => !Glsl.isNamePart c) = true := by decide
  cases hs : s.toList with
  | nil =>
    rw [hs] at h
    cases h
  | cons first rest =>
    rw [hs, Glsl.isName, Bool.and_eq_true, List.all_eq_true] at h
    refine ⟨by rw [hs]; exact List.cons_ne_nil _ _, fun c hc hsep => ?_⟩
    rw [hs] at hc
    -- what a name starts with is something that it may go on with
    have hall : Glsl.isNamePart c = true := by
      obtain rfl | hc := List.mem_cons.1 hc
      · have hstart := h.1
        simp only [Glsl.isNameStart, Glsl.isNamePart, Char.isAlphanum, Bool.decide_or,
          Bool.or_eq_true] at hstart ⊢
        exact hstart.imp_left .inl
      · exact h.2 c hc
    have hnone := List.all_eq_true.1 hpart c hsep
    rw [hall] at hnone
    cases hnone

theorem cut?_append (h : c ∉ a) : cut? c (a ++ c :: b) = some (a, b) := by
  have hall : ∀ x ∈ a, (decide (x ≠ c)) = true := fun x hx =>
    decide_eq_true fun he => h (he ▸ hx)
  unfold cut?
  rw [List.dropWhile_append_of_pos hall, List.takeWhile_append_of_pos hall]
  simp

theorem cut?_eq_none (h : c ∉ t) : cut? c t = none := by
  have hall : ∀ x ∈ t, (decide (x ≠ c)) = true := fun x hx =>
    decide_eq_true fun he => h (he ▸ hx)
  rw [cut?, List.dropWhile_eq_nil_iff.2 hall]

theorem words_cons_blank (t : List Char) : words (' ' :: t) = words t := by
  have hsplit : (' ' :: t).splitOn ' ' = [] :: t.splitOn ' ' :=
    List.splitOn_append_cons_self_of_not_mem List.not_mem_nil t
  rw [words, hsplit]
  rfl

/-- Some words, with a blank between each two of them. -/
def phrase (ws : List String) : List Char := [' '].intercalate (ws.map String.toList)

/-- The words of a phrase are read back. -/
theorem words_phrase {ws : List String} (hws : ws ≠ []) (h : ∀ w ∈ ws, IsWord w) :
    words (phrase ws) = ws := by
  have hblank : ∀ piece ∈ ws.map String.toList, ' ' ∉ piece := fun piece hpiece => by
    obtain ⟨w, hw, rfl⟩ := List.mem_map.1 hpiece
    exact (h w hw).not_mem (by decide)
  have hall : ∀ piece ∈ ws.map String.toList, decide (piece ≠ []) = true := fun piece hpiece => by
    obtain ⟨w, hw, rfl⟩ := List.mem_map.1 hpiece
    exact decide_eq_true (h w hw).ne_nil
  rw [words, phrase, List.splitOn_intercalate _ hblank (by simpa using hws),
    List.filter_eq_self.2 hall, List.map_map]
  exact List.map_id'' (fun w => String.ofList_toList) ws

theorem mem_intercalate {sep : List Char} {l : List (List Char)} (h : c ∈ sep.intercalate l) :
    c ∈ sep ∨ ∃ piece ∈ l, c ∈ piece := by
  induction l with
  | nil => cases h
  | cons piece l ih =>
    cases l with
    | nil => exact .inr ⟨piece, List.mem_cons_self, by simpa using h⟩
    | cons next l =>
      rw [List.intercalate_cons_cons] at h
      obtain h | h := List.mem_append.1 h
      · obtain h | h := List.mem_append.1 h
        · exact .inr ⟨piece, List.mem_cons_self, h⟩
        · exact .inl h
      · exact (ih h).imp_right fun ⟨piece', hpiece', hc⟩ =>
          ⟨piece', List.mem_cons_of_mem _ hpiece', hc⟩

/-- A phrase holds no separators other than blanks. -/
theorem not_mem_phrase {ws : List String} (h : ∀ w ∈ ws, IsWord w) (hc : c ∈ separators)
    (hblank : c ≠ ' ') : c ∉ phrase ws := by
  intro hmem
  obtain hmem | ⟨piece, hpiece, hmem⟩ := mem_intercalate hmem
  · exact hblank (List.mem_singleton.1 hmem)
  · obtain ⟨w, hw, rfl⟩ := List.mem_map.1 hpiece
    exact (h w hw).not_mem hc hmem

/-- Some phrases, with a comma and a blank between each two of them. -/
def enumeration (l : List (List String)) : List Char := [',', ' '].intercalate (l.map phrase)

/-- The blank behind a comma may be taken for a part of the next piece. -/
theorem intercalate_comma_blank (piece : List Char) (l : List (List Char)) :
    [',', ' '].intercalate (piece :: l) = [','].intercalate (piece :: l.map (' ' :: ·)) := by
  induction l generalizing piece with
  | nil => rfl
  | cons next l ih =>
    have hnext : [','].intercalate ((' ' :: next) :: l.map (' ' :: ·)) =
        ' ' :: [','].intercalate (next :: l.map (' ' :: ·)) := by
      cases l <;> simp
    rw [List.intercalate_cons_cons, ih, List.map_cons, List.intercalate_cons_cons, hnext]
    simp

/-- The items of an enumeration are read back. -/
theorem items_enumeration {l : List (List String)} (hne : ∀ ws ∈ l, ws ≠ [])
    (h : ∀ ws ∈ l, ∀ w ∈ ws, IsWord w) : items (enumeration l) = l := by
  cases l with
  | nil => rfl
  | cons first rest =>
    have htext : enumeration (first :: rest) =
        [','].intercalate (phrase first :: (rest.map phrase).map (' ' :: ·)) :=
      intercalate_comma_blank _ _
    have hcomma : ∀ piece ∈ phrase first :: (rest.map phrase).map (' ' :: ·), ',' ∉ piece := by
      intro piece hpiece
      rw [List.map_map, List.mem_cons, List.mem_map] at hpiece
      obtain rfl | ⟨ws, hws, rfl⟩ := hpiece
      · exact not_mem_phrase (h first List.mem_cons_self) (by decide) (by decide)
      · have hws := not_mem_phrase (c := ',') (h ws (List.mem_cons_of_mem _ hws)) (by decide)
          (by decide)
        simpa using hws
    have hsome : enumeration (first :: rest) ≠ [] := by
      intro hnil
      have hfirst : phrase first = [] := by
        rw [htext] at hnil
        cases rest with
        | nil => simpa using hnil
        | cons ws rest => simp at hnil
      have hwords := words_phrase (hne first List.mem_cons_self) (h first List.mem_cons_self)
      rw [hfirst] at hwords
      exact hne first List.mem_cons_self hwords.symm
    rw [items, if_neg hsome, htext, List.splitOn_intercalate _ hcomma (List.cons_ne_nil _ _),
      List.map_cons, words_phrase (hne first List.mem_cons_self) (h first List.mem_cons_self),
      List.map_map, List.map_map]
    refine congrArg _ ((List.map_congr_left fun ws hws => ?_).trans rest.map_id)
    have hmem := List.mem_cons_of_mem first hws
    exact (words_cons_blank _).trans (words_phrase (hne ws hmem) (h ws hmem))

theorem not_mem_enumeration {l : List (List String)} (h : ∀ ws ∈ l, ∀ w ∈ ws, IsWord w)
    (hc : c ∈ separators) (hblank : c ≠ ' ') (hcomma : c ≠ ',') : c ∉ enumeration l := by
  intro hmem
  obtain hmem | ⟨piece, hpiece, hmem⟩ := mem_intercalate hmem
  · simp [hblank, hcomma] at hmem
  · obtain ⟨ws, hws, rfl⟩ := List.mem_map.1 hpiece
    exact not_mem_phrase (h ws hws) hc hblank hmem

theorem parenthesized?_append (ha : '(' ∉ a) (hb : ')' ∉ b) :
    parenthesized? (a ++ '(' :: (b ++ ')' :: t)) = some (words a, items b, t) := by
  rw [parenthesized?, cut?_append ha]
  dsimp only [Option.bind_eq_bind, Option.bind_some]
  rw [cut?_append hb]
  rfl

/-! ### Reading what was written -/

/-- A line as it is written. -/
def Line.text : Line → String
  | call callee arguments => "    " ++ callee ++ "(" ++ ", ".intercalate arguments ++ ");"
  | define type name callee arguments =>
    "    " ++ type ++ " " ++ name ++ " = " ++ callee ++ "(" ++ ", ".intercalate arguments ++ ");"
  | answer name => "    return " ++ name ++ ";"

/-- The names that a line is made of. -/
def Line.names : Line → List String
  | call callee arguments => callee :: arguments
  | define type name callee arguments => type :: name :: callee :: arguments
  | answer name => [name]

/-- Words with commas between them are the items of an enumeration. -/
theorem toList_intercalate_comma (ws : List String) :
    (", ".intercalate ws).toList = enumeration (ws.map fun w => [w]) := by
  have hcomma : ", ".toList = [',', ' '] := rfl
  have hphrase : phrase ∘ (fun w => [w]) = String.toList := by
    funext w
    simp [phrase]
  rw [String.toList_intercalate, hcomma, enumeration, List.map_map, hphrase]

/-- The words that a line begins with. -/
def indented (ws : List String) : List Char := ' ' :: ' ' :: ' ' :: ' ' :: phrase ws

theorem words_indented {ws : List String} (hws : ws ≠ []) (h : ∀ w ∈ ws, IsWord w) :
    words (indented ws) = ws := by
  rw [indented, words_cons_blank, words_cons_blank, words_cons_blank, words_cons_blank,
    words_phrase hws h]

theorem not_mem_indented {ws : List String} (h : ∀ w ∈ ws, IsWord w) (hc : c ∈ separators)
    (hblank : c ≠ ' ') : c ∉ indented ws := by
  simpa [indented, hblank] using not_mem_phrase h hc hblank

/-- A line that calls something: its words, and the arguments of the call. -/
theorem parenthesized?_line {ws arguments : List String} (hws : ws ≠ []) (h : ∀ w ∈ ws, IsWord w)
    (harguments : ∀ w ∈ arguments, IsWord w) :
    parenthesized? (indented ws ++ '(' ::
      ((", ".intercalate arguments).toList ++ ')' :: [';'])) =
    some (ws, arguments.map fun w => [w], [';']) := by
  have hitems : ∀ item ∈ arguments.map (fun w => [w]), ∀ w ∈ item, IsWord w := by
    intro item hitem w hw
    obtain ⟨v, hv, rfl⟩ := List.mem_map.1 hitem
    exact List.mem_singleton.1 hw ▸ harguments v hv
  have hne : ∀ item ∈ arguments.map (fun w => [w]), item ≠ [] := by
    intro item hitem
    obtain ⟨v, -, rfl⟩ := List.mem_map.1 hitem
    exact List.cons_ne_nil v []
  rw [toList_intercalate_comma]
  have hread := parenthesized?_append (t := [';'])
    (not_mem_indented (c := '(') h (by decide) (by decide))
    (not_mem_enumeration (c := ')') hitems (by decide) (by decide) (by decide))
  rw [words_indented hws h, items_enumeration hne hitems] at hread
  exact hread

theorem mapM_eq_some_self {α β : Type} {f : α → β} {g : β → Option α} {l : List α}
    (h : ∀ a ∈ l, g (f a) = some a) : (l.map f).mapM g = some l := by
  induction l with
  | nil => rfl
  | cons a l ih =>
    rw [List.map_cons, List.mapM_cons, h a List.mem_cons_self,
      ih fun b hb => h b (List.mem_cons_of_mem a hb)]
    rfl

theorem mapM_readArgument? (arguments : List String) :
    (arguments.map fun w => [w]).mapM readArgument? = some arguments :=
  mapM_eq_some_self fun _ _ => rfl

/-- **A line is read back** from what was written. -/
theorem readLine?_text {l : Line} (h : ∀ w ∈ l.names, IsWord w) :
    readLine? l.text.toList = some l := by
  cases l with
  | call callee arguments =>
    have hwords : ∀ w ∈ [callee], IsWord w := fun w hw => h w (List.mem_append_left arguments hw)
    have hparens := parenthesized?_line (List.cons_ne_nil _ _) hwords fun w hw =>
      h w (List.mem_cons_of_mem _ hw)
    have htext : (Line.call callee arguments).text.toList = indented [callee] ++ '(' ::
        ((", ".intercalate arguments).toList ++ ')' :: [';']) := by
      simp [Line.text, indented, phrase]
    rw [htext, readLine?, hparens]
    dsimp only
    rw [mapM_readArgument?]
    rfl
  | define type name callee arguments =>
    have hnames : ∀ w ∈ [type, name, callee], IsWord w := fun w hw => h w
      (List.mem_append_left arguments hw)
    have hwords : ∀ w ∈ [type, name, "=", callee], IsWord w := by
      have heq : IsWord "=" := isWord_of_all (by decide) (by decide)
      simpa [heq] using hnames
    have hparens := parenthesized?_line (List.cons_ne_nil _ _) hwords fun w hw =>
      h w (List.mem_append_right [type, name, callee] hw)
    have htext : (Line.define type name callee arguments).text.toList =
        indented [type, name, "=", callee] ++ '(' ::
          ((", ".intercalate arguments).toList ++ ')' :: [';']) := by
      simp [Line.text, indented, phrase]
    rw [htext, readLine?, hparens]
    dsimp only
    rw [mapM_readArgument?]
    rfl
  | answer name =>
    have hname : IsWord name := h name List.mem_cons_self
    have hwords : ∀ w ∈ ["return", name], IsWord w := by
      have hreturn : IsWord "return" := isWord_of_all (by decide) (by decide)
      simpa [hreturn] using hname
    have htext : (Line.answer name).text.toList = indented ["return", name] ++ [';'] := by
      simp [Line.text, indented, phrase]
    -- there is no call in the line
    have hopen : '(' ∉ indented ["return", name] ++ [';'] := by
      simpa using not_mem_indented (c := '(') hwords (by decide) (by decide)
    have hnone : parenthesized? (indented ["return", name] ++ [';']) = none := by
      rw [parenthesized?, cut?_eq_none hopen]
      rfl
    rw [htext, readLine?, hnone]
    dsimp only
    rw [cut?_append (not_mem_indented hwords (by decide) (by decide))]
    dsimp only [Option.bind_eq_bind, Option.bind_some]
    rw [words_indented (List.cons_ne_nil _ _) hwords]
    rfl

theorem newline_not_mem_text {l : Line} (h : ∀ w ∈ l.names, IsWord w) : '\n' ∉ l.text.toList := by
  have hnames : ∀ w ∈ l.names, '\n' ∉ w.toList := fun w hw => (h w hw).not_mem (by decide)
  have hlist : ∀ ws : List String, (∀ w ∈ ws, w ∈ l.names) →
      '\n' ∉ (", ".intercalate ws).toList := by
    intro ws hws
    rw [toList_intercalate_comma]
    refine not_mem_enumeration (fun item hitem w hw => ?_) (by decide) (by decide) (by decide)
    obtain ⟨v, hv, rfl⟩ := List.mem_map.1 hitem
    exact List.mem_singleton.1 hw ▸ h v (hws v hv)
  cases l with
  | call callee arguments =>
    have harguments := hlist arguments fun w hw => List.mem_cons_of_mem _ hw
    simp_all [Line.text, Line.names]
  | define type name callee arguments =>
    have harguments := hlist arguments fun w hw => List.mem_append_right [type, name, callee] hw
    simp_all [Line.text, Line.names]
  | answer name => simp_all [Line.text, Line.names]

/-- A program as it is written. -/
def Program.text (p : Program) : String :=
  p.result ++ " " ++ p.name ++ "(" ++
    ", ".intercalate (p.parameters.map fun a => a.type ++ " " ++ a.name) ++ ") \x7b\n" ++
    String.join (p.body.map fun l => l.text ++ "\n") ++ "\x7d"

/-- The names that a program is made of. -/
def Program.names (p : Program) : List String :=
  p.result :: p.name :: (p.parameters.flatMap (fun a => [a.type, a.name]) ++ p.body.flatMap Line.names)

/-- The head of a program as it is written. -/
def Program.head (p : Program) : List Char :=
  phrase [p.result, p.name] ++ '(' ::
    (enumeration (p.parameters.map fun a => [a.type, a.name]) ++ ')' :: [' ', '{'])

theorem mapM_readParameter? (parameters : List Argument) :
    (parameters.map fun a => [a.type, a.name]).mapM readParameter? = some parameters :=
  mapM_eq_some_self fun _ _ => rfl

variable {p : Program}

theorem isWord_of_parameter (h : ∀ w ∈ p.names, IsWord w) :
    ∀ item ∈ p.parameters.map (fun a => [a.type, a.name]), ∀ w ∈ item, IsWord w := by
  intro item hitem w hw
  obtain ⟨a, ha, rfl⟩ := List.mem_map.1 hitem
  exact h w (List.mem_append_left _ (List.mem_flatMap.2 ⟨a, ha, hw⟩) |> List.mem_cons_of_mem _ |>
    List.mem_cons_of_mem _)

theorem isWord_of_line (h : ∀ w ∈ p.names, IsWord w) {l : Line} (hl : l ∈ p.body) :
    ∀ w ∈ l.names, IsWord w :=
  fun w hw => h w (List.mem_cons_of_mem _ (List.mem_cons_of_mem _
    (List.mem_append_right _ (List.mem_flatMap.2 ⟨l, hl, hw⟩))))

theorem readHead?_head (h : ∀ w ∈ p.names, IsWord w) :
    readHead? p.head = some (p.result, p.name, p.parameters) := by
  have hwords : ∀ w ∈ [p.result, p.name], IsWord w := fun w hw => h w
    (List.mem_append_left (p.parameters.flatMap _ ++ p.body.flatMap _) hw)
  have hne : ∀ item ∈ p.parameters.map (fun a => [a.type, a.name]), item ≠ [] := by
    intro item hitem
    obtain ⟨a, -, rfl⟩ := List.mem_map.1 hitem
    exact List.cons_ne_nil _ _
  have hitems := isWord_of_parameter h
  have hread := parenthesized?_append (t := [' ', '{'])
    (not_mem_phrase (c := '(') hwords (by decide) (by decide))
    (not_mem_enumeration (c := ')') hitems (by decide) (by decide) (by decide))
  rw [words_phrase (List.cons_ne_nil _ _) hwords, items_enumeration hne hitems] at hread
  rw [Program.head, readHead?, hread]
  dsimp only [Option.bind_eq_bind, Option.bind_some]
  rw [mapM_readParameter?]
  rfl

theorem newline_not_mem_head (h : ∀ w ∈ p.names, IsWord w) : '\n' ∉ p.head := by
  have hwords : ∀ w ∈ [p.result, p.name], IsWord w := fun w hw => h w
    (List.mem_append_left (p.parameters.flatMap _ ++ p.body.flatMap _) hw)
  have hphrase := not_mem_phrase (c := '\n') hwords (by decide) (by decide)
  have hparameters := not_mem_enumeration (c := '\n') (isWord_of_parameter h) (by decide) (by decide)
    (by decide)
  simp [Program.head, hphrase, hparameters]

/-- The first line of a program as it is written. -/
theorem toList_opening (p : Program) : (p.result ++ " " ++ p.name ++ "(" ++
    ", ".intercalate (p.parameters.map fun a => a.type ++ " " ++ a.name) ++ ") \x7b\n").toList =
      p.head ++ ['\n'] := by
  have hparameters : (", ".intercalate (p.parameters.map fun a => a.type ++ " " ++ a.name)).toList =
      enumeration (p.parameters.map fun a => [a.type, a.name]) := by
    have hcomma : ", ".toList = [',', ' '] := rfl
    rw [String.toList_intercalate, hcomma, enumeration, List.map_map, List.map_map]
    refine congrArg _ (List.map_congr_left fun a _ => ?_)
    simp [phrase]
  simp [Program.head, phrase, hparameters]

/-- A text that begins with the first line of a program declares what the program does. -/
theorem declared?_opening (h : ∀ w ∈ p.names, IsWord w) (rest : String) :
    declared? (p.result ++ " " ++ p.name ++ "(" ++
      ", ".intercalate (p.parameters.map fun a => a.type ++ " " ++ a.name) ++ ") \x7b\n" ++ rest) =
        some (p.result, p.name, p.parameters) := by
  rw [declared?, String.toList_append, toList_opening, List.append_assoc, List.singleton_append,
    List.splitOn_append_cons_self_of_not_mem (newline_not_mem_head h), List.head?_cons,
    Option.bind_some, readHead?_head h]

/-- The lines of a program as it is written. -/
theorem toList_text (p : Program) :
    p.text.toList = ['\n'].intercalate (p.head :: (p.body.map (·.text.toList) ++ [['}']])) := by
  have hlines : ∀ body : List Line, (String.join (body.map fun l => l.text ++ "\n") ++ "\x7d").toList =
      ['\n'].intercalate (body.map (·.text.toList) ++ [['}']]) := by
    intro body
    induction body with
    | nil => rfl
    | cons l body ih =>
      rw [List.map_cons, List.map_cons, List.cons_append, String.join_cons,
        List.intercalate_cons_of_ne_nil (by simp), ← ih]
      simp
  rw [List.intercalate_cons_of_ne_nil (by simp), ← hlines, Program.text, String.append_assoc,
    String.toList_append, toList_opening, List.append_assoc]

/-- **A program is read back** from what was written. -/
theorem read?_text (h : ∀ w ∈ p.names, IsWord w) : read? p.text = some p := by
  have hnewline : ∀ line ∈ p.head :: (p.body.map (·.text.toList) ++ [['}']]), '\n' ∉ line := by
    intro line hline
    obtain rfl | hline := List.mem_cons.1 hline
    · exact newline_not_mem_head h
    · obtain hline | hline := List.mem_append.1 hline
      · obtain ⟨l, hl, rfl⟩ := List.mem_map.1 hline
        exact newline_not_mem_text (isWord_of_line h hl)
      · rw [List.mem_singleton.1 hline]
        decide
  have hbody : (p.body.map (·.text.toList)).mapM readLine? = some p.body := by
    exact mapM_eq_some_self fun l hl => readLine?_text (isWord_of_line h hl)
  rw [read?, toList_text, List.splitOn_intercalate _ hnewline (List.cons_ne_nil _ _)]
  dsimp only
  rw [readHead?_head h]
  dsimp only [Option.bind_eq_bind, Option.bind_some]
  rw [List.getLast?_concat, List.dropLast_concat, hbody]
  rfl

end StraightLine

end ShaderLink
