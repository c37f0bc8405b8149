import Mathlib.Data.List.DropRight
import ShaderLink.Proofs.Glsl.LineStarts

/-!
# How often definitions are found

Code is a list of function definitions, each on lines of its own and with blank lines above it
(`WrittenFunction`). No line of a definition but the first one starts a signature: those of the head
never do, those of the body do not by assumption, and what comes behind the function makes no
difference (`WrittenFunction.silent_definition`).

A definition is found from where it starts. It is found again from each line directly above it that
has separating characters only, since these are skipped over any number of lines; any other blank
character hides it from the lines above (`BlankLine.findAll_text`). So it is found once just if no
such line stands directly above it (`findAll_written`).
-/

namespace ShaderLink

namespace Glsl

variable {s : List Char} {c : Char}

/-! ### Blank lines -/

/-- A line that has blank characters only. -/
structure BlankLine where
  chars : List Char
  isBlankLine : Text.isBlankLine chars = true
  newline_notMem : '\n' ∉ chars

namespace BlankLine

/-- Whether a scan skips a blank line, which it does not if one of the blank characters is none of
those that separate tokens. -/
def isSkipped (line : BlankLine) : Bool := line.chars.all isSpace

/-- Lines as they are written, each with the line feed that ends it. -/
def text (lines : List BlankLine) : List Char := lines.flatMap fun line => line.chars ++ ['\n']

theorem text_cons (line : BlankLine) (lines : List BlankLine) (s : List Char) :
    text (line :: lines) ++ s = line.chars ++ '\n' :: (text lines ++ s) := by
  simp [text]

theorem text_concat (lines : List BlankLine) (line : BlankLine) (s : List Char) :
    text (lines ++ [line]) ++ s = text lines ++ (line.chars ++ '\n' :: s) := by
  simp [text]

variable (line : BlankLine) (lines : List BlankLine)

theorem scan?_append (s : List Char) :
    scan? Scan.signature (line.chars ++ '\n' :: s) =
      if line.isSkipped then scan? Scan.signature s else none := by
  by_cases h : line.isSkipped = true
  · have hspace : ∀ c ∈ line.chars ++ ['\n'], isSpace c = true := by
      intro c hc
      obtain hc | hc := List.mem_append.1 hc
      · exact List.all_eq_true.1 h c hc
      · obtain rfl := List.mem_singleton.1 hc
        decide
    have hskip := scan?_blanks Scan.signature ⟨line.chars ++ ['\n'], hspace⟩ s
    rw [if_pos h, ← hskip, List.append_assoc, List.singleton_append]
  · rw [if_neg h]
    cases hrest : line.chars.dropWhile isSpace with
    | nil => exact absurd (List.all_eq_true.2 (List.dropWhile_eq_nil_iff.1 hrest)) h
    | cons c t =>
      have hsplit : line.chars = line.chars.takeWhile isSpace ++ c :: t := by
        rw [← hrest, List.takeWhile_append_dropWhile]
      have hblank : Text.isBlank c = true :=
        List.all_eq_true.1 line.isBlankLine c (by rw [hsplit]; simp)
      have hspace : isSpace c = false := stops_cons.1 (hrest ▸ stops_dropWhile line.chars)
      have hskip := scan?_blanks Scan.signature
        ⟨line.chars.takeWhile isSpace, fun _ => List.mem_takeWhile_imp⟩ (c :: (t ++ '\n' :: s))
      rw [hsplit, List.append_assoc, List.cons_append, hskip]
      exact scan?_signature_cons hspace (isNameStart_of_isBlank hblank) _

theorem findAll_append (s : List Char) :
    Signature.findAll (line.chars ++ '\n' :: s) =
      (scan? Scan.signature (line.chars ++ '\n' :: s)).toList ++ Signature.findAll s := by
  rw [Signature.findAll, Text.lineSuffixes_line line.newline_notMem, List.filterMap_cons]
  cases scan? Scan.signature (line.chars ++ '\n' :: s) <;> rfl

/-- Nothing is found from blank lines above a text that starts no signature. -/
theorem findAll_text_of_none (h : scan? Scan.signature s = none) :
    scan? Scan.signature (text lines ++ s) = none ∧
      Signature.findAll (text lines ++ s) = Signature.findAll s := by
  induction lines with
  | nil => exact ⟨h, rfl⟩
  | cons line lines ih =>
    have hnone : scan? Scan.signature (line.chars ++ '\n' :: (text lines ++ s)) = none := by
      rw [scan?_append, ih.1, ite_self]
    rw [text_cons, findAll_append, hnone, ih.2]
    exact ⟨rfl, rfl⟩

/-- **What a text starts with is found again from every line of separating characters directly above
it**, and from no other blank line. -/
theorem findAll_text {found : Signature} (h : scan? Scan.signature s = some found) :
    Signature.findAll (text lines ++ s) =
      List.replicate (lines.rtakeWhile isSkipped).length found ++
        Signature.findAll s := by
  -- line by line from below
  induction lines using List.reverseRecOn generalizing s with
  | nil => rw [List.rtakeWhile_nil]; rfl
  | append_singleton lines line ih =>
    rw [text_concat]
    by_cases hline : line.isSkipped = true
    · have hsome : scan? Scan.signature (line.chars ++ '\n' :: s) = some found := by
        rw [scan?_append, if_pos hline, h]
      rw [ih hsome, findAll_append, hsome, List.rtakeWhile_concat_pos isSkipped _ _ hline,
        List.length_append, List.length_singleton, List.replicate_succ', List.append_assoc]
      rfl
    · have hnone : scan? Scan.signature (line.chars ++ '\n' :: s) = none := by
        rw [scan?_append, if_neg hline]
      rw [(findAll_text_of_none lines hnone).2, findAll_append, hnone,
        List.rtakeWhile_concat_neg isSkipped _ _ hline]
      rfl

theorem paren_notMem_text : '(' ∉ text lines := by
  intro h
  obtain ⟨line, -, h⟩ := List.mem_flatMap.1 h
  obtain h | h := List.mem_append.1 h
  · exact absurd (List.all_eq_true.1 line.isBlankLine _ h) (by decide)
  · exact absurd h (by decide)

end BlankLine

end Glsl

namespace Signature

/-- The signatures read from all line starts of a text but the first. -/
def findBelow (code : List Char) : List Signature :=
  (Text.afterLineFeeds code).filterMap (Glsl.scan? Glsl.Scan.signature)

theorem findAll_eq (code : List Char) :
    findAll code = (Glsl.scan? Glsl.Scan.signature code).toList ++ findBelow code := by
  rw [findAll, Text.lineSuffixes, List.filterMap_cons]
  cases Glsl.scan? Glsl.Scan.signature code <;> rfl

/-- Lines that start no signature do not count. -/
theorem findBelow_append {s r : List Char} (h : Glsl.Silent s r) :
    findBelow (s ++ r) = findBelow r := by
  have hnone : ((Text.afterLineFeeds s).map (· ++ r)).filterMap
      (Glsl.scan? Glsl.Scan.signature) = [] := by
    refine List.filterMap_eq_nil_iff.2 fun t ht => ?_
    obtain ⟨line, hline, rfl⟩ := List.mem_map.1 ht
    exact h line hline
  rw [findBelow, Text.afterLineFeeds_append, List.filterMap_append, hnone]
  rfl

end Signature

namespace Glsl

/-! ### Written functions -/

/-- Separating characters that stay on one line. -/
structure Indentation extends Blanks where
  newline_notMem : '\n' ∉ chars

/-- The definition of a function on lines of its own, with the blank lines above it. -/
structure WrittenFunction where
  above : List BlankLine
  indentation : Indentation
  form : NameForm
  head : Head Named
  /-- What stands between the braces. -/
  body : List Char
  /-- No line of the body starts a signature. What follows the opening brace is not a line of the
  body but the end of the last line of the head. -/
  quiet : ∀ line ∈ Text.afterLineFeeds body, ¬ StartsSignature (line ++ ['}'])
  behind : Indentation

namespace WrittenFunction

/-- The signature that is written. -/
def signature (f : WrittenFunction) : Signature := f.head.signature f.form

/-- The lines of the definition. -/
def definition (f : WrittenFunction) : List Char :=
  f.indentation.chars ++ (f.head.chars Named.chars f.form ++
    '{' :: (f.body ++ '}' :: f.behind.chars))

/-- The blank lines and the lines of the definition. -/
def chars (f : WrittenFunction) : List Char := BlankLine.text f.above ++ f.definition

/-- Functions, each on lines of its own. -/
def code (fs : List WrittenFunction) : List Char := ['\n'].intercalate (fs.map chars)

/-- The lines directly above a definition that have separating characters only. -/
def skippedAbove (f : WrittenFunction) : List BlankLine := f.above.rtakeWhile BlankLine.isSkipped

/-- What follows a function in code: line feeds, each with a function behind it. -/
def rest (fs : List WrittenFunction) : List Char := fs.flatMap fun f => '\n' :: f.chars

theorem code_cons (f : WrittenFunction) (fs : List WrittenFunction) :
    code (f :: fs) = f.chars ++ rest fs := by
  induction fs generalizing f with
  | nil => simp [code, rest]
  | cons g fs ih =>
    calc code (f :: g :: fs)
        = f.chars ++ '\n' :: code (g :: fs) := by
          rw [code, List.map_cons, List.map_cons, List.intercalate_cons_cons, ← List.map_cons,
            ← code, List.append_assoc, List.singleton_append]
      _ = f.chars ++ rest (g :: fs) := by rw [ih g]; rfl

/-! ### What is found in code -/

theorem not_opensList_append {s t : List Char} (hs : '(' ∉ s) (ht : Stops isSpace t)
    (hne : t.head? ≠ some '(') : ¬ OpensList (s ++ t) := by
  rintro ⟨b, u, heq⟩
  obtain ⟨v, hb, rfl⟩ | ⟨v, rfl, hv⟩ := List.append_eq_append_iff.1 heq
  · -- the list would open in the second text, behind separating characters
    cases v with
    | nil => exact hne rfl
    | cons c v =>
      have hc : isSpace c = true := b.isSpace_of_mem c (by simp [hb])
      rw [stops_cons.1 ht] at hc
      cases hc
  · cases v with
    | nil => exact hne (congrArg List.head? hv.symm)
    | cons c v =>
      obtain ⟨rfl, -⟩ := List.cons.inj hv
      exact hs (by simp)

/-- No list opens behind a function. -/
theorem not_opensList_rest (b : Blanks) (fs : List WrittenFunction) :
    ¬ OpensList (b.chars ++ rest fs) := by
  have hparen : ∀ b : Blanks, '(' ∉ b.chars := fun b => b.notMem (by decide)
  cases fs with
  | nil => exact not_opensList_append (hparen b) stops_nil nofun
  | cons f fs =>
    let front := b.chars ++ '\n' :: (BlankLine.text f.above ++ f.indentation.chars)
    let back := f.head.chars Named.chars f.form ++
      ('{' :: (f.body ++ '}' :: f.behind.chars) ++ rest fs)
    have hfront : '(' ∉ front := by
      simp [front, hparen, BlankLine.paren_notMem_text]
    have hback : back.head? ≠ some '(' := by
      obtain ⟨c, s, hs, hc, -⟩ := f.head.result.word.exists_cons
      rw [TypeWord.text_word] at hs
      simp only [back, Scan.head_append, hs, List.cons_append, List.head?_cons]
      rintro ⟨⟩
      exact absurd hc (by decide)
    have hsplit : b.chars ++ rest (f :: fs) = front ++ back := by
      simp [front, back, rest, chars, definition]
    rw [hsplit]
    exact not_opensList_append hfront (f.head.stops_isSpace _ f.form _) hback

/-- **No line of a definition but the first one starts a signature**, wherever no list opens behind
it. -/
theorem silent_definition (f : WrittenFunction) {r : List Char}
    (hr : ¬ OpensList (f.behind.chars ++ r)) : Silent f.definition r := by
  have hbody : Silent f.body (('}' :: f.behind.chars) ++ r) := by
    intro line hline
    refine scan?_eq_none_of_not fun h => ?_
    exact f.quiet line hline (h.of_brace hr)
  have hbehind : Silent ('}' :: f.behind.chars) r :=
    Silent.cons (by decide) (silent_of_notMem f.behind.newline_notMem)
  have hbraces : Silent ('{' :: (f.body ++ '}' :: f.behind.chars)) r :=
    Silent.cons (by decide) (hbody.append hbehind)
  have hhead : Silent (f.head.chars Named.chars f.form)
      ('{' :: (f.body ++ '}' :: f.behind.chars) ++ r) := f.head.silent f.form _
  exact (silent_of_notMem f.indentation.newline_notMem).append (hhead.append hbraces)

/-- What is found from the lines of a function, and from the lines above it. -/
theorem findAll_append (f : WrittenFunction) {r : List Char}
    (hr : ¬ OpensList (f.behind.chars ++ r)) :
    Signature.findAll (f.chars ++ r) =
      List.replicate (f.skippedAbove.length + 1) f.signature ++ Signature.findBelow r := by
  have hstart : scan? Scan.signature (f.definition ++ r) = some f.signature := by
    have htext : f.definition ++ r = f.indentation.chars ++ (f.head.chars Named.chars f.form ++
        '{' :: (f.body ++ '}' :: (f.behind.chars ++ r))) := by
      simp [definition]
    rw [htext]
    exact f.head.scan?_signature f.indentation.toBlanks f.form _
  calc Signature.findAll (f.chars ++ r)
      = Signature.findAll (BlankLine.text f.above ++ (f.definition ++ r)) := by
        rw [chars, List.append_assoc]
    _ = List.replicate f.skippedAbove.length f.signature ++ (f.signature ::
          Signature.findBelow (f.definition ++ r)) := by
        rw [BlankLine.findAll_text f.above hstart, Signature.findAll_eq, hstart]
        rfl
    _ = List.replicate f.skippedAbove.length f.signature ++ (f.signature ::
          Signature.findBelow r) := by
        rw [Signature.findBelow_append (f.silent_definition hr)]
    _ = _ := by
        rw [List.replicate_succ', List.append_assoc]
        rfl

theorem findBelow_rest (fs : List WrittenFunction) : Signature.findBelow (rest fs) =
    fs.flatMap fun f => List.replicate (f.skippedAbove.length + 1) f.signature := by
  induction fs with
  | nil => rfl
  | cons f fs ih =>
    have hline : Signature.findBelow (rest (f :: fs)) = Signature.findAll (f.chars ++ rest fs) := by
      rfl
    rw [hline, f.findAll_append (not_opensList_rest f.behind.toBlanks fs), ih, List.flatMap_cons]

theorem findAll_code (fs : List WrittenFunction) : Signature.findAll (code fs) =
    fs.flatMap fun f => List.replicate (f.skippedAbove.length + 1) f.signature := by
  cases fs with
  | nil => rfl
  | cons f fs =>
    rw [code_cons, f.findAll_append (not_opensList_rest f.behind.toBlanks fs), findBelow_rest,
      List.flatMap_cons]

/-- No signature is missing. -/
theorem le_length_findAll_code (fs : List WrittenFunction) :
    fs.length ≤ (Signature.findAll (code fs)).length := by
  rw [findAll_code]
  induction fs with
  | nil => exact Nat.le_refl 0
  | cons f fs ih =>
    rw [List.flatMap_cons, List.length_append, List.length_replicate, List.length_cons]
    omega

/-- Signatures are found as often as there are functions only if each is found once. -/
theorem skippedAbove_eq_nil {fs : List WrittenFunction}
    (h : (Signature.findAll (code fs)).length = fs.length) : ∀ f ∈ fs, f.skippedAbove = [] := by
  induction fs with
  | nil => exact fun f hf => absurd hf List.not_mem_nil
  | cons f fs ih =>
    have hle := le_length_findAll_code fs
    rw [findAll_code, List.flatMap_cons, ← findAll_code, List.length_append,
      List.length_replicate, List.length_cons] at h
    refine List.forall_mem_cons.2 ⟨List.eq_nil_of_length_eq_zero ?_, ih ?_⟩ <;> omega

theorem findAll_code_eq_map_iff (fs : List WrittenFunction) :
    Signature.findAll (code fs) = fs.map signature ↔ ∀ f ∈ fs, f.skippedAbove = [] := by
  constructor
  · intro h
    refine skippedAbove_eq_nil ?_
    rw [h, List.length_map]
  · intro h
    have honce : ∀ f ∈ fs, List.replicate (f.skippedAbove.length + 1) f.signature =
        [f.signature] := by
      intro f hf
      rw [h f hf]
      rfl
    rw [findAll_code, List.flatMap_congr honce, List.map_eq_flatMap]

end WrittenFunction

/-- **How often definitions are found.** In code that is a list of function definitions, each on
lines of its own with any number of blank lines above it, the signatures are found in order, each of
them from where it stands and once more from every line directly above it that has separating
characters only. So every definition is found exactly once just if no such line stands directly
above one. -/
theorem findAll_written (fs : List WrittenFunction) :
    Signature.findAll (WrittenFunction.code fs) =
      (fs.flatMap fun f => List.replicate (f.skippedAbove.length + 1) f.signature) ∧
    (Signature.findAll (WrittenFunction.code fs) = fs.map WrittenFunction.signature ↔
      ∀ f ∈ fs, f.skippedAbove = []) :=
  ⟨WrittenFunction.findAll_code fs, WrittenFunction.findAll_code_eq_map_iff fs⟩

/-- A function without parameters, below an empty line. -/
def loweredFunction : WrittenFunction where
  above := [⟨[], rfl, List.not_mem_nil⟩]
  indentation := ⟨.none, List.not_mem_nil⟩
  form := .plain
  head := ⟨.float, .single, ⟨"f", by decide +kernel⟩, .none, .empty .none, Gap.single.toBlanks⟩
  body := ['\n']
  quiet := by decide +kernel
  behind := ⟨.none, List.not_mem_nil⟩

/-- **A definition below an empty line is found twice.** -/
theorem found_twice_below_empty_line :
    WrittenFunction.code [loweredFunction] = "\nfloat f() \x7b\n\x7d".toList ∧
    loweredFunction.signature = ⟨"f", false, [], "float"⟩ ∧
    Signature.findAll "\nfloat f() \x7b\n\x7d".toList =
      [⟨"f", false, [], "float"⟩, ⟨"f", false, [], "float"⟩] := by
  decide +kernel

end Glsl

end ShaderLink
