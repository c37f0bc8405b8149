import ShaderLink.Proofs.Glsl.Head
import ShaderLink.Proofs.Text.Lines

/-!
# Reading signatures and prototypes

What a head writes is what is read from it (`Head.read_back`): a text that begins with a head and a
brace has the signature of this head, and a line that begins with a head and a semicolon has the
prototype of this head. Separating characters may stand in front of either.

Every signature has a head if its types are builtin, none of its arguments is of type `void`, and
its names are names (`Signature.Writable`). The plainest head is the one that is printed, with
single blanks between types and names and behind commas (`Head.exists_printed`).
-/

namespace ShaderLink

variable {s : List Char}

/-- A signature at the beginning of a text is the one that is read. -/
theorem Signature.parse_of_scan? {found : Signature}
    (h : Glsl.scan? Glsl.Scan.signature s = some found) :
    parse (String.ofList s) = .ok found := by
  have hfind : find? s = some found := by
    rw [find?, Text.lineSuffixes, List.findSome?_cons, h]
  rw [parse, String.toList_ofList, hfind]
  rfl

/-- A prototype at the beginning of a line is the only one of this line. -/
theorem Prototype.findAll_of_scan? {found : Prototype} (hne : s ≠ []) (hline : '\n' ∉ s)
    (h : Glsl.scan? Glsl.Scan.prototype s = some found) : findAll s = [found] := by
  rw [findAll, Text.lines_of_not_mem hne hline, List.filterMap_cons, h]
  rfl

namespace Glsl

/-- **What a head writes is read from it**, wherever separating characters stand in it.

The signature of a function is read from every text that begins with its head and a brace, and the
prototype of a function from every line that begins with its head, under a plain name and with or
without the names of its parameters, and a semicolon. Separating characters may come first, and
anything may come behind. -/
theorem Head.read_back :
    (∀ (b : Blanks) (form : NameForm) (h : Head Named) (rest : List Char),
      Signature.parse (String.ofList (b.chars ++ (h.chars Named.chars form ++ '{' :: rest))) =
        .ok (h.signature form)) ∧
    ∀ (b : Blanks) (h : Head (Option Named)) (rest : List Char),
      '\n' ∉ b.chars ++ (h.chars optionalChars .plain ++ ';' :: rest) →
        Prototype.findAll (b.chars ++ (h.chars optionalChars .plain ++ ';' :: rest)) =
          [h.prototype] := by
  constructor
  · intro b form h rest
    exact Signature.parse_of_scan? (h.scan?_signature b form rest)
  · intro b h rest hline
    refine Prototype.findAll_of_scan? ?_ hline
      (scan?_append b ?_ (Scan.prototype_append h rest))
    · simp
    · exact h.stops_isSpace _ .plain _

/-- A head with a line feed in its list, or with what is given between its parameters instead. -/
def tintHead {ν : Type} (between : Blanks) (first second : ν) : Head ν where
  result := ⟨"vec4", by decide +kernel⟩
  gap := ⟨⟨['\t'], List.forall_mem_singleton.2 (by decide)⟩, List.cons_ne_nil _ _⟩
  name := ⟨"tint", by decide +kernel⟩
  beforeList := Gap.single.toBlanks
  parameters := .list .none ⟨⟨"vec4", by decide +kernel⟩, first⟩
    (show "vec4" ≠ voidType by decide +kernel)
    [(Gap.single.toBlanks, between, ⟨.float, second⟩)] Gap.single.toBlanks
  behindList := .none

/-- The names of two parameters. -/
def tintNames : Named × Named :=
  (⟨.single, ⟨"pos", by decide +kernel⟩⟩, ⟨.single, ⟨"scale", by decide +kernel⟩⟩)

theorem read_back_tint :
    Signature.parse "vec4\t$\x7btint\x7d (vec4 pos ,\r\n float scale )\x7b return pos; \x7d" =
        .ok ⟨"tint", true, [⟨"vec4", "pos"⟩, ⟨"float", "scale"⟩], "vec4"⟩ ∧
      '\n' ∉ "vec4\ttint (vec4 , float scale );\r".toList ∧
      Prototype.findAll "vec4\ttint (vec4 , float scale );\r".toList =
        [⟨"tint", ["vec4", "float"], "vec4"⟩] := by
  have hsignature := Head.read_back.1 .none .braced
    (tintHead ⟨['\r', '\n', ' '], by simp [isSpace]⟩ tintNames.1 tintNames.2)
    " return pos; \x7d".toList
  have hprototype := Head.read_back.2 .none
    (tintHead Gap.single.toBlanks none (some tintNames.2)) ['\r'] (by decide +kernel)
  exact ⟨hsignature, by decide +kernel, hprototype⟩

end Glsl

/-! ### Printed heads -/

/-- An argument as it is printed. -/
def Argument.printed (a : Argument) : String := a.type ++ " " ++ a.name

namespace Signature

/-- The head of a function as it is printed, up to what ends it. -/
def printed (s : Signature) : String :=
  s.result ++ " " ++ s.name ++ "(" ++ ", ".intercalate (s.arguments.map Argument.printed) ++ ") "

/-- A signature of builtin types, with names that are names. -/
structure Writable (s : Signature) : Prop where
  result : Glsl.isType s.result = true
  name : Glsl.isName s.name.toList = true
  arguments : ∀ a ∈ s.arguments, Glsl.isType a.type = true ∧ a.type ≠ Glsl.voidType ∧
    Glsl.isName a.name.toList = true

end Signature

namespace Glsl

theorem exists_printed_parameter {a : Argument} (htype : isType a.type = true)
    (hname : isName a.name.toList = true) :
    ∃ p : Parameter Named, Head.argument p = a ∧ p.chars Named.chars = a.printed.toList :=
  ⟨⟨⟨a.type, htype⟩, .single, ⟨a.name, hname⟩⟩, rfl, by
    simp [Parameter.chars, Named.chars, Gap.single, Argument.printed]⟩

/-- The arguments behind the first one, as they are printed behind it. -/
theorem exists_printed_more {l : List Argument} (h : ∀ a ∈ l, isType a.type = true ∧
    a.type ≠ voidType ∧ isName a.name.toList = true) :
    ∃ more : More Named, (more.map fun m => Head.argument m.2.2) = l ∧ ∀ first : String,
      first.toList ++ More.chars Named.chars more =
        (", ".intercalate (first :: l.map Argument.printed)).toList := by
  induction l with
  | nil => exact ⟨[], rfl, fun first => by simp [More.chars]⟩
  | cons a l ih =>
    obtain ⟨⟨htype, -, hname⟩, hl⟩ := List.forall_mem_cons.1 h
    obtain ⟨p, rfl, hp⟩ := exists_printed_parameter htype hname
    obtain ⟨more, rfl, hmore⟩ := ih hl
    refine ⟨(.none, Gap.single.toBlanks, p) :: more, rfl, fun first => ?_⟩
    calc first.toList ++ More.chars Named.chars ((.none, Gap.single.toBlanks, p) :: more)
        = first.toList ++ ", ".toList ++ (p.chars Named.chars ++ More.chars Named.chars more) := by
          simp [More.chars, Blanks.none, Gap.single]
      _ = first.toList ++ ", ".toList ++ (", ".intercalate ((Head.argument p).printed ::
            (more.map fun m => Head.argument m.2.2).map Argument.printed)).toList := by
          rw [hp, hmore]
      _ = _ := by simp [String.toList_intercalate]

theorem exists_printed_parameters {l : List Argument} (h : ∀ a ∈ l, isType a.type = true ∧
    a.type ≠ voidType ∧ isName a.name.toList = true) :
    ∃ ps : Parameters Named, ps.toList.map Head.argument = l ∧
      ps.chars Named.chars = (", ".intercalate (l.map Argument.printed)).toList := by
  cases l with
  | nil => exact ⟨.empty .none, rfl, rfl⟩
  | cons a l =>
    obtain ⟨⟨htype, hne, hname⟩, hl⟩ := List.forall_mem_cons.1 h
    obtain ⟨p, rfl, hp⟩ := exists_printed_parameter htype hname
    obtain ⟨more, rfl, hmore⟩ := exists_printed_more hl
    refine ⟨.list .none p hne more .none, ?_, ?_⟩
    · simp [Parameters.toList]
    · simp [Parameters.chars, Blanks.none, hp, hmore]

/-- **A signature under a plain name is written by the head that is printed for it.** -/
theorem Head.exists_printed {s : Signature} (h : s.Writable) (hplain : s.anonymous = false) :
    ∃ head : Head Named, head.signature .plain = s ∧
      head.chars Named.chars .plain = s.printed.toList := by
  obtain ⟨ps, hps, htext⟩ := exists_printed_parameters h.arguments
  refine ⟨⟨⟨s.result, h.result⟩, .single, ⟨s.name, h.name⟩, .none, ps, Gap.single.toBlanks⟩, ?_, ?_⟩
  · rw [Head.signature, hps, NameForm.anonymous, ← hplain]
  · simp [Head.chars, NameForm.chars, Signature.printed, htext, Blanks.none, Gap.single]

end Glsl

end ShaderLink
