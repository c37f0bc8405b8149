import ShaderLink.Proofs.Glsl.Declarations
import ShaderLink.Proofs.Linker.Naming
import ShaderLink.Proofs.Stage.Assembled
import ShaderLink.Proofs.Store.Rewriting

/-!
# The names that code declares for itself

The static names of a function or main code are kept from objects, so that nothing the code declares
is shadowed: no object that may be called anything is called like something that a main code
declares (`Linker.not_declares_of_link`). They are as complete as what is read of the code:

* a line of declarations is read up to the first initial value, so names behind it are missing
  (`declarations_read_up_to_initial`);
* the variables of a function are read from its code with replacements, but the signature, and with
  it the names of its arguments, from the code without them
  (`Session.signature_of_original_code`).
-/

namespace ShaderLink

open Glsl (DeclarationLine)

/-- A name that is read from a line of the code of a function is one of its static names. -/
theorem Snippet.Current.mem_staticNames {s : Snippet} (h : s.Current) {l : DeclarationLine}
    (hl : l.chars ∈ Text.lines s.replacedCode.toList) {d : Glsl.Declarator} (hd : d ∈ l.seen) :
    d.name.text ∈ s.staticNames := by
  rw [h.staticNames, mem_namesIn]
  exact .inr ⟨_, DeclarationLine.mem_findAll hl hd, rfl⟩

/-- The same for a line of the code that a function is made from, before it is dedented. -/
theorem Snippet.mem_staticNames_of_ofCode {code : String} {s : Snippet} (h : ofCode code = .ok s)
    {l : DeclarationLine} (hl : l.chars ∈ Text.lines code.toList) {d : Glsl.Declarator}
    (hd : d ∈ l.seen) : d.name.text ∈ s.staticNames := by
  obtain ⟨hdedent, hreplacements, hcurrent⟩ := current_of_ofCode h
  have hcode : s.replacedCode = s.code := by
    rw [replacedCode, hreplacements]
    rfl
  rw [hcurrent.staticNames, hcode, mem_namesIn]
  exact .inr ⟨_, DeclarationLine.mem_findAll_dedent hdedent hl hd, rfl⟩

/-- The same for a line of a main code. -/
theorem StageMain.Assembled.mem_staticNames {code : String} {given : List (Output × ObjectId)}
    {m : StageMain} (h : Assembled code given m) {l : DeclarationLine}
    (hl : l.chars ∈ Text.lines code.toList) {d : Glsl.Declarator} (hd : d ∈ l.seen) :
    d.name.text ∈ m.staticNames := by
  obtain ⟨dedented, hdedent, -, -⟩ := h.exists_dedent
  exact (h.mem_staticNames_iff hdedent).2
    (.global (DeclarationLine.mem_findAll_dedent hdedent hl hd))

/-- **No object is called like something that a main code declares**, unless it has to be. This is
so of every main code of a session, whatever was attached to it and assigned at its end. -/
theorem Linker.not_declares_of_link {σ : Session} {k : Nat} {stages : Stages StageMain}
    {l l' : Linker} {linked : Linked} {x : ObjectId} {name : String} {m : StageMain}
    (hσ : σ.Reachable) (h : (link (σ.graphs k) stages).run l = .ok linked l')
    (hx : x ∈ linked.objects) (hfree : ∀ n, ¬ Closure.FixedName (σ.graphs k) stages x n)
    (hname : l'.names[x]? = some name) (hm : m ∈ stages.toList) (hmain : m ∈ σ.mains) :
    ∃ code dedented, Text.dedent code = some dedented ∧ m.template = Template.ofChars dedented ∧
      ¬ StageMain.Declares dedented name := by
  obtain ⟨code, given, hassembled⟩ := hσ.exists_assembled m hmain
  obtain ⟨dedented, hdedent, htemplate, -⟩ := hassembled.exists_dedent
  refine ⟨code.toList, dedented, hdedent, htemplate, fun hdeclares => ?_⟩
  obtain ⟨c, a, hc, ha, hnames, hobjects⟩ := naming_of_link h
  obtain ⟨hfollows, hnamed⟩ := Assignment.ofClosure_eq_ok hc ha
  have hx := hc.mem_objects.1 (hobjects ▸ hx)
  exact (hc.collisionFree hfollows hnamed).declared x name hx hfree (hnames ▸ hname) m hm
    ((hassembled.mem_staticNames_iff hdedent).2 hdeclares)

/-- **A line of declarations is read up to the first initial value.**

What is found in a line of declarations is the names up to the first one that has an initial value,
in order and with the qualifier and the type of the line. So all names are found just if none but the
last has an initial value. Those that are found are static names of every function that has the line
in its code with replacements, of every function that is made from code with the line, and of every
main code that has the line. -/
theorem declarations_read_up_to_initial (l : DeclarationLine) (hline : '\n' ∉ l.chars) :
    ProgramVariable.findAll l.chars = l.seen.map l.variableOf ∧
    (ProgramVariable.findAll l.chars = l.declarators.map l.variableOf ↔
      ∀ d ∈ l.declarators.dropLast, d.initial = none) ∧
    (∀ σ k f s, Session.Reachable σ → (σ.graphs k).find? f = some (.function s) →
      l.chars ∈ Text.lines s.replacedCode.toList →
        ∀ d ∈ l.seen, d.name.text ∈ s.staticNames) ∧
    (∀ code s, Snippet.ofCode code = .ok s → l.chars ∈ Text.lines code.toList →
      ∀ d ∈ l.seen, d.name.text ∈ s.staticNames) ∧
    ∀ code given m, StageMain.Assembled code given m → l.chars ∈ Text.lines code.toList →
      ∀ d ∈ l.seen, d.name.text ∈ m.staticNames := by
  refine ⟨l.findAll_chars hline, ?_, ?_, ?_, ?_⟩
  · rw [l.findAll_chars hline]
    exact l.map_seen_eq_iff
  · intro σ k f s hσ hs hl d hd
    exact (hσ.current hs).mem_staticNames hl hd
  · intro code s h hl d hd
    exact Snippet.mem_staticNames_of_ofCode h hl hd
  · intro code given m h hl d hd
    exact h.mem_staticNames hl hd

/-- An indented line of three names, the second of which has an initial value. -/
def levelsLine : DeclarationLine where
  indentation := ⟨[' ', ' '], by simp [Glsl.isSpace]⟩
  qualifier := some (.const, .single)
  type := .float
  gap := .single
  first := ⟨⟨"low", by decide⟩, none⟩
  more :=
    [(.none, Glsl.Gap.single.toBlanks, ⟨⟨"high", by decide⟩,
      some (Glsl.Gap.single.toBlanks, ⟨[' ', '0', '.', '5'], by simp⟩)⟩),
     (.none, Glsl.Gap.single.toBlanks, ⟨⟨"middle", by decide⟩, none⟩)]
  beforeEnd := .none

/-- A main code with that line. -/
def levelsMain : String := "  const float low, high = 0.5, middle;\n  void main() \x7b\x7d"

/-- The names up to the second are read, and are static names of the main code. -/
theorem declarations_read_up_to_initial_levels :
    levelsLine.chars = "  const float low, high = 0.5, middle;".toList ∧
    '\n' ∉ levelsLine.chars ∧
    ProgramVariable.findAll levelsLine.chars =
      [⟨"low", some .const, "float"⟩, ⟨"high", some .const, "float"⟩] ∧
    ∃ m, StageMain.ofCode levelsMain = .ok m ∧ ∀ n ∈ ["low", "high"], n ∈ m.staticNames := by
  obtain ⟨hchars, hline, hvariables, hmem, hread⟩ :
      levelsLine.chars = "  const float low, high = 0.5, middle;".toList ∧
      '\n' ∉ levelsLine.chars ∧
      levelsLine.seen.map levelsLine.variableOf =
        [⟨"low", some .const, "float"⟩, ⟨"high", some .const, "float"⟩] ∧
      levelsLine.chars ∈ Text.lines levelsMain.toList ∧
      (StageMain.ofCode levelsMain).toOption.isSome := by
    decide +kernel
  obtain ⟨hfound, -, -, -, hmain⟩ := declarations_read_up_to_initial levelsLine hline
  obtain ⟨m, hm⟩ := Option.isSome_iff_exists.1 hread
  have hm := Except.toOption_eq_some_iff.1 hm
  refine ⟨hchars, hline, hfound.trans hvariables, m, hm, ?_⟩
  have hseen : ["low", "high"] = levelsLine.seen.map (·.name.text) := rfl
  rw [hseen]
  exact List.forall_mem_map.2 (hmain levelsMain [] m (.ofCode hm) hmem)

/-- **A name behind an initial value is missed.** -/
theorem name_behind_initial_value_missed :
    ProgramVariable.findAll "float a = 1.0, b;".toList = [⟨"a", none, "float"⟩] := by
  decide +kernel

namespace Session

variable {σ : Session} {k : Nat} {f : ObjectId} {s : Snippet}

/-- **The signature stays that of the code without replacements.**

After any replacements in a function, its signature is still the one of its original code, and its
static names are the names of the arguments of that signature and of the variables that are found in
the code with the replacements. So wherever the code with the replacements has a signature, it is
that of the function just if it is that of the original code; and all of its arguments have static
names just if each is called like an argument of the original code or like a variable that is found
in the code with the replacements. -/
theorem signature_of_original_code (hσ : σ.Reachable)
    (hs : (σ.graphs k).find? f = some (.function s)) (pairs : List (String × String)) :
    ∃ t, ((σ.edited k (pairs.map fun p => .replace f p.1 p.2)).graphs k).find? f =
        some (.function t) ∧
      t.code = s.code ∧ t.replacements = lastGiven (s.replacements ++ pairs) ∧
      Signature.parse t.code = .ok t.signature ∧
      (∀ n, n ∈ t.staticNames ↔ (∃ a ∈ t.signature.arguments, a.name = n) ∨
        ∃ v ∈ ProgramVariable.findAll t.replacedCode.toList, v.name = n) ∧
      ∀ found, Signature.parse t.replacedCode = .ok found →
        (t.signature = found ↔ Signature.parse t.code = .ok found) ∧
        ((∀ a ∈ found.arguments, a.name ∈ t.staticNames) ↔ ∀ a ∈ found.arguments,
          (∃ b ∈ t.signature.arguments, b.name = a.name) ∨
            ∃ v ∈ ProgramVariable.findAll t.replacedCode.toList, v.name = a.name) := by
  have hrewriting : Rewriting k f σ ([] ++ (pairs.map fun p => Operation.replace f p.1 p.2).flatMap
      fun op => (Action.edit k op).givenTo k f)
      (σ.edited k (pairs.map fun p => .replace f p.1 p.2)) := by
    refine Rewriting.refl.edited fun op hop hremoves => ?_
    obtain ⟨p, -, rfl⟩ := List.mem_map.1 hop
    cases hremoves
  have hgiven : ((pairs.map fun p => Operation.replace f p.1 p.2).flatMap
      fun op => (Action.edit k op).givenTo k f) = pairs := by
    simp [List.flatMap_map, Action.givenTo_replace]
  obtain ⟨t, ht, hcode, hreplacements⟩ := hrewriting.exists_function hσ hs
  rw [List.nil_append, hgiven] at hreplacements
  have hcurrent := (hrewriting.reachable hσ).current ht
  have hnames : ∀ n, n ∈ t.staticNames ↔ (∃ a ∈ t.signature.arguments, a.name = n) ∨
      ∃ v ∈ ProgramVariable.findAll t.replacedCode.toList, v.name = n := by
    intro n
    rw [hcurrent.staticNames, Snippet.mem_namesIn]
  refine ⟨t, ht, hcode, hreplacements, hcurrent.signature, hnames, fun found _ => ⟨?_, ?_⟩⟩
  · rw [hcurrent.signature, Except.ok.injEq]
  · exact forall₂_congr fun a _ => hnames a.name

/-- An anonymous function that returns its argument. -/
def copySession : Session :=
  empty.edited 0 [.function "float $f(float x) \x7b return x; \x7d"]

/-- A replacement in the body, which declares a variable. -/
def bodyReplacement : String × String := ("return x", "\n  float k = x;\n  return k")

/-- The signature is right after this replacement, and the variable is a static name. -/
theorem signature_of_original_code_copy :
    copySession.Reachable ∧
    (∃ s, (copySession.graphs 0).find? ⟨1⟩ = some (.function s)) ∧
    ∃ t, ((copySession.edited 0 [.replace ⟨1⟩ bodyReplacement.1 bodyReplacement.2]).graphs
        0).find? ⟨1⟩ = some (.function t) ∧
      Signature.parse t.replacedCode = .ok t.signature ∧ "k" ∈ t.staticNames := by
  have hany : ReachableBy (fun _ _ => True) copySession :=
    ReachableBy.empty.edited fun _ _ _ => trivial
  have hfound : ((copySession.graphs 0).getFunction ⟨1⟩).toOption.map
      (fun s => (s.code, s.replacements)) =
      some ("float $f(float x) \x7b return x; \x7d", []) := by
    decide +kernel
  obtain ⟨s, hs, hpair⟩ := Option.map_eq_some_iff.1 hfound
  have hs := Graph.getFunction_eq_ok_iff.1 (Except.toOption_eq_some_iff.1 hs)
  obtain ⟨hcode, hreplacements⟩ := Prod.mk.inj hpair
  obtain ⟨t, ht, hcode', hreplacements', -, hnames, hsignature⟩ :=
    signature_of_original_code hany.reachable hs [bodyReplacement]
  have hread : t.replacedCode = "float $f(float x) \x7b \n  float k = x;\n  return k; \x7d" := by
    rw [Snippet.replacedCode, hreplacements', hreplacements, hcode', hcode]
    decide +kernel
  obtain ⟨hold, hnew, hvariable⟩ :
      Signature.parse "float $f(float x) \x7b return x; \x7d" =
        .ok ⟨"f", true, [⟨"float", "x"⟩], "float"⟩ ∧
      Signature.parse "float $f(float x) \x7b \n  float k = x;\n  return k; \x7d" =
        .ok ⟨"f", true, [⟨"float", "x"⟩], "float"⟩ ∧
      ⟨"k", none, "float"⟩ ∈ ProgramVariable.findAll
        "float $f(float x) \x7b \n  float k = x;\n  return k; \x7d".toList := by
    decide +kernel
  rw [← hcode, ← hcode'] at hold
  rw [← hread] at hnew hvariable
  refine ⟨hany.reachable, ⟨s, hs⟩, t, ht, ?_, (hnames "k").2 (.inr ⟨_, hvariable, rfl⟩)⟩
  rw [(hsignature _ hnew).1.2 hold]
  exact hnew

/-- **A replacement in the head leaves the signature behind**: it still has the type and the name of
an argument that the code no longer has, and the name that the code gives the argument is not kept
from objects. -/
theorem signature_left_behind :
    (((copySession.edited 0 [.replace ⟨1⟩ "float" "int", .replace ⟨1⟩ "x" "y"]).graphs
      0).getFunction ⟨1⟩).toOption.map (fun t => (t.replacedCode, t.signature, t.staticNames)) =
      some ("int $f(int y) \x7b return y; \x7d", ⟨"f", true, [⟨"float", "x"⟩], "float"⟩, ["x"]) ∧
    Signature.parse "int $f(int y) \x7b return y; \x7d" =
      .ok ⟨"f", true, [⟨"int", "y"⟩], "int"⟩ := by
  decide +kernel

end Session

end ShaderLink
