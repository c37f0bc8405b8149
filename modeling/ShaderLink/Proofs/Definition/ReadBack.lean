import ShaderLink.Proofs.Definition.StraightLine
import ShaderLink.Proofs.Glsl.Declarations
import ShaderLink.Proofs.Glsl.Reading
import ShaderLink.Proofs.Store.Values

/-!
# Reading definitions back

What is written for a variable or a chain is read back by the scans that look through code: the
definition of a variable is a line that declares one variable, with its qualifier and type and under
its name (`Graph.findAll_variableDefinition`), and the definition of a chain begins with the
signature of the chain, under its name (`Graph.parse_chainDefinition`).

The line of a constant ends in a literal. That nothing else is declared on it has nothing to do with
what the literal looks like: reading stops in front of it, and no literal goes on to another line
(`Value.newline_notMem_literal`).
-/

namespace ShaderLink

/-! ### Literals are on one line -/

theorem newline_notMem_toDigits (n : Nat) : '\n' ∉ Nat.toDigits 10 n := fun h =>
  absurd (Nat.isDigit_of_mem_toDigits (by decide) (by decide) h) (by decide)

theorem newline_notMem_toString (n : Int) : '\n' ∉ (toString n).toList := by
  cases n with
  | ofNat n =>
    show '\n' ∉ (Nat.repr n).toList
    rw [Nat.toList_repr]
    exact newline_notMem_toDigits n
  | negSucc n =>
    show '\n' ∉ ("-" ++ Nat.repr (n + 1)).toList
    rw [String.toList_append, Nat.toList_repr, List.mem_append, not_or]
    exact ⟨by decide, newline_notMem_toDigits (n + 1)⟩

namespace Layout

theorem newline_notMem_zeros (n : Nat) : '\n' ∉ zeros n := by
  intro h
  cases List.eq_of_mem_replicate h

variable {digits : List Char}

theorem newline_notMem_positional (h : '\n' ∉ digits) (order : Int) :
    '\n' ∉ positional digits order := by
  have hdrop : ∀ n, '\n' ∉ digits.drop n := fun n hn => h (List.mem_of_mem_drop hn)
  have htake : ∀ n, '\n' ∉ digits.take n := fun n hn => h (List.mem_of_mem_take hn)
  unfold positional
  split
  · simp [newline_notMem_zeros, h]
  · dsimp only
    split <;> simp [newline_notMem_zeros, hdrop, htake]

theorem newline_notMem_scientific (h : '\n' ∉ digits) (order : Int) :
    '\n' ∉ scientific digits order := by
  have htake : '\n' ∉ digits.take 1 := fun hn => h (List.mem_of_mem_take hn)
  have hdrop : '\n' ∉ digits.tail := fun hn => h (List.mem_of_mem_tail hn)
  have horder : '\n' ∉ order.repr.toList := newline_notMem_toString order
  unfold scientific
  split <;> simp [htake, hdrop, horder]

theorem newline_notMem_write (l : Layout) (d : Decimal) : '\n' ∉ l.write d := by
  unfold write
  dsimp only
  split
  · decide
  · split
    · exact newline_notMem_positional (newline_notMem_toDigits _) _
    · exact newline_notMem_scientific (newline_notMem_toDigits _) _

end Layout

theorem Single.newline_notMem_write (l : Layout) (x : Single) : '\n' ∉ x.write l := by
  cases x with
  | nan => exact (by decide : '\n' ∉ ['N', 'a', 'N'])
  | number negative rank =>
    have hsign : '\n' ∉ (if negative then ['-'] else []) := by cases negative <;> decide
    rw [write, List.mem_append, not_or]
    refine ⟨hsign, ?_⟩
    split
    · decide
    · split <;> exact l.newline_notMem_write _

theorem newline_notMem_intercalate {l : List String} (h : ∀ s ∈ l, '\n' ∉ s.toList) :
    '\n' ∉ (", ".intercalate l).toList := by
  rw [String.toList_intercalate]
  intro hmem
  obtain hsep | ⟨piece, hpiece, hmem⟩ := StraightLine.mem_intercalate hmem
  · exact absurd hsep (by decide)
  · obtain ⟨s, hs, rfl⟩ := List.mem_map.1 hpiece
    exact h s hs hmem

/-- A literal is on one line. -/
theorem Value.newline_notMem_literal {v : Value} {literal : String}
    (h : v.literal = some literal) : '\n' ∉ literal.toList := by
  cases v with
  | bool b =>
    cases h
    cases b <;> decide
  | int n =>
    cases h
    exact newline_notMem_toString _
  | float x =>
    cases h
    rw [number, String.toList_ofList]
    exact x.newline_notMem_write _
  | composite kind components =>
    cases h
    have hkind : '\n' ∉ kind.type.toList := by cases kind <;> decide
    have hcomponents : '\n' ∉ (", ".intercalate (components.toList.map number)).toList := by
      refine newline_notMem_intercalate fun s hs => ?_
      obtain ⟨x, -, rfl⟩ := List.mem_map.1 hs
      rw [number, String.toList_ofList]
      exact x.newline_notMem_write _
    simp only [String.toList_append, List.mem_append, not_or]
    exact ⟨⟨⟨hkind, by decide⟩, hcomponents⟩, by decide⟩
  | buffer b => cases h


namespace Graph

variable {g : Graph} {names : Names} {id : ObjectId} {v : Variable} {c : Chain}
  {type name text : String}

/-! ### Declarations of variables -/

theorem newline_notMem_word (w : Glsl.Word) : '\n' ∉ w.text.toList := w.notMem (by decide)

/-- **The declaration of a variable is read back**, whatever follows the name of a constant. -/
theorem findAll_variableDefinition (htype : g.type? id = some type)
    (hbuiltin : Glsl.isType type = true) (hname : names[id]? = some name)
    (hword : Glsl.isName name.toList = true) (h : g.variableDefinition names id v = .ok text) :
    ∃ q, v.qualifier = some q ∧ ProgramVariable.findAll text.toList = [⟨name, some q, type⟩] := by
  obtain ⟨q, type', name', hq, htype', hname', hcode⟩ := of_variableDefinition h
  obtain rfl : type' = type := Option.some.inj (htype'.symm.trans htype)
  obtain rfl : name' = name := Option.some.inj (hname'.symm.trans hname)
  -- every part of the declaration is on one line
  have hkeyword : '\n' ∉ q.keyword.toList := newline_notMem_word (Glsl.qualifierWord q)
  have htypeLine : '\n' ∉ type'.toList :=
    newline_notMem_word (Glsl.TypeWord.word ⟨type', hbuiltin⟩)
  have hnameLine : '\n' ∉ name'.toList := newline_notMem_word ⟨name', hword⟩
  refine ⟨q, hq, ?_⟩
  obtain ⟨-, rfl⟩ | ⟨rfl, literal, hliteral, rfl⟩ := hcode
  · refine ProgramVariable.findAll_line q .single ⟨type', hbuiltin⟩ .single ⟨name', hword⟩ .none
      (.inr rfl) (r := []) ?_ ?_
    · simp [Glsl.Gap.single, Glsl.Blanks.none]
    · simp [hkeyword, htypeLine, hnameLine]
  · obtain ⟨value, -, hvalue⟩ := Option.bind_eq_some_iff.1 hliteral
    have hliteralLine : '\n' ∉ literal.toList := Value.newline_notMem_literal hvalue
    refine ProgramVariable.findAll_line .const .single ⟨type', hbuiltin⟩ .single ⟨name', hword⟩
      Glsl.Gap.single.toBlanks (.inl rfl) (r := ' ' :: (literal.toList ++ [';'])) ?_ ?_
    · simp [Glsl.Gap.single, Qualifier.keyword]
    · simp [htypeLine, hnameLine, hliteralLine]

/-! ### Heads of chains -/

/-- The signature that a chain is written with. -/
def writtenSignature (c : Chain) (name : String) : Signature :=
  { c.signature with name, anonymous := false }

theorem exists_of_chainDefinition (hname : names[id]? = some name)
    (h : g.chainDefinition names id c = .ok text) :
    ∃ body, text.toList = (writtenSignature c name).printed.toList ++ '{' :: body := by
  unfold chainDefinition at h
  obtain ⟨⟨⟩, -, h⟩ := Except.bind_eq_ok_iff.1 h
  obtain ⟨name', hname', h⟩ := Except.bind_eq_ok_iff.1 h
  obtain ⟨⟨lines, last⟩, -, h⟩ := Except.bind_eq_ok_iff.1 h
  obtain rfl : name' = name := Option.some.inj ((nameIn_eq_ok_iff.1 hname').symm.trans hname)
  have htext := Except.ok.inj h
  generalize (if c.signature.result = Glsl.voidType then "\x7d"
    else "    return " ++ last ++ ";\n\x7d") = closing at htext
  refine ⟨'\n' :: (lines.toList ++ closing.toList), ?_⟩
  have hparameters : (fun a : Argument => a.type ++ " " ++ a.name) = Argument.printed := rfl
  rw [← htext, hparameters]
  simp [writtenSignature, Signature.printed]

theorem chainDefinition_of_definition? (hc : g.find? id = some (.chain c))
    (h : g.definition? names id = .ok (some text)) : g.chainDefinition names id c = .ok text := by
  rw [definition?, get_eq_ok_iff.2 hc, Except.ok_bind] at h
  obtain ⟨text', htext', heq⟩ := Except.map_eq_ok_iff.1 h
  exact Option.some.inj heq ▸ htext'

/-- **The head of a chain is read back from its definition**, under the name that it is given. -/
theorem parse_chainDefinition (hname : names[id]? = some name)
    (hwritable : (writtenSignature c name).Writable)
    (h : g.chainDefinition names id c = .ok text) :
    Signature.parse text = .ok (writtenSignature c name) := by
  obtain ⟨body, htext⟩ := exists_of_chainDefinition hname h
  obtain ⟨head, hsignature, hchars⟩ := Glsl.Head.exists_printed hwritable rfl
  have hread := Signature.parse_of_scan? (head.scan?_signature .none .plain body)
  rwa [hchars, hsignature, Glsl.Blanks.none, List.nil_append, ← htext,
    String.ofList_toList] at hread

/-! ### Definitions -/

/-- **What is written for a variable or a chain is read back.** Of the definition of a variable of a
builtin type just that variable is found, with its qualifier and its type and under the name it is
given. From the definition of a chain its arguments and its result are read, under the name that the
chain is given and not as a placeholder. -/
theorem definitions_read_back (hname : names[id]? = some name)
    (hword : Glsl.isName name.toList = true) :
    (∀ v text, g.find? id = some (.var v) → g.definition? names id = .ok (some text) →
      ∃ q type, v.qualifier = some q ∧ g.type? id = some type ∧
        (Glsl.isType type = true →
          ProgramVariable.findAll text.toList = [{ name, qualifier := some q, type }])) ∧
    ∀ c text, g.find? id = some (.chain c) → g.definition? names id = .ok (some text) →
      Glsl.isType c.signature.result = true →
      (∀ a ∈ c.signature.arguments, Glsl.isType a.type = true ∧ a.type ≠ Glsl.voidType ∧
        Glsl.isName a.name.toList = true) →
      Signature.parse text = .ok { c.signature with name, anonymous := false } := by
  constructor
  · intro v text hv h
    have hcode := variableDefinition_of_definition? hv h
    obtain ⟨q, type, -, hq, htype, -⟩ := of_variableDefinition hcode
    refine ⟨q, type, hq, htype, fun hbuiltin => ?_⟩
    obtain ⟨q', hq', hread⟩ := findAll_variableDefinition htype hbuiltin hname hword hcode
    obtain rfl : q = q' := Option.some.inj (hq.symm.trans hq')
    exact hread
  · intro c text hc h hresult harguments
    exact parse_chainDefinition hname ⟨hresult, hword, harguments⟩
      (chainDefinition_of_definition? hc h)

/-- A constant, a function and a chain that calls it twice. -/
def halvingGraph : Graph :=
  (Session.empty.edited 0 [.declare "const float gamma 2.2",
    .function "float $half(float x) \x7b return x / 2.0; \x7d",
    .chain "quarter" true [⟨2⟩, ⟨2⟩]]).graphs 0

/-- The chain of that graph. -/
def quarter : Chain where
  signature :=
    { name := "quarter", anonymous := true, arguments := [⟨"float", "x"⟩], result := "float" }
  members := [⟨2⟩, ⟨2⟩]
  stale := false

/-- Names for the objects of that graph. -/
def halvingNames : Names :=
  (((∅ : Names).insert ⟨1⟩ "gamma").insert ⟨2⟩ "half").insert ⟨3⟩ "quarter_1"

/-- The definition of the chain under its name. -/
def quarterCode : String :=
  "float quarter_1(float x) \x7b\n    float result_1 = half(x);\n" ++
    "    float result_2 = half(result_1);\n    return result_2;\n\x7d"

theorem definitions_read_back_halving :
    halvingGraph.definition? halvingNames ⟨1⟩ = .ok (some "const float gamma = 2.2;") ∧
    ProgramVariable.findAll "const float gamma = 2.2;".toList =
      [⟨"gamma", some .const, "float"⟩] ∧
    halvingGraph.definition? halvingNames ⟨3⟩ = .ok (some quarterCode) ∧
    Signature.parse quarterCode = .ok ⟨"quarter_1", false, [⟨"float", "x"⟩], "float"⟩ := by
  obtain ⟨hv, htype, hvariable⟩ : halvingGraph.find? ⟨1⟩ = some (.var Store.gamma) ∧
      halvingGraph.type? ⟨1⟩ = some "float" ∧
      halvingGraph.definition? halvingNames ⟨1⟩ = .ok (some "const float gamma = 2.2;") := by
    decide +kernel
  obtain ⟨hc, hchain⟩ : halvingGraph.find? ⟨3⟩ = some (.chain quarter) ∧
      halvingGraph.definition? halvingNames ⟨3⟩ = .ok (some quarterCode) := by
    decide +kernel
  have hgamma : halvingNames[(⟨1⟩ : ObjectId)]? = some "gamma" := by decide
  have hquarter : halvingNames[(⟨3⟩ : ObjectId)]? = some "quarter_1" := by decide
  obtain ⟨q, type, hq, htype', hread⟩ :=
    (definitions_read_back hgamma (by decide)).1 _ _ hv hvariable
  obtain rfl : Qualifier.const = q := Option.some.inj hq
  obtain rfl : "float" = type := Option.some.inj (htype.symm.trans htype')
  exact ⟨hvariable, hread (by decide), hchain,
    (definitions_read_back hquarter (by decide)).2 _ _ hc hchain (by decide)
      (by decide)⟩

end Graph

end ShaderLink
