import Mathlib.Logic.Relation
import ShaderLink.Proofs.Number.Literal
import ShaderLink.Proofs.Store.Values

/-!
# What constants are defined as

A constant keeps the type of its declaration and has a value of that type, whatever it is given
(`Variable.ConstantOf`). So its definition holds a literal of that type: a truth value, an integer or
a floating-point number (`Graph.literal_of_constant`). There is one exception. Infinities, and what is
not a number, are accepted as values of constants, in declarations too, but shader code has no
literals for them; they are written as words (`Graph.infinite_constant`).
-/

namespace ShaderLink

/-- **A literal of a type**, for the types that have literals. -/
def Glsl.IsLiteral (type : String) (s : List Char) : Prop :=
  type = "bool" ∧ (s = "true".toList ∨ s = "false".toList) ∨
    type = "int" ∧ IsIntegerLiteral s ∨ type = "float" ∧ IsFloatLiteral s

/-! ### Values of constants -/

/-- What a word writes is of the type that it is read as. -/
theorem Declaration.type_of_readLiteral? {type word : String} {value : Value}
    (h : readLiteral? type word = some value) : value.type = type := by
  unfold readLiteral? at h
  split at h
  · next htype =>
    obtain ⟨n, -, rfl⟩ := Option.map_eq_some_iff.1 h
    exact htype.symm
  · split at h
    · next htype =>
      obtain ⟨n, -, rfl⟩ := Option.map_eq_some_iff.1 h
      exact htype.symm
    · split at h
      · next htype =>
        split at h
        · cases h
          exact htype.symm
        · split at h
          · cases h
            exact htype.symm
          · cases h
      · cases h

theorem Declaration.type_of_value_of_ofWords {q type name : String} {literal : Option String}
    {d : Declaration} (h : ofWords q type name literal = .ok d) :
    ∀ value, d.value = some value → value.type = d.type := by
  obtain ⟨q', -, -, -, ⟨-, -, rfl⟩ | ⟨word, value, -, hread, rfl⟩⟩ := ofWords_cases h
  · nofun
  · rintro _ ⟨⟩
    exact type_of_readLiteral? hread

namespace Variable

variable {v w : Variable} {value : Value} {changed : Bool} {type : String}

/-- Any number of values are accepted one after the other. -/
def AssignedTo : Variable → Variable → Prop :=
  Relation.ReflTransGen fun v w => ∃ value changed, v.setValue value = .ok (w, changed)

/-- **A constant of a type**, with a value of the type. -/
structure ConstantOf (type : String) (v : Variable) : Prop where
  qualifier_eq : v.qualifier = some .const
  type_eq : v.type = some type
  value_type : ∀ value, v.value = some value → value.type = type

/-- A value that is accepted leaves a constant one of its type. -/
theorem ConstantOf.setValue (hv : v.ConstantOf type) (h : v.setValue value = .ok (w, changed)) :
    w.ConstantOf type := by
  obtain ⟨-, ht, rfl, -⟩ | ⟨hq, -⟩ := setValue_cases h
  · refine ⟨hv.qualifier_eq, hv.type_eq, fun stored hstored => ?_⟩
    obtain rfl : value = stored := Option.some.inj hstored
    exact Option.some.inj (ht.symm.trans hv.type_eq)
  · exact absurd hv.qualifier_eq hq

theorem ConstantOf.assignedTo (hv : v.ConstantOf type) (h : v.AssignedTo w) :
    w.ConstantOf type := by
  induction h with
  | refl => exact hv
  | tail _ hset ih =>
    obtain ⟨value, changed, hset⟩ := hset
    exact ih.setValue hset

theorem constantOf_ofDeclaration {text : String} {d : Declaration}
    (hparse : Declaration.parse text = .ok d) (hconst : d.qualifier = .const) :
    (ofDeclaration d).ConstantOf d.type := by
  refine ⟨congrArg some hconst, rfl, ?_⟩
  unfold Declaration.parse at hparse
  split at hparse
  · exact Declaration.type_of_value_of_ofWords hparse
  · exact Declaration.type_of_value_of_ofWords hparse
  · cases hparse

end Variable

/-! ### Literals of constants -/

/-- A value of a scalar type is written as a literal of the type, unless it is a number that is not
finite. -/
theorem Value.isLiteral_iff {value : Value} {literal : String} (h : value.literal = some literal)
    (htype : value.type ∈ literalTypes) :
    (Glsl.IsLiteral value.type literal.toList ↔ ∀ x, value = .float x → x.Finite) ∧
      ∀ x, value = .float x → ¬ x.Finite → literal ∈ ["NaN", "inf", "-inf"] := by
  cases value with
  | bool b =>
    obtain rfl := Option.some.inj h
    refine ⟨iff_of_true (.inl ⟨rfl, ?_⟩) nofun, nofun⟩
    cases b
    · exact .inr rfl
    · exact .inl rfl
  | int n =>
    obtain rfl := Option.some.inj h
    exact ⟨iff_of_true (.inr (.inl ⟨rfl, isIntegerLiteral_toString _⟩)) nofun, nofun⟩
  | float x =>
    obtain rfl := Option.some.inj h
    have hwrite : (number x).toList = x.write layout := String.toList_ofList
    refine ⟨⟨?_, fun hfinite => .inr (.inr ⟨rfl, ?_⟩)⟩, ?_⟩
    · rintro (⟨hbool, -⟩ | ⟨hint, -⟩ | ⟨-, hliteral⟩) y hy
      · simp [type] at hbool
      · simp [type] at hint
      · cases hy
        rw [hwrite] at hliteral
        exact (Single.isFloatLiteral_write_iff layout).1 hliteral
    · rw [hwrite]
      exact Single.isFloatLiteral_write (hfinite x rfl) layout
    · rintro y hy hinfinite
      cases hy
      obtain hword | hword | hword := Single.write_of_not_finite hinfinite layout <;>
        rw [number, hword, String.ofList_toList] <;> decide
  | composite kind components => cases kind <;> simp [type, Composite.type, literalTypes] at htype
  | buffer b => cases h

namespace Graph

variable {g : Graph} {names : Names} {id : ObjectId} {v : Variable} {d : Declaration}
  {text code : String}

/-- **A constant is defined by a literal of its type**, unless its value is infinite or not a number.

Whatever constant is declared, whatever values it is given that it accepts, and whatever it is
called, its definition, if it has one, holds its value between the equals sign and the semicolon.
What is written there is a literal of the declared type just if the value is no infinity and nothing
that is not a number; these are written as words. -/
theorem literal_of_constant (hparse : Declaration.parse text = .ok d)
    (hconst : d.qualifier = .const) (hassigned : (Variable.ofDeclaration d).AssignedTo v)
    (hv : g.find? id = some (.var v)) (hcode : g.definition? names id = .ok (some code)) :
    ∃ name value literal, names[id]? = some name ∧ v.value = some value ∧
      code = "const " ++ d.type ++ " " ++ name ++ " = " ++ literal ++ ";" ∧
      (Glsl.IsLiteral d.type literal.toList ↔ ∀ x, value = .float x → x.Finite) ∧
      ∀ x, value = .float x → ¬ x.Finite → literal ∈ ["NaN", "inf", "-inf"] := by
  have hconstant := (Variable.constantOf_ofDeclaration hparse hconst).assignedTo hassigned
  obtain ⟨q, type, name, hq, htype, hname, ⟨hne, -⟩ | ⟨-, literal, hliteral, rfl⟩⟩ :=
    of_variableDefinition (variableDefinition_of_definition? hv hcode)
  · exact absurd (Option.some.inj (hq.symm.trans hconstant.qualifier_eq)) hne
  · obtain ⟨value, hvalue, hliteral⟩ := Option.bind_eq_some_iff.1 hliteral
    have hsame := hconstant.value_type value hvalue
    obtain rfl : d.type = type :=
      Option.some.inj ((type?_of_type hv hconstant.type_eq).symm.trans htype)
    have hscalar : value.type ∈ literalTypes := hsame ▸ Declaration.type_of_const hparse hconst
    refine ⟨name, value, literal, hname, hvalue, rfl, ?_⟩
    rw [← hsame]
    exact value.isLiteral_iff hliteral hscalar

/-- A small number below zero. -/
def tiny : Single := .ofDecimal true ⟨15, -8⟩

/-- The constant `gamma` is given the number, which is written as a literal. -/
theorem literal_of_constant_gamma :
    (stateAfter (Store.setValue ⟨1⟩ (.float tiny)) Store.gammaStore).graph.definition?
        ((∅ : Names).insert ⟨1⟩ "gamma") ⟨1⟩ = .ok (some "const float gamma = -1.5e-7;") ∧
      ∃ literal, "const float gamma = -1.5e-7;" = "const float gamma = " ++ literal ++ ";" ∧
        Glsl.IsLiteral "float" literal.toList := by
  have hcode : (stateAfter (Store.setValue ⟨1⟩ (.float tiny)) Store.gammaStore).graph.definition?
      ((∅ : Names).insert ⟨1⟩ "gamma") ⟨1⟩ = .ok (some "const float gamma = -1.5e-7;") := by
    decide +kernel
  have hparse : Declaration.parse "const float gamma 2.2" =
      .ok ⟨.const, "float", "gamma", some (.float (.ofDecimal false ⟨22, -1⟩))⟩ := by
    decide +kernel
  have hset : Store.gamma.setValue (.float tiny) =
      .ok (Store.gamma.store (.float tiny), true) := by
    decide +kernel
  have hv : (stateAfter (Store.setValue ⟨1⟩ (.float tiny)) Store.gammaStore).graph.find? ⟨1⟩ =
      some (.var (Store.gamma.store (.float tiny))) := by
    decide +kernel
  obtain ⟨name, value, literal, hname, hvalue, htext, hliteral, -⟩ :=
    literal_of_constant hparse rfl (.single ⟨_, _, hset⟩) hv hcode
  obtain rfl : "gamma" = name := Option.some.inj hname
  refine ⟨hcode, literal, htext, hliteral.2 fun x hx => ?_⟩
  subst hx
  obtain rfl : tiny = x := Value.float.inj (Option.some.inj hvalue)
  decide +kernel

/-- **An infinite constant** is declared, and a constant is given what is not a number. They are
defined by words that are no literals. -/
theorem infinite_constant :
    ((Operation.declare "const float far inf").perform Store.empty).graph.definition?
        ((∅ : Names).insert ⟨1⟩ "far") ⟨1⟩ = .ok (some "const float far = inf;") ∧
      ¬ Glsl.IsLiteral "float" "inf".toList ∧
      (stateAfter (Store.setValue ⟨1⟩ (.float .nan)) Store.gammaStore).graph.definition?
        ((∅ : Names).insert ⟨1⟩ "gamma") ⟨1⟩ = .ok (some "const float gamma = NaN;") ∧
      ¬ Glsl.IsLiteral "float" "NaN".toList := by
  have hnone : ∀ s : List Char, s.any Char.isDigit = false → ¬ Glsl.IsLiteral "float" s := by
    rintro s hs (⟨hbool, -⟩ | ⟨hint, -⟩ | ⟨-, hliteral⟩)
    · simp at hbool
    · simp at hint
    · exact Bool.false_ne_true (hs.symm.trans hliteral.any_isDigit)
  exact ⟨by decide +kernel, hnone _ (by decide), by decide +kernel, hnone _ (by decide)⟩

end Graph

end ShaderLink
