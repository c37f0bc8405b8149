import ShaderLink.Proofs.Object.WellFormed

/-!
# What edits leave of an object

An object that is there before and after an edit is the same object or a **revision** of it
(`Object.Revised`), and a chain may have been **retyped** on the way (`Object.Retyped`): what is
left of an object is **kept** (`Object.Kept`). Kept objects are well formed if they were, are
emitted or written out as they were, and stay variables if they are.
-/

namespace ShaderLink

namespace Object

/-! ### Retyping -/

/-- Another object with the same parts: the same, or the same chain with other types. -/
inductive Retyped : Object → Object → Prop where
  | same (o : Object) : Retyped o o
  | chain (c : Chain) (arguments : List Argument) (result : String) (stale : Bool) :
      Retyped (.chain c)
        (.chain { c with signature := { c.signature with arguments, result }, stale })

theorem Retyped.trans {a b c : Object} (hab : Retyped a b) (hbc : Retyped b c) : Retyped a c := by
  cases hab with
  | same => exact hbc
  | chain ch arguments result stale =>
    cases hbc with
    | same => exact .chain ch arguments result stale
    | chain _ arguments' result' stale' => exact .chain ch arguments' result' stale'

/-- A chain that gets its types from other members is still the chain of those members. -/
theorem retyped_withTypes (c : Chain) (types : List Argument × String) :
    Retyped (.chain c) (.chain (c.withTypes types)) :=
  .chain c types.1 types.2 false

theorem retyped_stale (c : Chain) : Retyped (.chain c) (.chain { c with stale := true }) :=
  .chain c c.signature.arguments c.signature.result true

namespace Retyped

variable {o o' : Object} (h : Retyped o o')

include h

theorem references_eq : o'.references = o.references := by cases h <;> rfl

theorem emitted_eq : o'.emitted = o.emitted := by cases h <;> rfl

theorem eq_of_not_chain (hc : ∀ c, o ≠ .chain c) : o' = o := by
  cases h with
  | same => rfl
  | chain c => exact absurd rfl (hc c)

theorem isChain_iff : (∃ c, o' = .chain c) ↔ ∃ c, o = .chain c := by
  cases h <;> simp

end Retyped

/-! ### Revisions -/

/-- What a revision of an object can be. A function keeps its signature; a variable counts the
values it takes. -/
inductive Revised : Object → Object → Prop where
  | function {s s' : Snippet} (hsig : s'.signature = s.signature)
      (hwf : s.WellFormed → s'.WellFormed) : Revised (.function s) (.function s')
  | var {v v' : Variable} (hstate : v.state ≤ v'.state)
      (hvalue : v'.state = v.state → v'.value = v.value) (hwf : v.WellFormed → v'.WellFormed) :
      Revised (.var v) (.var v')
  | chain (c c' : Chain) : Revised (.chain c) (.chain c')

theorem Retyped.wellFormed {o o' : Object} (h : o.Retyped o') (ho : o.WellFormed) :
    o'.WellFormed := by
  cases h with
  | same => exact ho
  | chain => trivial

theorem Revised.wellFormed {o o' : Object} (h : o.Revised o') (ho : o.WellFormed) :
    o'.WellFormed := by
  cases h with
  | function _ hwf => exact hwf ho
  | var _ _ hwf => exact hwf ho
  | chain => trivial

/-- Whatever is not a chain keeps its signature, and does not become one. -/
theorem Revised.signature?_eq {o o' : Object} (h : o.Revised o') (hchain : ∀ c, o ≠ .chain c) :
    o'.signature? = o.signature? ∧ ∀ c, o' ≠ .chain c := by
  cases h with
  | function hsig _ => exact ⟨congrArg some hsig, nofun⟩
  | var => exact ⟨rfl, nofun⟩
  | chain c _ => exact absurd rfl (hchain c)

theorem Revised.store (v : Variable) (value : Value) : Revised (.var v) (.var (v.store value)) :=
  .var (Nat.le_succ _) (fun h => absurd h (Nat.succ_ne_self _)) id

/-! ### What is kept -/

/-- What a step leaves of an object: the object or a revision of it, up to the types of chains. -/
def Kept (o o' : Object) : Prop :=
  ∃ o₁, (o₁ = o ∨ o.Revised o₁) ∧ o₁.Retyped o'

/-- An object that is written out where it is used stays what it is, any other stays emitted. -/
def KeepsText (o o' : Object) : Prop :=
  o'.emitted = o.emitted ∧ (o.emitted = false → o' = o)

theorem KeepsText.refl (o : Object) : o.KeepsText o := ⟨rfl, fun _ => rfl⟩

theorem Retyped.keepsText {o o' : Object} (h : o.Retyped o') : o.KeepsText o' := by
  refine ⟨h.emitted_eq, fun he => h.eq_of_not_chain fun c hc => ?_⟩
  rw [hc] at he
  cases he

theorem Revised.keepsText {o o' : Object} (h : o.Revised o') : o.KeepsText o' := by
  cases h <;> exact ⟨rfl, fun h => by cases h⟩

theorem KeepsText.trans {a b c : Object} (hab : a.KeepsText b) (hbc : b.KeepsText c) :
    a.KeepsText c :=
  ⟨hbc.1.trans hab.1, fun ha => (hbc.2 (hab.1.trans ha)).trans (hab.2 ha)⟩

theorem Kept.refl (o : Object) : o.Kept o := ⟨o, .inl rfl, .same o⟩

theorem Revised.kept {o o' : Object} (h : o.Revised o') : o.Kept o' := ⟨o', .inr h, .same o'⟩

theorem Kept.retyped {a b c : Object} (hab : a.Kept b) (hbc : b.Retyped c) : a.Kept c := by
  obtain ⟨a₁, ha, hr⟩ := hab
  exact ⟨a₁, ha, hr.trans hbc⟩

theorem Kept.wellFormed {o o' : Object} (h : o.Kept o') (ho : o.WellFormed) : o'.WellFormed := by
  obtain ⟨o₁, rfl | hrev, hr⟩ := h
  · exact hr.wellFormed ho
  · exact hr.wellFormed (hrev.wellFormed ho)

theorem Kept.var_of_var {o : Object} {v : Variable} (h : o.Kept (.var v)) : ∃ w, o = .var w := by
  obtain ⟨o₁, rfl | hrev, hr⟩ := h
  · cases hr
    exact ⟨v, rfl⟩
  · cases hr
    cases hrev
    exact ⟨_, rfl⟩

/-- A variable counts the values it takes, and keeps the one it has until it takes another. -/
theorem Kept.variable {v v' : Variable} (h : Kept (.var v) (.var v')) :
    v.state ≤ v'.state ∧ (v'.state = v.state → v'.value = v.value) := by
  obtain ⟨o₁, rfl | hrev, hr⟩ := h
  · cases hr
    exact ⟨Nat.le_refl _, fun _ => rfl⟩
  · cases hrev with
    | var hstate hvalue _ =>
      cases hr
      exact ⟨hstate, hvalue⟩

/-- Whether an object is a variable. -/
def IsVariable (o : Object) : Prop := ∃ v, o = .var v

theorem not_isVariable_function {s : Snippet} : ¬ (function s).IsVariable := by
  rintro ⟨v, hv⟩
  cases hv

theorem Kept.isVariable_iff {o o' : Object} (h : o.Kept o') : o.IsVariable ↔ o'.IsVariable := by
  refine ⟨?_, ?_⟩
  · rintro ⟨v, rfl⟩
    obtain ⟨o₁, rfl | hrev, hr⟩ := h
    · exact ⟨v, hr.eq_of_not_chain nofun⟩
    · cases hrev
      exact ⟨_, hr.eq_of_not_chain nofun⟩
  · rintro ⟨v, rfl⟩
    exact h.var_of_var

end Object

end ShaderLink
