import ShaderLink.Proofs.LastGiven
import ShaderLink.Proofs.Store.Kinds

/-!
# How a main code came about

A main code is read once and then handed on with more attached to it or assigned at its end
(`StageMain.Assembled`). All that was read stays as it was (`StageMain.Assembled.exists_dedent`), so
its static names are what the code that was read declares
(`StageMain.Assembled.mem_staticNames_iff`). The outputs are those that were assigned, in the order
in which they were first assigned, each with the expression assigned last
(`StageMain.Assembled.outputs_eq`).

That is what all main codes of a reachable session are like
(`Session.Reachable.exists_assembled`).
-/

namespace ShaderLink

namespace StageMain

variable {code : String} {given : List (Output × ObjectId)} {m m' : StageMain}

/-- **A main code that was read from code**, with the assignments that it was given on the way. -/
inductive Assembled (code : String) : List (Output × ObjectId) → StageMain → Prop where
  | ofCode {m : StageMain} (h : ofCode code = .ok m) : Assembled code [] m
  | attach {given : List (Output × ObjectId)} {m : StageMain} (h : Assembled code given m)
      (a : Attachment) : Assembled code given (m.attach a)
  | assign {given : List (Output × ObjectId)} {m m' : StageMain} {target : String}
      {expression : ObjectId} (h : Assembled code given m)
      (hassign : m.assign target expression = .ok m') :
      Assembled code (given ++ [(.builtin target, expression)]) m'
  | assignVarying {given : List (Output × ObjectId)} {m m' : StageMain}
      {varying expression : ObjectId} {s t : Store} (h : Assembled code given m)
      (hrun : (m.assignVarying varying expression).run s = .ok m' t) :
      Assembled code (given ++ [(.varying varying, expression)]) m'

theorem setOutput_eq_put (output : Output) (expression : ObjectId) (l : List (Output × ObjectId)) :
    setOutput output expression l = put output expression l := by
  induction l with
  | nil => rfl
  | cons p l ih => rw [setOutput, put, ih]

/-- **Each output is assigned once**, where it was first assigned and what it was assigned last. -/
theorem Assembled.outputs_eq (h : Assembled code given m) : m.outputs = lastGiven given := by
  induction h with
  | ofCode h =>
    obtain ⟨dedented, -, rfl⟩ := ofCode_eq_ok_iff.1 h
    rfl
  | attach _ a ih => exact ih
  | assign _ hassign ih =>
    rw [eq_of_assign hassign, ih, setOutput_eq_put, lastGiven_concat]
  | assignVarying _ hrun ih =>
    rw [(eq_of_assignVarying hrun).1, ih, setOutput_eq_put, lastGiven_concat]

/-- **Template and static names are those of the dedented code.** -/
theorem Assembled.exists_dedent (h : Assembled code given m) :
    ∃ dedented, Text.dedent code.toList = some dedented ∧
      m.template = Template.ofChars dedented ∧ m.staticNames = declaredNames dedented := by
  induction h with
  | ofCode h =>
    obtain ⟨dedented, hdedent, rfl⟩ := ofCode_eq_ok_iff.1 h
    exact ⟨dedented, hdedent, rfl, rfl⟩
  | attach _ a ih => exact ih
  | assign _ hassign ih =>
    obtain rfl := eq_of_assign hassign
    exact ih
  | assignVarying _ hrun ih =>
    obtain ⟨rfl, -⟩ := eq_of_assignVarying hrun
    exact ih

/-! ### Declared names -/

/-- **What a main code declares**: variables, functions that have names of their own, with their
arguments, and prototypes. The entry point is none of its functions. -/
inductive Declares (code : List Char) : String → Prop where
  | global {v : ProgramVariable} (hv : v ∈ ProgramVariable.findAll code) : Declares code v.name
  | function {s : Signature} (hs : s ∈ Signature.findAll code) (hnamed : s.anonymous = false)
      (hmain : s.name ≠ "main") : Declares code s.name
  | argument {s : Signature} {a : Argument} (hs : s ∈ Signature.findAll code)
      (hnamed : s.anonymous = false) (hmain : s.name ≠ "main") (ha : a ∈ s.arguments) :
      Declares code a.name
  | prototype {p : Prototype} (hp : p ∈ Prototype.findAll code) : Declares code p.name

theorem mem_declaredNames_iff {code : List Char} {name : String} :
    name ∈ declaredNames code ↔ Declares code name := by
  have hfunctions : ∀ s, s ∈ (Signature.findAll code).filter
      (fun s => !s.anonymous && s.name != entryPoint) ↔
      s ∈ Signature.findAll code ∧ s.anonymous = false ∧ s.name ≠ "main" := by
    simp [entryPoint]
  rw [declaredNames, List.mem_eraseDups, List.mem_append, List.mem_append]
  constructor
  · rintro ((h | h) | h)
    · obtain ⟨v, hv, rfl⟩ := List.mem_map.1 h
      exact .global hv
    · obtain ⟨s, hs, h⟩ := List.mem_flatMap.1 h
      obtain ⟨hs, hnamed, hmain⟩ := (hfunctions s).1 hs
      obtain rfl | h := List.mem_cons.1 h
      · exact .function hs hnamed hmain
      · obtain ⟨a, ha, rfl⟩ := List.mem_map.1 h
        exact .argument hs hnamed hmain ha
    · obtain ⟨p, hp, rfl⟩ := List.mem_map.1 h
      exact .prototype hp
  · intro h
    cases h with
    | global hv => exact .inl (.inl (List.mem_map_of_mem hv))
    | function hs hnamed hmain =>
      have hs := (hfunctions _).2 ⟨hs, hnamed, hmain⟩
      exact .inl (.inr (List.mem_flatMap.2 ⟨_, hs, List.mem_cons_self⟩))
    | @argument s a hs hnamed hmain ha =>
      have hs := (hfunctions _).2 ⟨hs, hnamed, hmain⟩
      have hargument : a.name ∈ s.arguments.map (·.name) := List.mem_map_of_mem ha
      exact .inl (.inr (List.mem_flatMap.2 ⟨_, hs, List.mem_cons_of_mem _ hargument⟩))
    | prototype hp => exact .inr (List.mem_map_of_mem hp)

/-- **The static names of a main code are what its code declares.** -/
theorem Assembled.mem_staticNames_iff (h : Assembled code given m) {dedented : List Char}
    (hdedent : Text.dedent code.toList = some dedented) {name : String} :
    name ∈ m.staticNames ↔ Declares dedented name := by
  obtain ⟨read, hread, -, hnames⟩ := h.exists_dedent
  obtain rfl := Option.some.inj (hdedent.symm.trans hread)
  rw [hnames, mem_declaredNames_iff]

end StageMain

/-- **Every main code of a session was assembled.** -/
theorem Session.Reachable.exists_assembled {σ : Session} (h : Reachable σ) :
    ∀ m ∈ σ.mains, ∃ code given, StageMain.Assembled code given m := by
  induction h with
  | empty => exact nofun
  | @act σ h a ha ih =>
    intro m hm
    cases a with
    | readMain code =>
      obtain hm | hm := List.mem_append.1 hm
      · have hread := Except.toOption_eq_some_iff.1 (Option.mem_toList.1 hm)
        exact ⟨code, [], .ofCode hread⟩
      · exact ih m hm
    | attach m' attachment =>
      obtain rfl | hm := List.mem_cons.1 hm
      · obtain ⟨code, given, hm'⟩ := ih m' ha
        exact ⟨code, given, hm'.attach attachment⟩
      · exact ih m hm
    | assign m' target expression =>
      obtain hm | hm := List.mem_append.1 hm
      · obtain ⟨code, given, hm'⟩ := ih m' ha
        have hassign := Except.toOption_eq_some_iff.1 (Option.mem_toList.1 hm)
        exact ⟨code, _, hm'.assign hassign⟩
      · exact ih m hm
    | assignVarying k m' varying expression =>
      dsimp only [Action.perform] at hm
      cases hrun : (m'.assignVarying varying expression).run (σ.store k) with
      | error _ s =>
        rw [hrun] at hm
        exact ih m hm
      | ok m'' s =>
        rw [hrun] at hm
        obtain rfl | hm := List.mem_cons.1 hm
        · obtain ⟨code, given, hm'⟩ := ih m' ha
          exact ⟨code, _, hm'.assignVarying hrun⟩
        · exact ih m hm
    | _ => exact ih m hm

end ShaderLink
