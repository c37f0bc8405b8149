import ShaderLink.Proofs.Definition.StraightLine
import ShaderLink.Proofs.Glsl.Signature
import ShaderLink.Proofs.Linker.Emission

/-!
# What chains compute

A chain computes the composition of its members (`StraightLine.Interpretation.compose`). The code
that is written for it is a straight-line program (`Graph.chainDefinition_eq_text`): a line for each
member, from which the next line takes what the member has returned, and a last line that returns
what is left. Running the lines, one member after the other, composes (`StraightLine.run_lines`),
whatever the members do; and the program that is run is the one that is read from the code
(`Graph.chain_composes`).

The names are part of this. A parameter or a local that has the name of a member hides it, so
members must have other names; and code is only read back if its names are words. The types and
parameters of a chain are, because those of all signatures are (`Session.Reachable.readable`); the
names that the chain and its members are given have to be. That the types agree from member to member
plays no part.
-/

namespace ShaderLink

/-- A function as code calls it. -/
structure Callee where
  name : String
  /-- The type that is returned. -/
  result : String
deriving DecidableEq

namespace StraightLine

variable {V W : Type}

namespace Interpretation

/-- What a function does that is called. It returns nothing if its type is `void`. -/
def call (I : Interpretation V W) (f : Callee) (input : List V) (w : W) : Option V × W :=
  if f.result = Glsl.voidType then (none, I.action f.name input w)
  else ((I.value f.name input w).map some id)

/-- **Composition.** The first function is called on the input, and each other one on what the one
before it has returned, if anything. What the last one returns is returned. -/
def compose (I : Interpretation V W) : List Callee → List V → W → Option V × W
  | [], _, w => (none, w)
  | [f], input, w => I.call f input w
  | f :: g :: rest, input, w =>
    let (v, w) := I.call f input w
    I.compose (g :: rest) v.toList w

end Interpretation

end StraightLine

open StraightLine

namespace Callee

/-- The locals that hold what a member at a position has returned: one or none. -/
def kept (position : Nat) (f : Callee) : List String :=
  if f.result = Glsl.voidType then [] else [Graph.resultLocal position]

/-- The line that calls a member at a position. -/
def line (position : Nat) (input : List String) (f : Callee) : Line :=
  if f.result = Glsl.voidType then .call f.name input
  else .define f.result (Graph.resultLocal position) f.name input

/-- The lines that call members from a position on. -/
def lines : Nat → List String → List Callee → List Line
  | _, _, [] => []
  | position, input, f :: rest =>
    f.line position input :: lines (position + 1) (f.kept position) rest

/-- What is left after the calls of members from a position on. -/
def leftover : Nat → List String → List Callee → List String
  | _, input, [] => input
  | position, _, f :: rest => leftover (position + 1) (f.kept position) rest

variable {position : Nat} {input : List String} {f : Callee} {fs : List Callee}

/-- What the last member has returned is left. -/
theorem leftover_concat : leftover position input (fs ++ [f]) = f.kept (position + fs.length) := by
  induction fs generalizing position input with
  | nil => rfl
  | cons g fs ih =>
    rw [List.cons_append, leftover, ih, List.length_cons]
    congr 1
    omega

end Callee

/-! ### Running the lines -/

namespace StraightLine

variable {V W : Type} {I : Interpretation V W} {locals : Locals V}

theorem mapM_locals_singleton {x : String} {v : V} (h : locals x = some v) :
    [x].mapM locals = some [v] := by
  rw [List.mapM_cons, h]
  rfl

/-- What is left is returned. -/
theorem run_answers {input : List String} {values : List V}
    (hinput : input.mapM locals = some values) (w : W) :
    runLines? I (input.map .answer) locals w = some (values.head?, w) := by
  cases input with
  | nil =>
    obtain rfl := Option.some.inj hinput
    rfl
  | cons x rest =>
    rw [List.mapM_cons] at hinput
    obtain ⟨v, hv, hinput⟩ := Option.bind_eq_some_iff.1 hinput
    obtain ⟨vs, -, hinput⟩ := Option.bind_eq_some_iff.1 hinput
    obtain rfl := Option.some.inj hinput
    rw [List.map_cons, runLines?, hv]
    rfl

/-- A member that is not hidden is called on what the locals hold, and what it returns is held by
the local that is kept for it, if it returns anything. -/
theorem run_line (I : Interpretation V W) (position : Nat) {input : List String} {values : List V}
    {f : Callee} (hinput : input.mapM locals = some values) (hfree : locals f.name = none)
    (rest : List Line) (w : W) : ∃ after : Locals V,
      runLines? I (f.line position input :: rest) locals w =
        runLines? I rest after (I.call f values w).2 ∧
      (f.kept position).mapM after = some (I.call f values w).1.toList ∧
      ∀ x, x ≠ Graph.resultLocal position → after x = locals x := by
  have hguard : (guard (locals f.name).isNone : Option Unit) = some () := by
    rw [hfree]
    rfl
  by_cases hvoid : f.result = Glsl.voidType
  · refine ⟨locals, ?_, ?_, fun _ _ => rfl⟩
    · rw [Callee.line, if_pos hvoid, runLines?, hguard, hinput, Interpretation.call, if_pos hvoid]
      rfl
    · rw [Callee.kept, if_pos hvoid, Interpretation.call, if_pos hvoid]
      rfl
  · refine ⟨Function.update locals (Graph.resultLocal position)
      (some (I.value f.name values w).1), ?_, ?_, fun x hx => Function.update_of_ne hx _ _⟩
    · rw [Callee.line, if_neg hvoid, runLines?, hguard, hinput, Interpretation.call, if_neg hvoid]
      rfl
    · rw [Callee.kept, if_neg hvoid, Interpretation.call, if_neg hvoid]
      exact mapM_locals_singleton (Function.update_self ..)

/-- **Running the lines of a chain composes its members.** Where there are none, what was left before
is returned. -/
theorem run_lines {position : Nat} {input : List String} {values : List V} {fs : List Callee}
    (hinput : input.mapM locals = some values) (hfree : ∀ f ∈ fs, locals f.name = none)
    (hlocals : ∀ f ∈ fs, ∀ i < fs.length, f.name ≠ Graph.resultLocal (position + i)) (w : W) :
    runLines? I (Callee.lines position input fs ++ (Callee.leftover position input fs).map .answer)
      locals w = some (if fs = [] then (values.head?, w) else I.compose fs values w) := by
  induction fs generalizing position input values locals w with
  | nil => exact run_answers hinput w
  | cons f rest ih =>
    obtain ⟨after, hrun, hkept, hsame⟩ := run_line I position hinput
      (hfree f List.mem_cons_self)
      (Callee.lines (position + 1) (f.kept position) rest ++
        (Callee.leftover (position + 1) (f.kept position) rest).map .answer) w
    -- the members that follow are not hidden by the new local either
    have hrest : ∀ g ∈ rest, after g.name = none := fun g hg => by
      have hne := hlocals g (List.mem_cons_of_mem f hg) 0 (Nat.succ_pos _)
      rw [hsame g.name hne]
      exact hfree g (List.mem_cons_of_mem f hg)
    have hlater : ∀ g ∈ rest, ∀ i < rest.length, g.name ≠ Graph.resultLocal (position + 1 + i) := by
      intro g hg i hi
      have hne := hlocals g (List.mem_cons_of_mem f hg) (i + 1) (Nat.succ_lt_succ hi)
      rwa [Nat.add_assoc, Nat.add_comm 1]
    rw [Callee.lines, Callee.leftover, List.cons_append, hrun, ih hkept hrest hlater,
      if_neg (List.cons_ne_nil f rest)]
    cases rest with
    | nil =>
      rw [if_pos rfl, Interpretation.compose]
      obtain ⟨_ | v, w'⟩ := I.call f values w <;> rfl
    | cons g rest =>
      rw [if_neg (List.cons_ne_nil g rest), Interpretation.compose]

end StraightLine

/-! ### The code of a chain -/

namespace Graph

variable {g : Graph} {names : Names} {id : ObjectId} {c : Chain}

/-- A member of a chain under the name that it is given. -/
def callee (g : Graph) (names : Names) (member : ObjectId) : Except LinkError Callee := do
  let s ← g.callable member
  let name ← nameIn names member
  return { name, result := s.result }

/-- The lines that call the members of a chain, as they are written. -/
theorem chainCalls_eq {members : List ObjectId} {callees : List Callee}
    (h : members.mapM (g.callee names) = .ok callees) (position : Nat) (input : List String) :
    g.chainCalls names position (", ".intercalate input) members =
      .ok (String.join ((Callee.lines position input callees).map fun l => l.text ++ "\n"),
        ", ".intercalate (Callee.leftover position input callees)) := by
  induction members generalizing position input callees with
  | nil =>
    obtain rfl := Except.ok.inj h
    rfl
  | cons member rest ih =>
    rw [List.mapM_cons] at h
    obtain ⟨f, hf, h⟩ := Except.bind_eq_ok_iff.1 h
    obtain ⟨fs, hfs, h⟩ := Except.bind_eq_ok_iff.1 h
    obtain rfl := Except.ok.inj h
    obtain ⟨s, hs, hf⟩ := Except.bind_eq_ok_iff.1 hf
    obtain ⟨name, hname, hf⟩ := Except.bind_eq_ok_iff.1 hf
    obtain rfl := Except.ok.inj hf
    have ih := ih hfs (position + 1)
    rw [chainCalls, hs, Except.ok_bind, hname, Except.ok_bind]
    dsimp only
    by_cases hvoid : s.result = Glsl.voidType
    · have hrest := ih []
      rw [String.intercalate_nil] at hrest
      rw [if_pos hvoid, hrest, Callee.lines, Callee.leftover, Callee.line, Callee.kept, if_pos hvoid,
        if_pos hvoid, List.map_cons, String.join_cons]
      simp [Line.text, String.append_assoc]
    · have hrest := ih [resultLocal position]
      rw [String.intercalate_singleton] at hrest
      rw [if_neg hvoid, hrest, Callee.lines, Callee.leftover, Callee.line, Callee.kept, if_neg hvoid,
        if_neg hvoid, List.map_cons, String.join_cons]
      simp [Line.text, String.append_assoc]

/-- The program that the code of a chain is. -/
def chainProgram (name : String) (s : Signature) (callees : List Callee) : StraightLine.Program where
  result := s.result
  name := name
  parameters := s.arguments
  body := Callee.lines 0 (s.arguments.map (·.name)) callees ++
    (Callee.leftover 0 (s.arguments.map (·.name)) callees).map .answer

theorem callee_eq_ok {member : ObjectId} {f : Callee} (h : g.callee names member = .ok f) :
    ∃ s, g.callable member = .ok s ∧ names[member]? = some f.name ∧ f.result = s.result := by
  obtain ⟨s, hs, h⟩ := Except.bind_eq_ok_iff.1 h
  obtain ⟨name, hname, h⟩ := Except.bind_eq_ok_iff.1 h
  obtain rfl := Except.ok.inj h
  exact ⟨s, hs, nameIn_eq_ok_iff.1 hname, rfl⟩

/-- The last member gives the type that a chain returns. -/
theorem result_of_deriveTypes {members : List ObjectId} {last : ObjectId}
    {types : List Argument × String} (h : g.deriveTypes (members ++ [last]) = .ok types) :
    ∃ s, g.callable last = .ok s ∧ types.2 = s.result := by
  obtain ⟨first, hfirst⟩ : ∃ first, (members ++ [last]).head? = some first := by
    cases members <;> exact ⟨_, rfl⟩
  rw [deriveTypes, hfirst, List.getLast?_concat] at h
  obtain ⟨s, -, h⟩ := Except.bind_eq_ok_iff.1 h
  obtain ⟨t, ht, h⟩ := Except.bind_eq_ok_iff.1 h
  obtain rfl := Except.ok.inj h
  exact ⟨t, ht, rfl⟩

/-- What is left in the end is what the chain returns. -/
theorem leftover_of_deriveTypes {members : List ObjectId} {callees : List Callee}
    {types : List Argument × String} (hcallees : members.mapM (g.callee names) = .ok callees)
    (htypes : g.deriveTypes members = .ok types) :
    (types.2 = Glsl.voidType ∧ Callee.leftover 0 (types.1.map (·.name)) callees = []) ∨
      (types.2 ≠ Glsl.voidType ∧ ∃ x, Callee.leftover 0 (types.1.map (·.name)) callees = [x]) := by
  obtain rfl | ⟨ms, last, rfl⟩ := List.eq_nil_or_concat members
  · obtain rfl := Except.ok.inj hcallees
    obtain rfl := Except.ok.inj htypes
    exact .inl ⟨rfl, rfl⟩
  · rw [List.concat_eq_append] at hcallees htypes
    rw [List.mapM_append] at hcallees
    obtain ⟨fs, -, hcallees⟩ := Except.bind_eq_ok_iff.1 hcallees
    obtain ⟨gs, hgs, hcallees⟩ := Except.bind_eq_ok_iff.1 hcallees
    rw [List.mapM_cons, List.mapM_nil] at hgs
    obtain ⟨f, hf, hgs⟩ := Except.bind_eq_ok_iff.1 hgs
    obtain rfl : [f] = gs := Except.ok.inj hgs
    obtain rfl := Except.ok.inj hcallees
    -- the last callee has the type that the last member gives the chain
    obtain ⟨s, hs, -, hresult⟩ := callee_eq_ok hf
    obtain ⟨t, ht, htypes⟩ := result_of_deriveTypes htypes
    obtain rfl : s = t := Except.ok.inj (hs.symm.trans ht)
    rw [Callee.leftover_concat, Callee.kept, hresult, htypes]
    by_cases hvoid : s.result = Glsl.voidType
    · exact .inl ⟨hvoid, if_pos hvoid⟩
    · exact .inr ⟨hvoid, _, if_neg hvoid⟩

/-- **The code of a chain is a straight-line program**, as it is written. -/
theorem chainDefinition_eq_text {name : String} {callees : List Callee}
    (hcheck : g.checkChain c = .ok ())
    (htypes : g.deriveTypes c.members = .ok (c.signature.arguments, c.signature.result))
    (hname : names[id]? = some name) (hcallees : c.members.mapM (g.callee names) = .ok callees) :
    g.chainDefinition names id c = .ok (chainProgram name c.signature callees).text := by
  have hcalls := chainCalls_eq hcallees 0 (c.signature.arguments.map (·.name))
  rw [chainDefinition, hcheck, Except.ok_bind, nameIn_eq_ok_iff.2 hname, Except.ok_bind]
  dsimp only
  rw [hcalls, Except.ok_bind]
  obtain ⟨hvoid, hleft⟩ | ⟨hvoid, x, hleft⟩ := leftover_of_deriveTypes hcallees htypes
  · dsimp only at hvoid hleft
    rw [if_pos hvoid]
    simp [chainProgram, StraightLine.Program.text, hleft, String.append_assoc]
  · dsimp only at hvoid hleft
    rw [if_neg hvoid]
    simp [chainProgram, StraightLine.Program.text, hleft, Line.text, String.append_assoc]

/-- Each callee is one of the members. -/
theorem exists_of_mem_callees {members : List ObjectId} {callees : List Callee}
    (h : members.mapM (g.callee names) = .ok callees) :
    callees.length = members.length ∧
      ∀ f ∈ callees, ∃ x ∈ members, g.callee names x = .ok f := by
  induction members generalizing callees with
  | nil =>
    obtain rfl := Except.ok.inj h
    exact ⟨rfl, nofun⟩
  | cons x members ih =>
    rw [List.mapM_cons] at h
    obtain ⟨f, hf, h⟩ := Except.bind_eq_ok_iff.1 h
    obtain ⟨fs, hfs, h⟩ := Except.bind_eq_ok_iff.1 h
    obtain rfl := Except.ok.inj h
    obtain ⟨hlength, hmem⟩ := ih hfs
    refine ⟨congrArg (· + 1) hlength, fun f' hf' => ?_⟩
    obtain rfl | hf' := List.mem_cons.1 hf'
    · exact ⟨x, List.mem_cons_self, hf⟩
    · obtain ⟨y, hy, hf'⟩ := hmem f' hf'
      exact ⟨y, List.mem_cons_of_mem x hy, hf'⟩

/-! ### Words -/

/-- The locals that hold results have names. -/
theorem isName_resultLocal (position : Nat) : Glsl.isName (resultLocal position).toList = true := by
  have htext : (resultLocal position).toList =
      'r' :: ("esult_".toList ++ Nat.toDigits 10 (position + 1)) := by
    simp [resultLocal, Nat.repr]
  have hdigit : ∀ c ∈ Nat.toDigits 10 (position + 1), Glsl.isNamePart c = true := fun c hc => by
    have hc := Nat.isDigit_of_mem_toDigits (by decide) (by decide) hc
    simp [Glsl.isNamePart, Char.isAlphanum, hc]
  have hletters : ("esult_".toList).all Glsl.isNamePart = true := by decide
  rw [htext, Glsl.isName, List.all_append, hletters, Bool.true_and, List.all_eq_true.2 hdigit]
  decide

/-- The lines that call functions are made of words if what is passed first and the functions are,
and so is what is left in the end. -/
theorem isWord_lines (position : Nat) {input : List String} {callees : List Callee}
    (hinput : ∀ w ∈ input, IsWord w) (hcallees : ∀ f ∈ callees, IsWord f.name ∧ IsWord f.result) :
    (∀ l ∈ Callee.lines position input callees, ∀ w ∈ l.names, IsWord w) ∧
      ∀ w ∈ Callee.leftover position input callees, IsWord w := by
  induction callees generalizing position input with
  | nil => exact ⟨nofun, hinput⟩
  | cons f rest ih =>
    obtain ⟨hname, hresult⟩ := hcallees f List.mem_cons_self
    have hlocal : IsWord (resultLocal position) := isWord_of_isName (isName_resultLocal position)
    have hkept : ∀ w ∈ f.kept position, IsWord w := by
      intro w hw
      unfold Callee.kept at hw
      split at hw
      · cases hw
      · exact List.mem_singleton.1 hw ▸ hlocal
    have hline : ∀ w ∈ (f.line position input).names, IsWord w := by
      unfold Callee.line
      split
      · exact List.forall_mem_cons.2 ⟨hname, hinput⟩
      · exact List.forall_mem_cons.2 ⟨hresult, List.forall_mem_cons.2 ⟨hlocal,
          List.forall_mem_cons.2 ⟨hname, hinput⟩⟩⟩
    obtain ⟨hlines, hleftover⟩ := ih (position + 1) hkept fun g hg =>
      hcallees g (List.mem_cons_of_mem f hg)
    exact ⟨List.forall_mem_cons.2 ⟨hline, hlines⟩, hleftover⟩

/-- The code of a chain is made of words. -/
theorem isWord_chainProgram {name : String} {s : Signature} {callees : List Callee}
    (hs : s.Readable) (hname : IsWord name)
    (hcallees : ∀ f ∈ callees, IsWord f.name ∧ IsWord f.result) :
    ∀ w ∈ (chainProgram name s callees).names, IsWord w := by
  have hinput : ∀ w ∈ s.arguments.map (·.name), IsWord w := by
    intro w hw
    obtain ⟨a, ha, rfl⟩ := List.mem_map.1 hw
    exact isWord_of_isName (hs.arguments a ha).2
  obtain ⟨hlines, hleftover⟩ := isWord_lines 0 hinput hcallees
  intro w hw
  simp only [StraightLine.Program.names, chainProgram, List.mem_cons, List.mem_append,
    List.mem_flatMap, List.mem_map] at hw
  obtain rfl | rfl | ⟨a, ha, hw⟩ | ⟨l, hl | ⟨x, hx, rfl⟩, hw⟩ := hw
  · exact isWord_of_isName hs.result
  · exact hname
  · obtain rfl | rfl | hw := hw
    · exact isWord_of_isName (hs.arguments a ha).1
    · exact isWord_of_isName (hs.arguments a ha).2
    · cases hw
  · exact hlines l hl w hw
  · obtain rfl := List.mem_singleton.1 hw
    exact hleftover w hx

/-- **The program of a chain composes the members**, if none of them is hidden. Without members it
returns nothing, because it has no parameters then. -/
theorem run_chainProgram {V W : Type} {I : Interpretation V W} {name : String} {s : Signature}
    {callees : List Callee} (hempty : callees = [] → s.arguments = [])
    (hfree : ∀ f ∈ callees, f.name ∉ s.arguments.map (·.name) ∧
      ∀ i < callees.length, f.name ≠ resultLocal i) (arguments : String → V) (w : W) :
    (chainProgram name s callees).run? I arguments w =
      some (I.compose callees (s.arguments.map fun a => arguments a.name) w) := by
  let locals : Locals V := fun x =>
    if x ∈ s.arguments.map (·.name) then some (arguments x) else none
  have hinput : (s.arguments.map (·.name)).mapM locals =
      some (s.arguments.map fun a => arguments a.name) := by
    have hparameters : ∀ l ⊆ s.arguments, (l.map (·.name)).mapM locals =
        some (l.map fun a => arguments a.name) := by
      intro l hl
      induction l with
      | nil => rfl
      | cons a l ih =>
        have ha : locals a.name = some (arguments a.name) :=
          if_pos (List.mem_map.2 ⟨a, hl List.mem_cons_self, rfl⟩)
        rw [List.map_cons, List.mapM_cons, ha, ih fun b hb => hl (List.mem_cons_of_mem a hb)]
        rfl
    exact hparameters _ (List.Subset.refl _)
  have hhidden : ∀ f ∈ callees, locals f.name = none := fun f hf => if_neg (hfree f hf).1
  have hlocals : ∀ f ∈ callees, ∀ i < callees.length, f.name ≠ resultLocal (0 + i) := by
    intro f hf i hi
    rw [Nat.zero_add]
    exact (hfree f hf).2 i hi
  refine (run_lines hinput hhidden hlocals w).trans (congrArg some ?_)
  by_cases hnil : callees = []
  · subst hnil
    rw [if_pos rfl, hempty rfl]
    rfl
  · rw [if_neg hnil]

section

variable {σ : Session} {k : Nat}

/-- **A chain computes the composition of its members.** Its code is read as a program with its
parameters; and whatever the functions that are called do, running that program on any arguments
calls the members in order, once for each time that they are members: the first one on all
arguments, and each other one on what the one before it has returned, or on nothing after a member
that returns nothing. What the last one returns is returned. -/
theorem chain_composes (h : σ.Reachable) (hcheck : (σ.graphs k).checkChain c = .ok ())
    (htypes : (σ.graphs k).deriveTypes c.members =
      .ok (c.signature.arguments, c.signature.result))
    (hnames : ∀ x ∈ id :: c.members, ∃ name, names[x]? = some name ∧ IsWord name)
    (hfree : ∀ x ∈ c.members, ∀ name, names[x]? = some name →
      name ∉ c.signature.arguments.map (·.name) ∧
        ∀ i < c.members.length, name ≠ resultLocal i) :
    ∃ callees code p, c.members.mapM ((σ.graphs k).callee names) = .ok callees ∧
      (σ.graphs k).chainDefinition names id c = .ok code ∧ read? code = some p ∧
      p.parameters = c.signature.arguments ∧
      ∀ (V W : Type) (I : Interpretation V W) (arguments : String → V) (w : W),
        p.run? I arguments w =
          some (I.compose callees (c.signature.arguments.map fun a => arguments a.name) w) := by
  obtain ⟨name, hname, hword⟩ := hnames id List.mem_cons_self
  obtain ⟨callees, hcallees⟩ : ∃ callees,
      c.members.mapM ((σ.graphs k).callee names) = .ok callees := by
    refine exists_mapM_eq_ok fun x hx => ?_
    obtain ⟨s, hs⟩ := Closure.callable_of_checkChain hcheck x hx
    obtain ⟨name, hname, -⟩ := hnames x (List.mem_cons_of_mem id hx)
    rw [callee, hs, Except.ok_bind, nameIn_eq_ok_iff.2 hname]
    exact ⟨_, rfl⟩
  obtain ⟨hlength, hmembers⟩ := exists_of_mem_callees hcallees
  have hwords : ∀ f ∈ callees, IsWord f.name ∧ IsWord f.result := fun f hf => by
    obtain ⟨x, hx, hf⟩ := hmembers f hf
    obtain ⟨s, hs, hfname, hresult⟩ := callee_eq_ok hf
    obtain ⟨name, hname, hword⟩ := hnames x (List.mem_cons_of_mem id hx)
    obtain rfl := Option.some.inj (hname.symm.trans hfname)
    exact ⟨hword, hresult ▸ isWord_of_isName ((h.readable k).readable_of_callable hs).result⟩
  have hdistinct : ∀ f ∈ callees, f.name ∉ c.signature.arguments.map (·.name) ∧
      ∀ i < callees.length, f.name ≠ resultLocal i := fun f hf => by
    obtain ⟨x, hx, hf⟩ := hmembers f hf
    obtain ⟨-, -, hfname, -⟩ := callee_eq_ok hf
    rw [hlength]
    exact hfree x hx f.name hfname
  have hempty : callees = [] → c.signature.arguments = [] := fun hnil => by
    have hmembers : c.members = [] := List.eq_nil_of_length_eq_zero (by rw [← hlength, hnil]; rfl)
    rw [hmembers] at htypes
    exact (Prod.mk.inj (Except.ok.inj htypes)).1.symm
  have hreadable : c.signature.Readable :=
    (h.readable k).readable_of_deriveTypes htypes c.signature.name c.signature.anonymous
  exact ⟨callees, _, chainProgram name c.signature callees, hcallees,
    chainDefinition_eq_text hcheck htypes hname hcallees,
    read?_text (isWord_chainProgram hreadable hword hwords), rfl,
    fun V W I arguments w => run_chainProgram hempty hdistinct arguments w⟩

/-- A session with a chain of functions, of which one is a member twice and one returns nothing. -/
def stepsSession : Session :=
  Session.empty.edited 0 [.function "float $norm(vec2 p, float s) \x7b return s; \x7d",
    .function "float $half(float x) \x7b return x / 2.0; \x7d",
    .function "void $note(float x) \x7b \x7d", .function "int $count() \x7b return 1; \x7d",
    .chain "steps" false [⟨1⟩, ⟨2⟩, ⟨2⟩, ⟨3⟩, ⟨4⟩]]

/-- The chain of that session. -/
def stepsChain : Chain where
  signature :=
    { name := "steps", anonymous := false
      arguments := [⟨"vec2", "p"⟩, ⟨"float", "s"⟩], result := "int" }
  members := [⟨1⟩, ⟨2⟩, ⟨2⟩, ⟨3⟩, ⟨4⟩]
  stale := false

/-- Names for the chain and its members. -/
def stepsNames : Names :=
  (((((∅ : Names).insert ⟨1⟩ "norm").insert ⟨2⟩ "half").insert ⟨3⟩ "note").insert ⟨4⟩ "count").insert
    ⟨5⟩ "steps"

/-- The members of the chain are called one after the other, one of them twice, and the last one on
nothing. -/
theorem chain_composes_steps :
    (stepsSession.graphs 0).find? ⟨5⟩ = some (.chain stepsChain) ∧
    ∃ callees code p, stepsChain.members.mapM ((stepsSession.graphs 0).callee stepsNames) =
        .ok callees ∧
      callees = [⟨"norm", "float"⟩, ⟨"half", "float"⟩, ⟨"half", "float"⟩, ⟨"note", "void"⟩,
        ⟨"count", "int"⟩] ∧
      (stepsSession.graphs 0).chainDefinition stepsNames ⟨5⟩ stepsChain = .ok code ∧
      read? code = some p ∧ p.parameters = [⟨"vec2", "p"⟩, ⟨"float", "s"⟩] ∧
      ∀ (V W : Type) (I : Interpretation V W) (arguments : String → V) (w : W),
        p.run? I arguments w = some (I.compose callees [arguments "p", arguments "s"] w) := by
  have hany : Session.ReachableBy (fun _ _ => True) stepsSession :=
    Session.ReachableBy.empty.edited fun _ _ _ => trivial
  have hnames : ∀ x ∈ (⟨5⟩ : ObjectId) :: stepsChain.members,
      ∃ name, stepsNames[x]? = some name ∧ IsWord name := fun x hx => by
    have hall : ∀ x ∈ (⟨5⟩ : ObjectId) :: stepsChain.members,
        stepsNames[x]?.any (fun name => Glsl.isName name.toList) = true := by
      decide
    obtain ⟨name, hname, hword⟩ := (Option.any_eq_true _ _).1 (hall x hx)
    exact ⟨name, hname, isWord_of_isName hword⟩
  have hfree : ∀ x ∈ stepsChain.members, ∀ name, stepsNames[x]? = some name →
      name ∉ stepsChain.signature.arguments.map (·.name) ∧
        ∀ i < stepsChain.members.length, name ≠ resultLocal i := fun x hx name hname => by
    have hall : ∀ x ∈ stepsChain.members, stepsNames[x]?.all (fun name =>
        name ∉ stepsChain.signature.arguments.map (·.name) ∧
          ∀ i < stepsChain.members.length, name ≠ resultLocal i) = true := by
      decide
    have hx := hall x hx
    rw [hname] at hx
    exact of_decide_eq_true hx
  obtain ⟨hfind, hcheck, htypes, hlist⟩ :
      (stepsSession.graphs 0).find? ⟨5⟩ = some (.chain stepsChain) ∧
      (stepsSession.graphs 0).checkChain stepsChain = .ok () ∧
      (stepsSession.graphs 0).deriveTypes stepsChain.members =
        .ok (stepsChain.signature.arguments, stepsChain.signature.result) ∧
      stepsChain.members.mapM ((stepsSession.graphs 0).callee stepsNames) =
        .ok [⟨"norm", "float"⟩, ⟨"half", "float"⟩, ⟨"half", "float"⟩, ⟨"note", "void"⟩,
          ⟨"count", "int"⟩] := by
    decide +kernel
  obtain ⟨callees, code, p, hcallees, hcode, hread, hparameters, hrun⟩ :=
    chain_composes hany.reachable hcheck htypes hnames hfree
  exact ⟨hfind, callees, code, p, hcallees, Except.ok.inj (hcallees.symm.trans hlist), hcode, hread,
    hparameters, hrun⟩

end

end Graph

end ShaderLink
