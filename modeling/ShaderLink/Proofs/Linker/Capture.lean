import ShaderLink.Proofs.Definition.Composition
import ShaderLink.Proofs.Linker.Naming

/-!
# Captured names

The code of an object declares names of its own: a function its arguments and variables, a chain a
local for each member that returns something (`Graph.DeclaresLocal`). An object whose name is
written into such code under one of these names is **captured**: the code compiles, and means
something else.

Naming keeps names that the code of functions uses from all objects that can be called otherwise, so
a function only captures what has to have its name (`Linker.static_iff_fixedName`). It knows nothing
of the locals of chains. A chain captures a member that has to have the name of a local or has kept
it, or that was made under a name like that of a local (`Linker.name_of_chain_local`).
-/

namespace ShaderLink

open StraightLine (Line)

/-! ### The locals of a chain -/

/-- The local that a line declares. -/
def StraightLine.Line.local? : Line → Option String
  | .define _ x _ _ => some x
  | .call _ _ => none
  | .answer _ => none

namespace Graph

variable {g : Graph} {names : Names} {c : Chain} {own name : String} {callees : List Callee}

/-- **The locals of a chain**: one for each member that returns something, by its position. -/
def DeclaresLocal (g : Graph) (c : Chain) (name : String) : Prop :=
  ∃ i y s, c.members[i]? = some y ∧ g.callable y = .ok s ∧ s.result ≠ Glsl.voidType ∧
    name = resultLocal i

/-- The locals of the lines that call members from a position on. -/
theorem mem_locals_lines {members : List ObjectId} {position : Nat} {input : List String}
    (h : members.mapM (g.callee names) = .ok callees) :
    name ∈ (Callee.lines position input callees).filterMap Line.local? ↔
      ∃ i y s, members[i]? = some y ∧ g.callable y = .ok s ∧ s.result ≠ Glsl.voidType ∧
        name = resultLocal (position + i) := by
  induction members generalizing position input callees with
  | nil =>
    obtain rfl := Except.ok.inj h
    simp [Callee.lines]
  | cons member rest ih =>
    rw [List.mapM_cons] at h
    obtain ⟨f, hf, h⟩ := Except.bind_eq_ok_iff.1 h
    obtain ⟨fs, hfs, h⟩ := Except.bind_eq_ok_iff.1 h
    obtain rfl := Except.ok.inj h
    obtain ⟨s, hs, -, hresult⟩ := callee_eq_ok hf
    -- a local is that of the first line, or of one that comes later
    have hfirst : (f.line position input).local? = some name ↔
        s.result ≠ Glsl.voidType ∧ name = resultLocal position := by
      unfold Callee.line
      rw [hresult]
      split
      · next hvoid => simp [Line.local?, hvoid]
      · next hvoid => simp [Line.local?, hvoid, eq_comm]
    have hcons : name ∈ (Callee.lines position input (f :: fs)).filterMap Line.local? ↔
        (f.line position input).local? = some name ∨
          name ∈ (Callee.lines (position + 1) (f.kept position) fs).filterMap Line.local? := by
      simp only [Callee.lines, List.mem_filterMap, List.mem_cons, exists_eq_or_imp]
    rw [hcons, hfirst, ih hfs]
    constructor
    · rintro (⟨hvoid, rfl⟩ | ⟨i, y, t, hy, ht, hvoid, rfl⟩)
      · exact ⟨0, member, s, rfl, hs, hvoid, rfl⟩
      · exact ⟨i + 1, y, t, hy, ht, hvoid, by rw [Nat.add_right_comm, Nat.add_assoc]⟩
    · rintro ⟨i, y, t, hy, ht, hvoid, rfl⟩
      cases i with
      | zero =>
        obtain rfl := Option.some.inj hy
        obtain rfl := Except.ok.inj (hs.symm.trans ht)
        exact .inl ⟨hvoid, rfl⟩
      | succ i => exact .inr ⟨i, y, t, hy, ht, hvoid, by rw [Nat.add_right_comm, Nat.add_assoc]⟩

/-- **These are the locals of the code** of the chain: the ones that its lines declare. -/
theorem declaresLocal_iff (h : c.members.mapM (g.callee names) = .ok callees) :
    g.DeclaresLocal c name ↔
      name ∈ (chainProgram own c.signature callees).body.filterMap Line.local? := by
  have hanswers : ∀ l : List String, (l.map Line.answer).filterMap Line.local? = [] := fun l => by
    simp [List.filterMap_map, Line.local?, Function.comp_def]
  rw [chainProgram, List.filterMap_append, hanswers, List.append_nil, mem_locals_lines h]
  simp only [Nat.zero_add]
  rfl

end Graph

namespace Linker

open Closure ShaderLink.Graph
open Assignment (fixedOf)

variable {g : Graph} {stages : Stages StageMain} {l l' : Linker} {linked : Linked}
  {x y : ObjectId} {c : Chain} {s : Snippet} {name : String}

/-! ### Chains -/

theorem endsInNumber_resultLocal (i : Nat) : Namespace.EndsInNumber (resultLocal i) "result" := by
  have heq : resultLocal i = Namespace.numbered "result" (i + 1) := by
    rw [resultLocal, Namespace.numbered]
    exact congrArg (· ++ _) rfl
  rw [heq]
  exact Namespace.endsInNumber_numbered "result" (i + 1)

/-- The name of a local that is suggested has been made from a name like it. -/
theorem stemBy_result {ns : Namespace} {style : NamingStyle} {base : String} {i : Nat}
    (h : ns.suggest style base y = resultLocal i) :
    Namespace.StemBy (· ≠ "") base "result" := by
  have hends : Namespace.EndsInNumber (ns.suggest style base y) "result" :=
    h ▸ endsInNumber_resultLocal i
  obtain hstem | rfl := Namespace.stem_of_suggest hends (by decide)
  · exact hstem
  · -- the bare stem ends in no number
    refine .inr ⟨rfl, fun s hs => ?_⟩
    obtain ⟨digits, -, -, heq⟩ := hs
    have hmem : '_' ∈ "result".toList := by simp [heq]
    exact absurd hmem (by decide)

/-- What an object that has to have no particular name is called is withheld from none, and it was
called so before or has been suggested it. -/
theorem name_of_unfixed {c : Closure} {a : Assignment} {style : NamingStyle} {keywords : Bool}
    {names : Names} (hc : c.Collected g stages)
    (ha : Assignment.ofClosure g style keywords names c = .ok a) (hx : Defines g stages x)
    (hno : ∀ n, ¬ FixedName g stages x n) (hname : a.names[x]? = some name) :
    ¬ Reserved g stages keywords name ∧ (names[x]? = some name ∨
      ∃ (o : Object) (space : Namespace), g.find? x = some o ∧
        space.suggest style (o.name?.getD "") x = name) := by
  obtain ⟨before, after, hsplit⟩ := List.append_of_mem (hc.mem_objects.2 hx)
  obtain ⟨n, hn, hspare, -, hkept, -⟩ | ⟨-, o, space, ho, hgiven, hspace⟩ :=
    Assignment.ofClosure_split hc ha hsplit (hc.fixedOf_eq_none hx hno)
  · rw [hname] at hkept
    obtain rfl := Option.some.inj hkept
    exact ⟨(hc.spare_iff.1 hspare).1, .inl hn⟩
  · rw [hname] at hgiven
    obtain rfl := Option.some.inj hgiven
    have hfree := (hspace _).1 (space.isFree_suggest style (o.name?.getD "") x)
    exact ⟨(hc.spare_iff.1 hfree.1).1, .inr ⟨o, space, ho, rfl⟩⟩

/-- **What a chain captures.** A member with the name of a local of the chain has to have this name,
or it has kept it, or it was made under a name with the stem of the locals; and in the latter two
cases no code uses the name and no word of the language is like it. -/
theorem name_of_chain_local (h : (link g stages).run l = .ok linked l') (hx : x ∈ linked.objects)
    (hchain : g.find? x = some (.chain c)) (hy : y ∈ c.members)
    (hname : l'.names[y]? = some name) (hlocal : g.DeclaresLocal c name) :
    FixedName g stages y name ∨
      ((∀ n, ¬ FixedName g stages y n) ∧ ¬ Reserved g stages l.settings.reserveKeywords name ∧
        (l.names[y]? = some name ∨ ∃ o base, g.find? y = some o ∧ o.name? = some base ∧
          Namespace.StemBy (· ≠ "") base "result")) := by
  obtain ⟨cl, a, hc, ha, hnames, hobjects⟩ := naming_of_link h
  obtain ⟨i, -, -, -, -, -, rfl⟩ := hlocal
  rw [hobjects, hc.mem_objects] at hx
  rw [hnames] at hname
  -- members are needed with the chain, and can be called, so they are emitted
  have hvalid := hc.valid x hx.1
  rw [validate, get_eq_ok_iff.2 hchain, Except.ok_bind] at hvalid
  obtain ⟨s, hs⟩ := callable_of_checkChain hvalid y hy
  have hdefines : Defines g stages y := ⟨hx.1.dependency hchain hy, emits_of_callable hs⟩
  by_cases hfixed : ∃ n, FixedName g stages y n
  · obtain ⟨n, hn⟩ := hfixed
    obtain ⟨hfollows, hnamed⟩ := Assignment.ofClosure_eq_ok hc ha
    have hforced := (hc.collisionFree hfollows hnamed).fixed y n hdefines hn
    rw [hname] at hforced
    exact .inl (Option.some.inj hforced ▸ hn)
  · have hno : ∀ n, ¬ FixedName g stages y n := not_exists.1 hfixed
    obtain ⟨hreserved, hcause⟩ := name_of_unfixed hc ha hdefines hno hname
    refine .inr ⟨hno, hreserved, hcause.imp_right ?_⟩
    rintro ⟨o, space, ho, hsuggest⟩
    exact ⟨o, _, ho, hdefines.2.name?_eq ho, stemBy_result hsuggest⟩

/-- A session with a chain of two functions, of which the second was made under the name of the local
that holds what the first has returned. -/
def resultSession : Session :=
  Session.empty.edited 0 [.function "float $dim(float a) \x7b return a * 0.5; \x7d",
    .function "float $result_1(float a) \x7b return a; \x7d", .chain "steps" true [⟨1⟩, ⟨2⟩]]

/-- The chain of that session. -/
def resultChain : Chain where
  signature :=
    { name := "steps", anonymous := true, arguments := [⟨"float", "a"⟩], result := "float" }
  members := [⟨1⟩, ⟨2⟩]
  stale := false

/-- The definition of the chain, in which the local stands where the second function is called. -/
def resultText : String :=
  "\n".intercalate ["float steps(float a) \x7b", "    float result_1 = dim(a);",
    "    float result_2 = result_1(result_1);", "    return result_2;", "\x7d"]

/-- The chain declares the local. -/
theorem declaresLocal_resultChain :
    (resultSession.graphs 0).find? ⟨3⟩ = some (.chain resultChain) ∧
      (resultSession.graphs 0).DeclaresLocal resultChain "result_1" := by
  refine ⟨by decide +kernel, 0, ⟨1⟩, ⟨"dim", true, [⟨"float", "a"⟩], "float"⟩, rfl, ?_, ?_, rfl⟩
  · decide +kernel
  · decide

/-- The second function is called like the local. -/
theorem link_resultSession : ∃ linked l',
    (link (resultSession.graphs 0) (rootStages [⟨3⟩])).run (new .default) = .ok linked l' ∧
    linked.objects = [⟨1⟩, ⟨2⟩, ⟨3⟩] ∧ l'.names[(⟨2⟩ : ObjectId)]? = some "result_1" ∧
    l'.rememberedCode ⟨3⟩ = resultText := by
  have hseen : observed? (link (resultSession.graphs 0) (rootStages [⟨3⟩])) (new .default)
      (fun linked l' => (linked.objects, l'.names[(⟨2⟩ : ObjectId)]?, l'.rememberedCode ⟨3⟩)) =
      some ([⟨1⟩, ⟨2⟩, ⟨3⟩], some "result_1", resultText) := by
    decide +kernel
  obtain ⟨linked, l', hrun, hview⟩ := exists_run_of_observed? hseen
  obtain ⟨hobjects, hview⟩ := Prod.mk.inj hview
  obtain ⟨hname, hcode⟩ := Prod.mk.inj hview
  exact ⟨linked, l', hrun, hobjects, hname, hcode⟩

/-- It was made under a name with the stem of the locals. -/
theorem name_of_chain_local_result : ∃ linked l',
    (link (resultSession.graphs 0) (rootStages [⟨3⟩])).run (new .default) = .ok linked l' ∧
    l'.names[(⟨2⟩ : ObjectId)]? = some "result_1" ∧
    (FixedName (resultSession.graphs 0) (rootStages [⟨3⟩]) ⟨2⟩ "result_1" ∨
      ((∀ n, ¬ FixedName (resultSession.graphs 0) (rootStages [⟨3⟩]) ⟨2⟩ n) ∧
        ¬ Reserved (resultSession.graphs 0) (rootStages [⟨3⟩]) true "result_1" ∧
        ((∅ : Names)[(⟨2⟩ : ObjectId)]? = some "result_1" ∨
          ∃ o base, (resultSession.graphs 0).find? ⟨2⟩ = some o ∧ o.name? = some base ∧
            Namespace.StemBy (· ≠ "") base "result"))) := by
  obtain ⟨linked, l', hrun, hobjects, hname, -⟩ := link_resultSession
  obtain ⟨hchain, hlocal⟩ := declaresLocal_resultChain
  have hx : ⟨3⟩ ∈ linked.objects := by simp [hobjects]
  have hy : ⟨2⟩ ∈ resultChain.members := by decide
  exact ⟨linked, l', hrun, hname, name_of_chain_local hrun hx hchain hy hname hlocal⟩

/-- **A local can capture a member** in a linking in which no object has to have the name of a local:
what the first function returns is called in the place of the second. -/
theorem chain_captures_member : ∃ linked l',
    (link (resultSession.graphs 0) (rootStages [⟨3⟩])).run (new .default) = .ok linked l' ∧
    (∀ z n i, FixedName (resultSession.graphs 0) (rootStages [⟨3⟩]) z n → n ≠ resultLocal i) ∧
    ⟨3⟩ ∈ linked.objects ∧ (resultSession.graphs 0).find? ⟨3⟩ = some (.chain resultChain) ∧
    ⟨2⟩ ∈ resultChain.members ∧ (resultSession.graphs 0).DeclaresLocal resultChain "result_1" ∧
    l'.names[(⟨2⟩ : ObjectId)]? = some "result_1" ∧
    l'.rememberedCode ⟨3⟩ = resultText := by
  obtain ⟨linked, l', hrun, hobjects, hname, hcode⟩ := link_resultSession
  obtain ⟨hchain, hlocal⟩ := declaresLocal_resultChain
  refine ⟨linked, l', hrun, fun z n i hn => ?_, by simp [hobjects], hchain, by decide, hlocal,
    hname, hcode⟩
  exact absurd hn (not_fixedName_rootStages (by decide +kernel))

/-! ### Functions -/

/-- **What a function captures.** An object whose name shows in the code of a function is called like
something of the function's own exactly if it has to be. -/
theorem static_iff_fixedName (h : (link g stages).run l = .ok linked l') (hx : x ∈ linked.objects)
    (hfunction : g.find? x = some (.function s)) (hy : g.Shows x y) (hemits : g.Emits y) :
    ∃ name, l'.names[y]? = some name ∧
      (name ∈ s.staticNames ↔ ∃ n ∈ s.staticNames, FixedName g stages y n) := by
  obtain ⟨cl, a, hc, ha, hnames, hobjects⟩ := naming_of_link h
  obtain ⟨hfollows, hnamed⟩ := Assignment.ofClosure_eq_ok hc ha
  have hfree := hc.collisionFree hfollows hnamed
  rw [hobjects, hc.mem_objects] at hx
  rw [hnames]
  -- what shows in needed code is needed as well
  have hneeds : Needs g stages y :=
    hc.needs_of_shows (.refl g) hy hx.1 hfunction hfunction rfl
  obtain ⟨name, hname⟩ := hfree.named y ⟨hneeds, hemits⟩
  refine ⟨name, hname, fun hstatic => ?_, ?_⟩
  · by_contra hno
    -- a name that is not fixed is none that code of a needed function uses
    have hunfixed : ∀ n, ¬ FixedName g stages y n := by
      intro n hn
      have hforced := hfree.fixed y n ⟨hneeds, hemits⟩ hn
      rw [hname] at hforced
      exact hno ⟨n, Option.some.inj hforced ▸ hstatic, hn⟩
    exact hfree.static y name ⟨hneeds, hemits⟩ hunfixed hname x _ hx.1 hfunction hstatic
  · rintro ⟨n, hstatic, hn⟩
    have hforced := hfree.fixed y n ⟨hneeds, hemits⟩ hn
    rw [hname] at hforced
    exact Option.some.inj hforced ▸ hstatic

/-- A session in which a variable that was declared as `x` is bound to a function with an argument
of that name. -/
def argumentSession : Session :=
  Session.empty.edited 0 [.declare "uniform float x",
    .function "float $f(float x) \x7b return x * $y; \x7d", .bind ⟨2⟩ "y" ⟨1⟩]

/-- The variable keeps its name. -/
theorem link_argumentSession : ∃ linked l' s,
    (link (argumentSession.graphs 0) (rootStages [⟨2⟩])).run (new .default) = .ok linked l' ∧
    ⟨2⟩ ∈ linked.objects ∧ (argumentSession.graphs 0).find? ⟨2⟩ = some (.function s) ∧
    s.staticNames = ["x"] ∧ (argumentSession.graphs 0).Shows ⟨2⟩ ⟨1⟩ ∧
    (argumentSession.graphs 0).Emits ⟨1⟩ ∧ l'.names[(⟨1⟩ : ObjectId)]? = some "x" ∧
    l'.rememberedCode ⟨2⟩ = "float f(float x) \x7b return x * x; \x7d" := by
  have hseen : observed? (link (argumentSession.graphs 0) (rootStages [⟨2⟩])) (new .default)
      (fun linked l' => (linked.objects, l'.names[(⟨1⟩ : ObjectId)]?, l'.rememberedCode ⟨2⟩)) =
      some ([⟨1⟩, ⟨2⟩], some "x", "float f(float x) \x7b return x * x; \x7d") := by
    decide +kernel
  obtain ⟨linked, l', hrun, hview⟩ := exists_run_of_observed? hseen
  obtain ⟨hobjects, hview⟩ := Prod.mk.inj hview
  obtain ⟨hname, hcode⟩ := Prod.mk.inj hview
  obtain ⟨s, hs, hstatic, hbound⟩ : ∃ s, (argumentSession.graphs 0).find? ⟨2⟩ = some (.function s) ∧
      s.staticNames = ["x"] ∧ s.boundObjects = [⟨1⟩] := by
    have hview : (((argumentSession.graphs 0).getFunction ⟨2⟩).toOption.map fun s =>
        (s.staticNames, s.boundObjects)) = some (["x"], [⟨1⟩]) := by decide +kernel
    obtain ⟨s, hs, heq⟩ := Option.map_eq_some_iff.1 hview
    obtain ⟨hstatic, hbound⟩ := Prod.mk.inj heq
    exact ⟨s, getFunction_eq_ok_iff.1 (Except.toOption_eq_some_iff.1 hs), hstatic, hbound⟩
  have hshown : ⟨1⟩ ∈ (Object.function s).shown := by simp [Object.shown, hbound]
  exact ⟨linked, l', s, hrun, by simp [hobjects], hs, hstatic, .direct hs hshown,
    emits_iff.1 (by decide +kernel), hname, hcode⟩

/-- The variable has to have the name of the argument. -/
theorem static_iff_fixedName_argument : ∃ linked l' s,
    (link (argumentSession.graphs 0) (rootStages [⟨2⟩])).run (new .default) = .ok linked l' ∧
    (argumentSession.graphs 0).find? ⟨2⟩ = some (.function s) ∧ s.staticNames = ["x"] ∧
    ∃ name, l'.names[(⟨1⟩ : ObjectId)]? = some name ∧ (name ∈ s.staticNames ↔
      ∃ n ∈ s.staticNames, FixedName (argumentSession.graphs 0) (rootStages [⟨2⟩]) ⟨1⟩ n) := by
  obtain ⟨linked, l', s, hrun, hx, hs, hstatic, hshows, hemits, -, -⟩ := link_argumentSession
  exact ⟨linked, l', s, hrun, hs, hstatic, static_iff_fixedName hrun hx hs hshows hemits⟩

/-- **A function can capture what is bound to it**: the argument is read in the place of the
variable. -/
theorem function_captures_variable : ∃ linked l' s,
    (link (argumentSession.graphs 0) (rootStages [⟨2⟩])).run (new .default) = .ok linked l' ∧
    ⟨2⟩ ∈ linked.objects ∧ (argumentSession.graphs 0).find? ⟨2⟩ = some (.function s) ∧
    (argumentSession.graphs 0).Shows ⟨2⟩ ⟨1⟩ ∧ (argumentSession.graphs 0).Emits ⟨1⟩ ∧
    l'.names[(⟨1⟩ : ObjectId)]? = some "x" ∧ "x" ∈ s.staticNames ∧
    l'.rememberedCode ⟨2⟩ = "float f(float x) \x7b return x * x; \x7d" := by
  obtain ⟨linked, l', s, hrun, hx, hs, hstatic, hshows, hemits, hname, hcode⟩ :=
    link_argumentSession
  exact ⟨linked, l', s, hrun, hx, hs, hshows, hemits, hname, by simp [hstatic], hcode⟩

end Linker

end ShaderLink
