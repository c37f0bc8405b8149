import ShaderLink.Proofs.Linker.Outputs

/-!
# What the outputs of a stage write

An assignment at the end of `main` writes a varying of the arena or a builtin output. The target of
the second kind is any text. It is told by its **leading name**, the longest name at its front, which
leaves room for an index or a selection of components behind it.

A target is accepted just if its leading name is that of a builtin output or a longer one
(`StageMain.assign_cases`), because the text of the target is compared and not its leading name. So
in every source that is linked, the left side of an assignment is the name of an emitted varying or
a target whose leading name begins as a builtin output (`Linker.outputs_write_varying_or_builtin`);
where no target is given whose leading name is a longer one, only varyings and builtin outputs are
written. Others can be (`Linker.longer_name_assigned`).
-/

namespace ShaderLink

/-- There is a varying at the identifier. -/
def Graph.IsVarying (g : Graph) (id : ObjectId) : Prop :=
  ∃ v, g.find? id = some (.var v) ∧ v.qualifier = some .varying

namespace StageMain

variable {code target : String} {given : List (Output × ObjectId)} {m m' : StageMain}
  {e : ObjectId}

/-- The longest name at the front of a target. -/
def leadingName (target : String) : Option String :=
  (Glsl.Scan.name target.toList).map (·.1)

/-- The target is a builtin output, or a part of one. -/
def WritesBuiltin (target : String) : Prop :=
  ∃ output ∈ builtinOutputs, leadingName target = some output

/-- The leading name of the target is that of a builtin output, or goes on behind it. -/
def BeginsBuiltin (target : String) : Prop :=
  ∃ output ∈ builtinOutputs, ∃ more, leadingName target = some (output ++ more)

/-- The outputs of the language are called by names. -/
theorem exists_word_of_mem_builtinOutputs {output : String} (h : output ∈ builtinOutputs) :
    ∃ w : Glsl.Word, w.text = output := by
  have hall : ∀ o ∈ builtinOutputs, Glsl.isName o.toList = true := by decide +kernel
  exact ⟨⟨output, hall output h⟩, rfl⟩

theorem isBuiltinTarget_iff : isBuiltinTarget target = true ↔ BeginsBuiltin target := by
  rw [isBuiltinTarget, List.any_eq_true]
  refine exists_congr fun output => and_congr_right fun houtput => ?_
  rw [List.isPrefixOf_iff_prefix]
  constructor
  · rintro ⟨rest, hrest⟩
    obtain ⟨w, rfl⟩ := exists_word_of_mem_builtinOutputs houtput
    refine ⟨String.ofList (rest.takeWhile Glsl.isNamePart), ?_⟩
    rw [leadingName, ← hrest, Glsl.Scan.name_word_append]
    rfl
  · rintro ⟨more, hmore⟩
    obtain ⟨⟨name, rest⟩, hname, hsame⟩ := Option.map_eq_some_iff.1 hmore
    obtain ⟨w, hw, htarget⟩ := Glsl.Scan.name_eq_some hname
    obtain rfl : name = output ++ more := hsame
    rw [htarget, hw, String.toList_append, List.append_assoc]
    exact List.prefix_append _ _

/-- **A target is accepted just if it begins as a builtin output**, and refused with an error that
names it otherwise. -/
theorem assign_cases (m : StageMain) (target : String) (e : ObjectId) :
    BeginsBuiltin target ∧ m.assign target e =
        .ok { m with outputs := setOutput (.builtin target) e m.outputs } ∨
      ¬ BeginsBuiltin target ∧ m.assign target e = .error (.invalidTarget target) := by
  rw [assign]
  by_cases h : isBuiltinTarget target = true
  · exact .inl ⟨isBuiltinTarget_iff.1 h, if_pos h⟩
  · exact .inr ⟨mt isBuiltinTarget_iff.2 h, if_neg h⟩

/-- All targets that a main code was given begin as builtin outputs. -/
theorem Assembled.beginsBuiltin (h : Assembled code given m) :
    ∀ target e, (.builtin target, e) ∈ given → BeginsBuiltin target := by
  induction h with
  | ofCode _ => nofun
  | attach _ a ih => exact ih
  | @assign _ m _ target e _ hassign ih =>
    intro t e' ht
    obtain ht | ht := List.mem_append.1 ht
    · exact ih t e' ht
    · obtain ⟨rfl, rfl⟩ : t = target ∧ e' = e := by simpa using ht
      obtain ⟨h, -⟩ | ⟨-, herror⟩ := assign_cases m t e'
      · exact h
      · rw [herror] at hassign
        cases hassign
  | assignVarying _ _ ih =>
    intro t e' ht
    obtain ht | ht := List.mem_append.1 ht
    · exact ih t e' ht
    · simp at ht

end StageMain

namespace Linker

open ShaderLink.Graph ShaderLink.Closure StageMain

variable {g : Graph} {names : Names} {stages : Stages StageMain} {l l' : Linker} {linked : Linked}
  {m : StageMain} {stage : Stage} {code : String} {given : List (Output × ObjectId)}

/-- **The left side of an assignment**: the name of an emitted varying, or the target as it was
given, which begins as a builtin output. -/
def LeftSide (g : Graph) (names : Names) (objects : List ObjectId) : Output → String → Prop
  | .varying id, left => id ∈ objects ∧ g.IsVarying id ∧ names[id]? = some left
  | .builtin target, left => left = target ∧ BeginsBuiltin target

/-- A line that assigns something to an emitted varying or to a builtin output. -/
def AssignsVaryingOrBuiltin (g : Graph) (names : Names) (objects : List ObjectId) (line : String) :
    Prop :=
  ∃ left value, line = "    " ++ left ++ " = " ++ value ++ ";\n" ∧
    ((∃ id ∈ objects, g.IsVarying id ∧ names[id]? = some left) ∨ WritesBuiltin left)

/-- A varying that is assigned in a stage is emitted there. -/
theorem mem_emission_of_varying {id e : ObjectId} (hid : (.varying id, e) ∈ m.outputs)
    (hvarying : g.IsVarying id) : id ∈ g.emission m := by
  obtain ⟨v, hv, -⟩ := hvarying
  exact mem_emission.2 ⟨⟨id, mem_roots_of_output hid List.mem_cons_self, .refl⟩, .var v, hv, rfl⟩

/-- **Outputs write varyings and what begins as a builtin output.**

Whatever target a main code is given, it is accepted just if its leading name is that of a builtin
output or goes on behind it, and refused as a target otherwise. In every linking of a main code that
was given such targets and varyings, and in which these are still varyings, the source of its stage
holds one line for each output, in front of the last closing brace of the main code. On the left of
the line is the name of a varying that is emitted, or the target as it was given. If the leading
name of every target that was given is that of a builtin output, then nothing is assigned but emitted
varyings and builtin outputs. -/
theorem outputs_write_varying_or_builtin (hm : m.Assembled code given)
    (hvaryings : ∀ id e, (.varying id, e) ∈ given → g.IsVarying id)
    (hlink : (link g stages).run l = .ok linked l') (hstage : stages.get? stage = some m) :
    (∀ (m : StageMain) target e,
      BeginsBuiltin target ∧ m.assign target e =
          .ok { m with outputs := setOutput (.builtin target) e m.outputs } ∨
        ¬ BeginsBuiltin target ∧ m.assign target e = .error (.invalidTarget target)) ∧
      ∃ main lines codes text, m.template.substitute (attached g l'.names m) = .ok main ∧
        linked.sources.get? stage = some (assemble l'.settings.version codes text) ∧
        text.toList = insertBeforeEnd (String.join lines).toList main.toList ∧
        List.Forall₂ (fun p line => ∃ left value, LeftSide g l'.names linked.objects p.1 left ∧
          g.expression l'.names p.2 = .ok value ∧
          line = "    " ++ left ++ " = " ++ value ++ ";\n") (lastGiven given) lines ∧
        ((∀ target e, (.builtin target, e) ∈ given → WritesBuiltin target) →
          ∀ line ∈ lines, AssignsVaryingOrBuiltin g l'.names linked.objects line) := by
  obtain ⟨c, l₁, -, -, -, hobjects, hreads⟩ := reads_of_link hlink
  obtain ⟨source, hsource, codes, text, -, htext, rfl⟩ := exists_reads hreads hstage
  rw [mainText_eq] at htext
  obtain ⟨main, hmain, htext⟩ := Except.bind_eq_ok_iff.1 htext
  obtain ⟨_, hjoined, htext⟩ := Except.bind_eq_ok_iff.1 htext
  obtain ⟨lines, hlines, rfl⟩ := exists_of_outputLines hjoined
  rw [hm.outputs_eq] at hlines
  have hside : ∀ p ∈ lastGiven given, ∀ left, targetIn l'.names p.1 = .ok left →
      LeftSide g l'.names linked.objects p.1 left := by
    rintro ⟨target | id, e⟩ hp left hleft
    · obtain rfl : target = left := Except.ok.inj hleft
      exact ⟨rfl, hm.beginsBuiltin target e (mem_of_mem_lastGiven hp)⟩
    · have hvarying := hvaryings id e (mem_of_mem_lastGiven hp)
      have hemitted : id ∈ linked.objects := by
        rw [hobjects, List.mem_eraseDups]
        exact List.mem_flatMap.2 ⟨m, Stages.mem_toList_of_get? hstage,
          mem_emission_of_varying (hm.outputs_eq ▸ hp) hvarying⟩
      exact ⟨hemitted, hvarying, nameIn_eq_ok_iff.1 hleft⟩
  have hsides : List.Forall₂ (fun p line => ∃ left value,
      LeftSide g l'.names linked.objects p.1 left ∧ g.expression l'.names p.2 = .ok value ∧
        line = "    " ++ left ++ " = " ++ value ++ ";\n") (lastGiven given) lines := by
    refine ((List.forall₂_and_left _ _).2 ⟨hside, hlines⟩).imp fun p line h => ?_
    obtain ⟨hside, left, value, hleft, hvalue, hline⟩ := h
    exact ⟨left, value, hside left hleft, hvalue, hline⟩
  refine ⟨assign_cases, main, lines, codes, text, hmain, hsource, ?_, hsides, ?_⟩
  · rw [← Except.ok.inj htext, String.toList_ofList]
  · intro hgiven line hline
    obtain ⟨p, hp, left, value, hside, -, rfl⟩ := Text.exists_mem_of_forall₂ hsides.flip hline
    refine ⟨left, value, rfl, ?_⟩
    obtain ⟨target | id, e⟩ := p
    · obtain ⟨rfl, -⟩ := hside
      exact .inr (hgiven left e (mem_of_mem_lastGiven hp))
    · exact .inl ⟨id, hside⟩

/-- A main code at whose end the first object is assigned. -/
def targetMain (target : String) : Except LinkError StageMain :=
  StageMain.ofCode "void main() \x7b\n\x7d" >>= fun m => m.assign target ⟨1⟩

/-- A uniform, and a varying that can be assigned it. -/
def tintSession : Session :=
  Session.empty.edited 0 [.declare "uniform vec4 u_tint", .declare "varying vec4 v_color"]

/-- The varying is assigned the uniform as well. -/
def tintMain : Option (StageMain × Store) :=
  (targetMain "gl_FragData[0]").toOption.bind fun m =>
    match (m.assignVarying ⟨2⟩ ⟨1⟩).run (tintSession.store 0) with
    | .ok m s => some (m, s)
    | .error _ _ => none

/-- A part of a builtin output and a varying are assigned, and nothing else. -/
theorem outputs_write_varying_or_builtin_tint :
    ∃ m g linked l' main lines codes text,
      m.Assembled "void main() \x7b\n\x7d"
        [(.builtin "gl_FragData[0]", ⟨1⟩), (.varying ⟨2⟩, ⟨1⟩)] ∧
      (link g ⟨none, some m⟩).run (new .default) = .ok linked l' ∧
      linked.sources.fragment = some (assemble l'.settings.version codes text) ∧
      text.toList = insertBeforeEnd (String.join lines).toList main ∧ lines.length = 2 ∧
      ∀ line ∈ lines, AssignsVaryingOrBuiltin g l'.names linked.objects line := by
  have hlinks : (tintMain.map fun p => (((p.2.graph.getVariable ⟨2⟩).toOption.bind (·.qualifier)),
      (outcome (link p.2.graph ⟨none, some p.1⟩) (new .default)).toOption.isSome)) =
        some (some .varying, true) := by
    decide +kernel
  obtain ⟨⟨m, s⟩, hmain, hlinks⟩ := Option.map_eq_some_iff.1 hlinks
  obtain ⟨hqualifier, hlinks⟩ := Prod.mk.inj hlinks
  obtain ⟨v, hv, hqualifier⟩ := Option.bind_eq_some_iff.1 hqualifier
  have hvarying : s.graph.IsVarying ⟨2⟩ :=
    ⟨v, getVariable_eq_ok_iff.1 (Except.toOption_eq_some_iff.1 hv), hqualifier⟩
  obtain ⟨linked, hlinked⟩ := Option.isSome_iff_exists.1 hlinks
  obtain ⟨l', hrun⟩ := exists_run_of_outcome (Except.toOption_eq_some_iff.1 hlinked)
  obtain ⟨m₁, hm₁, hvaryings⟩ := Option.bind_eq_some_iff.1 hmain
  obtain ⟨m₀, hread, hassign⟩ := Except.bind_eq_ok_iff.1 (Except.toOption_eq_some_iff.1 hm₁)
  have hassembled : m.Assembled "void main() \x7b\n\x7d"
      [(.builtin "gl_FragData[0]", ⟨1⟩), (.varying ⟨2⟩, ⟨1⟩)] := by
    cases hedit : (m₁.assignVarying ⟨2⟩ ⟨1⟩).run (tintSession.store 0) with
    | error e t =>
      rw [hedit] at hvaryings
      cases hvaryings
    | ok m' t =>
      rw [hedit] at hvaryings
      cases hvaryings
      exact ((Assembled.ofCode hread).assign hassign).assignVarying hedit
  have hfragment : (⟨none, some m⟩ : Stages StageMain).get? .fragment = some m := rfl
  have hgiven : ∀ id e, (Output.varying id, e) ∈
      [(.builtin "gl_FragData[0]", ⟨1⟩), (.varying ⟨2⟩, (⟨1⟩ : ObjectId))] →
      s.graph.IsVarying id := by
    intro id e h
    obtain ⟨rfl, -⟩ : id = ⟨2⟩ ∧ e = ⟨1⟩ := by simpa using h
    exact hvarying
  obtain ⟨-, main, lines, codes, text, -, hsource, htext, hsides, hexact⟩ :=
    outputs_write_varying_or_builtin hassembled hgiven hrun hfragment
  refine ⟨m, s.graph, linked, l', main.toList, lines, codes, text, hassembled, hrun, hsource, htext,
    ?_, hexact fun target e h => ?_⟩
  · rw [← hsides.length_eq]
    decide +kernel
  · obtain ⟨rfl, -⟩ : target = "gl_FragData[0]" ∧ e = ⟨1⟩ := by simpa using h
    exact ⟨"gl_FragData", by decide, by decide +kernel⟩

/-- **A longer name is assigned** as if it were a builtin output. -/
theorem longer_name_assigned :
    leadingName "gl_Positions" = some "gl_Positions" ∧ "gl_Positions" ∉ builtinOutputs ∧
      ((targetMain "gl_Positions").toOption.bind fun m =>
        (outcome (link (positionSession.graphs 0) ⟨some m, none⟩) (new .default)).toOption.map
          fun linked => (linked.objects, linked.sources.vertex)) =
        some ([], some "void main() \x7b\n    gl_Positions = vec4(1.0);\n\x7d") := by
  decide +kernel

end Linker

end ShaderLink
