import ShaderLink.Program
import ShaderLink.Proofs.Glsl.Rests
import ShaderLink.Proofs.Outcome
import ShaderLink.Proofs.Template.Parts
import ShaderLink.Proofs.Text.Cuts

/-!
# Building from code

Functions, stages and programs are built from any text whatsoever. The text is dedented, and then
read: from its line starts, by scans, and as a template. Reading cuts the text up, and all of these
cuts are good, wherever they fall and whatever characters the text is made of (`Text.CutWell`).

Dedenting is the exception. `built_unless_character_split` says that building breaks off exactly if
the common indentation of the code ends inside a character, and that it fails otherwise only with the
error that is meant for it: a function without a signature, or a hook declared twice. A single wide
blank in front of a line is enough (`Snippet.ofCode_wideBlank`).
-/

namespace ShaderLink

/-! ### Reading -/

/-- All cuts that reading makes in a text are good ones: at the starts of lines, at the end, behind
a piece of a template, and behind what a scan has read. -/
structure Text.CutWell (s : List Char) : Prop where
  lineStarts : (lineStarts s).map (dropBytes · s) = (lineSuffixes s).map some
  atEnd : dropBytes (byteLength s) s = some []
  piece : ∀ c rest, s = c :: rest → ∃ n, dropBytes n s = some (Template.next c rest).2
  signature : ∀ found rest, Glsl.Scan.signature s = some (found, rest) →
    ∃ n, dropBytes n s = some rest
  prototype : ∀ found rest, Glsl.Scan.prototype s = some (found, rest) →
    ∃ n, dropBytes n s = some rest
  declaration : ∀ found rest, Glsl.Scan.declaration s = some (found, rest) →
    ∃ n, dropBytes n s = some rest

/-- **Reading cuts every text well.** -/
theorem Text.cutWell (s : List Char) : Text.CutWell s where
  lineStarts := map_dropBytes_lineStarts s
  atEnd := by
    have hend := dropBytes_append s []
    rwa [List.append_nil] at hend
  piece := by
    rintro c rest rfl
    exact exists_dropBytes_iff.2 ((Template.next_suffix c rest).trans (List.suffix_cons c rest))
  signature := fun _ _ h => exists_dropBytes_iff.2 (Glsl.Scan.takesFront_signature _ _ _ h)
  prototype := fun _ _ h => exists_dropBytes_iff.2 (Glsl.Scan.takesFront_prototype _ _ _ h)
  declaration := fun _ _ h => exists_dropBytes_iff.2 (Glsl.Scan.takesFront_declaration _ _ _ h)

variable {code : String} {dedented : List Char}

theorem Signature.failsOnly_parse (code : String) :
    FailsOnly (fun failure => ∃ line, failure = .noSignature line) (Signature.parse code) := by
  unfold parse
  split
  · exact failsOnly_ok _
  · exact failsOnly_error ⟨_, rfl⟩

/-! ### Functions and stages -/

namespace Snippet

theorem ofCode_of_split (h : Text.dedent code.toList = none) :
    ofCode code = .error .splitCharacter := by
  rw [ofCode, h]
  rfl

/-- Dedented code that is no function has no signature. -/
theorem failsOnly_ofCode (h : Text.dedent code.toList = some dedented) :
    FailsOnly (fun e => ∃ line, e = .unreadable (.noSignature line)) (ofCode code) := by
  rw [ofCode, h]
  dsimp only
  cases hparse : Signature.parse (String.ofList dedented) with
  | ok signature => exact failsOnly_ok _
  | error failure =>
    obtain ⟨line, rfl⟩ := Signature.failsOnly_parse _ failure hparse
    exact failsOnly_error ⟨line, rfl⟩

theorem ofCode_eq_split_iff :
    ofCode code = .error .splitCharacter ↔ Text.SplitsCharacter code.toList := by
  rw [← Text.dedent_eq_none_iff]
  refine ⟨fun h => ?_, ofCode_of_split⟩
  cases hdedent : Text.dedent code.toList with
  | none => rfl
  | some dedented =>
    obtain ⟨line, hline⟩ := failsOnly_ofCode hdedent _ h
    cases hline

end Snippet

namespace StageMain

theorem ofCode_of_split (h : Text.dedent code.toList = none) :
    ofCode code = .error .splitCharacter := by
  rw [ofCode, h]
  rfl

/-- Dedented code is the main code of a stage, whatever it says. -/
theorem exists_ofCode (h : Text.dedent code.toList = some dedented) : ∃ m, ofCode code = .ok m := by
  rw [ofCode, h]
  exact ⟨_, rfl⟩

theorem ofCode_eq_split_iff :
    ofCode code = .error .splitCharacter ↔ Text.SplitsCharacter code.toList := by
  rw [← Text.dedent_eq_none_iff]
  refine ⟨fun h => ?_, ofCode_of_split⟩
  cases hdedent : Text.dedent code.toList with
  | none => rfl
  | some dedented =>
    obtain ⟨m, hm⟩ := exists_ofCode hdedent
    rw [hm] at h
    cases h

theorem failsOnly_ofCode (code : String) : FailsOnly (· = .splitCharacter) (ofCode code) := by
  cases hdedent : Text.dedent code.toList with
  | none =>
    rw [ofCode_of_split hdedent]
    exact failsOnly_error rfl
  | some dedented => exact failsOnly_of_ok (exists_ofCode hdedent)

end StageMain

/-! ### Programs -/

namespace Program

variable {settings : Settings} {vertex fragment : String} {stage : Stage}
  {hooks : Std.ExtTreeMap String Hook} {l : List Prototype}

theorem failsOnly_addHooks (stage : Stage) (hooks : Std.ExtTreeMap String Hook)
    (l : List Prototype) :
    FailsOnly (fun e => ∃ hook, e = .duplicateHook hook) (addHooks stage hooks l) := by
  induction l generalizing hooks with
  | nil => exact failsOnly_ok _
  | cons p l ih =>
    rw [addHooks]
    split
    · exact failsOnly_error ⟨p.name, rfl⟩
    · exact ih _

/-- Hooks can be added if their names differ, from each other and from those that are there. -/
theorem exists_addHooks_iff : (∃ hooks', addHooks stage hooks l = .ok hooks') ↔
    (l.map (·.name)).Nodup ∧ ∀ p ∈ l, hooks.contains p.name = false := by
  induction l generalizing hooks with
  | nil => exact ⟨fun _ => ⟨List.nodup_nil, nofun⟩, fun _ => ⟨hooks, rfl⟩⟩
  | cons p l ih =>
    rw [addHooks, List.map_cons, List.nodup_cons, List.forall_mem_cons]
    split
    · next hp => exact ⟨nofun, fun h => by rw [h.2.1] at hp; cases hp⟩
    · next hp =>
      -- a name is taken behind `p` if it is the name of `p` or was taken before
      have hcontains : ∀ q : Prototype,
          (hooks.insert p.name { stage, prototype := p }).contains q.name = false ↔
            ¬ p.name = q.name ∧ hooks.contains q.name = false := by
        intro q
        simp [Std.ExtTreeMap.contains_insert]
      rw [ih]
      simp only [hcontains, Bool.not_eq_true] at hp ⊢
      constructor
      · rintro ⟨hnodup, hfree⟩
        refine ⟨⟨fun hmem => ?_, hnodup⟩, hp, fun q hq => (hfree q hq).2⟩
        obtain ⟨q, hq, hname⟩ := List.mem_map.1 hmem
        exact (hfree q hq).1 hname.symm
      · rintro ⟨⟨hnotMem, hnodup⟩, -, hfree⟩
        refine ⟨hnodup, fun q hq => ⟨fun hname => hnotMem ?_, hfree q hq⟩⟩
        exact hname ▸ List.mem_map_of_mem hq

/-- The hooks of the vertex stage come before the code of the fragment stage. -/
theorem ofCode_eq_split_iff :
    ofCode settings vertex fragment = .error (.link .splitCharacter) ↔
      Text.SplitsCharacter vertex.toList ∨
        ((Prototype.findAll vertex.toList).map (·.name)).Nodup ∧
          Text.SplitsCharacter fragment.toList := by
  rw [← StageMain.ofCode_eq_split_iff, ← StageMain.ofCode_eq_split_iff]
  unfold ofCode
  -- the steps of making a program one after the other: the first that fails decides
  cases hvertex : StageMain.ofCode vertex with
  | error e =>
    obtain rfl : e = .splitCharacter := StageMain.failsOnly_ofCode vertex e hvertex
    exact ⟨fun _ => .inl rfl, fun _ => rfl⟩
  | ok vertexMain =>
    have hnodup : (∃ hooks, addHooks .vertex ∅ (Prototype.findAll vertex.toList) = .ok hooks) ↔
        ((Prototype.findAll vertex.toList).map (·.name)).Nodup := by
      rw [exists_addHooks_iff]
      simp
    cases hhooks : addHooks .vertex ∅ (Prototype.findAll vertex.toList) with
    | error e =>
      obtain ⟨hook, rfl⟩ := failsOnly_addHooks _ _ _ e hhooks
      have hnot : ¬ ((Prototype.findAll vertex.toList).map (·.name)).Nodup := by
        simpa [hhooks] using hnodup
      simp [Except.mapError, hnot]
    | ok hooks =>
      have hdistinct : ((Prototype.findAll vertex.toList).map (·.name)).Nodup := by
        simpa [hhooks] using hnodup
      cases hfragment : StageMain.ofCode fragment with
      | error e =>
        obtain rfl : e = .splitCharacter := StageMain.failsOnly_ofCode fragment e hfragment
        exact ⟨fun _ => .inr ⟨hdistinct, rfl⟩, fun _ => rfl⟩
      | ok fragmentMain =>
        cases hall : addHooks .fragment hooks (Prototype.findAll fragment.toList) with
        | error e =>
          obtain ⟨hook, rfl⟩ := failsOnly_addHooks _ _ _ e hall
          simp [Except.mapError, hall]
        | ok hooks' => simp [Except.mapError, hall]

theorem failsOnly_main (code : String) :
    FailsOnly (· = .link .splitCharacter) ((StageMain.ofCode code).mapError ProgramError.link) := by
  intro e he
  cases hcode : StageMain.ofCode code with
  | ok m =>
    rw [hcode] at he
    cases he
  | error cause =>
    rw [hcode, StageMain.failsOnly_ofCode code cause hcode] at he
    exact (Except.error.inj he).symm

theorem failsOnly_ofCode (settings : Settings) (vertex fragment : String) :
    FailsOnly (fun e => e = .link .splitCharacter ∨ ∃ hook, e = .duplicateHook hook)
      (ofCode settings vertex fragment) := by
  refine FailsOnly.bind (fun e he => .inl (failsOnly_main vertex e he)) fun _ _ => ?_
  refine FailsOnly.bind (fun e he => .inr (failsOnly_addHooks _ _ _ e he)) fun _ _ => ?_
  refine FailsOnly.bind (fun e he => .inl (failsOnly_main fragment e he)) fun _ _ => ?_
  exact FailsOnly.bind (fun e he => .inr (failsOnly_addHooks _ _ _ e he)) fun _ _ => failsOnly_ok _

end Program

/-! ### Building -/

/-- **Everything is built from any code, unless the common indentation ends inside a character.**
All cuts but those of dedenting are good for every text, and those of dedenting are good unless the
bytes of the common indentation end inside a character of a line that they are cut off, for which
blanks of different widths must stand in front of lines. A function is built, or its code has no
signature; a stage is built; and a program is built, or one of its hooks is declared twice. Each of
them breaks off inside a character exactly if dedenting does, a program at the code of its fragment
stage only if no hook of the vertex stage is declared twice. -/
theorem built_unless_character_split (settings : Settings) (code vertex fragment : String) :
    (∀ s, Text.CutWell s) ∧
    (Text.dedent code.toList = none ↔ Text.SplitsCharacter code.toList) ∧
    (∀ w, (∀ line ∈ Text.lines code.toList, ∀ c ∈ line.takeWhile Text.isBlank, c.utf8Size = w) →
      ¬ Text.SplitsCharacter code.toList) ∧
    (Snippet.ofCode code = .error .splitCharacter ↔ Text.SplitsCharacter code.toList) ∧
    FailsOnly (fun e => e = .splitCharacter ∨ ∃ line, e = .unreadable (.noSignature line))
      (Snippet.ofCode code) ∧
    (StageMain.ofCode code = .error .splitCharacter ↔ Text.SplitsCharacter code.toList) ∧
    FailsOnly (· = .splitCharacter) (StageMain.ofCode code) ∧
    (Program.ofCode settings vertex fragment = .error (.link .splitCharacter) ↔
      Text.SplitsCharacter vertex.toList ∨
        ((Prototype.findAll vertex.toList).map (·.name)).Nodup ∧
          Text.SplitsCharacter fragment.toList) ∧
    FailsOnly (fun e => e = .link .splitCharacter ∨ ∃ hook, e = .duplicateHook hook)
      (Program.ofCode settings vertex fragment) := by
  refine ⟨Text.cutWell, Text.dedent_eq_none_iff, fun w => Text.not_splitsCharacter_of_width,
    Snippet.ofCode_eq_split_iff, fun e he => ?_, StageMain.ofCode_eq_split_iff,
    StageMain.failsOnly_ofCode code, Program.ofCode_eq_split_iff,
    Program.failsOnly_ofCode settings vertex fragment⟩
  cases hdedent : Text.dedent code.toList with
  | none =>
    rw [Snippet.ofCode_of_split hdedent] at he
    exact .inl (Except.error.inj he).symm
  | some dedented => exact .inr (Snippet.failsOnly_ofCode hdedent e he)

/-- A function whose body is indented with one blank of three bytes, and its head and closing brace
with one of a single byte. -/
def wideBlankBody : String := " float $f() \x7b\n\u3000return 1.0;\n \x7d"

/-- The one byte that the other lines are indented with ends inside that blank. -/
theorem Snippet.ofCode_wideBlank : Snippet.ofCode wideBlankBody = .error .splitCharacter := by
  decide +kernel

end ShaderLink
