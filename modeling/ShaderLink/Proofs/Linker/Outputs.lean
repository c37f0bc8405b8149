import Mathlib.Data.List.Infix
import ShaderLink.Proofs.Linker.Sources
import ShaderLink.Proofs.Stage.Assembled
import ShaderLink.Proofs.Template.Parts
import ShaderLink.Proofs.Text.Dedent

/-!
# Where outputs are assigned

The outputs of a stage are assigned in lines of their own, one for each output in the order in which
they were first assigned (`Linker.AssignsOutput`). The lines are meant to end `main`, but are put in
front of the last closing brace of the whole main code. These are two places as soon as there is a
closing brace behind the one that ends `main` (`Linker.outputs_before_last_brace`), such as that of
a function that comes after it (`Linker.outputs_behind_main`).

The brace that ends `main` is found again in the text that is written because the code in front of
it does not end inside of a placeholder (`StageMain.not_endsInside`): its braces are balanced from
the brace that opens `main`, and no placeholder begins with that one.
-/

namespace ShaderLink

variable {c : Char} {s t A B C front back : List Char}

/-! ### Braces -/

namespace Text

/-- Every brace is closed, and none before it is opened. -/
def Balanced (s : List Char) : Prop :=
  s.count '{' = s.count '}' ∧ ∀ front ∈ s.inits, front.count '}' ≤ front.count '{'

/-- A brace that is opened is closed behind it. -/
theorem Balanced.close_mem (h : Balanced (s ++ '{' :: t)) : '}' ∈ t := by
  by_contra ht
  have hfront : s.count '}' ≤ s.count '{' :=
    h.2 s ((List.mem_inits _ _).2 (List.prefix_append s ('{' :: t)))
  have hall := h.1
  rw [List.count_append, List.count_append, List.count_cons_self,
    List.count_cons_of_ne (by decide), List.count_eq_zero.2 ht] at hall
  omega

theorem mem_ink (hc : isBlank c = false) : c ∈ ink s ↔ c ∈ s := by simp [ink, hc]

/-- A character of the ink is found in the text, in front of what is behind it. -/
theorem exists_of_ink_eq (h : ink B = s ++ c :: t) :
    ∃ s' t', B = s' ++ c :: t' ∧ ink t' = t := by
  obtain ⟨s', rest, rfl, -, hrest⟩ := List.filter_eq_append_iff.1 h
  obtain ⟨blanks, t', rfl, -, -, ht'⟩ := List.filter_eq_cons_iff.1 hrest
  exact ⟨s' ++ blanks, t', by simp, ht'⟩

end Text

/-- What `main` begins with, up to the brace that opens it. -/
def StageMain.opening : List Char := "void main() \x7b".toList

/-- **The code up to the end of `main` does not end inside of a placeholder**, whatever there is in
front of `main`. -/
theorem StageMain.not_endsInside (hB : Text.Balanced B)
    (hfront : Text.ink front = Text.ink (A ++ StageMain.opening ++ B)) :
    ¬ Template.EndsInside front := by
  rintro ⟨x, w, rfl⟩
  have hopen : '{' ∉ Text.ink w.text.toList := by
    rw [Text.mem_ink (by decide)]
    exact w.notMem (by decide)
  have hclose : '}' ∉ Text.ink w.text.toList := by
    rw [Text.mem_ink (by decide)]
    exact w.notMem (by decide)
  -- what comes before the brace that would begin the placeholder, and before the one of `main`
  have hink : (Text.ink x ++ ['$']) ++ '{' :: Text.ink w.text.toList =
      (Text.ink A ++ "voidmain()".toList) ++ '{' :: Text.ink B := by
    rw [Text.ink_append, Text.ink_cons_of_not_blank (by decide),
      Text.ink_cons_of_not_blank (by decide), Text.ink_append, Text.ink_append] at hfront
    have hopening : Text.ink StageMain.opening = "voidmain()".toList ++ ['{'] := by decide
    rw [hopening] at hfront
    simpa using hfront
  have hne : Text.ink x ++ ['$'] ≠ Text.ink A ++ "voidmain()".toList := fun h => by
    have hlast := congrArg List.getLast? h
    simp at hlast
  obtain ⟨u, hu, hrest⟩ | ⟨u, hu, hrest⟩ := List.append_eq_append_iff.1 hink
  · cases u with
    | nil => exact hne (by rw [hu, List.append_nil])
    | cons d u =>
      -- the brace of `main` would be part of the name
      refine hopen ?_
      rw [(List.cons.inj hrest).2]
      simp
  · cases u with
    | nil => exact hne (by rw [hu, List.append_nil])
    | cons d u =>
      -- the brace of the placeholder would be opened in the body and not closed there
      obtain ⟨u', w', rfl, hw'⟩ := Text.exists_of_ink_eq (List.cons.inj hrest).2
      refine hclose ?_
      rw [← hw', Text.mem_ink (by decide)]
      exact hB.close_mem

namespace Linker

open ShaderLink.Graph ShaderLink.Closure

variable {g : Graph} {names : Names} {stages : Stages StageMain} {l l' : Linker} {linked : Linked}
  {m : StageMain} {stage : Stage} {code lines text : String} {given outputs : List (Output × ObjectId)}

/-! ### Lines -/

/-- The name of what an output writes. -/
def targetIn (names : Names) : Output → Except LinkError String
  | .builtin target => .ok target
  | .varying id => nameIn names id

/-- **A line that assigns an output** its expression. -/
def AssignsOutput (g : Graph) (names : Names) (p : Output × ObjectId) (line : String) : Prop :=
  ∃ target value, targetIn names p.1 = .ok target ∧ g.expression names p.2 = .ok value ∧
    line = "    " ++ target ++ " = " ++ value ++ ";\n"

theorem outputLines_cons (g : Graph) (names : Names) (p : Output × ObjectId) :
    outputLines g names (p :: outputs) = do
      let target ← targetIn names p.1
      let value ← g.expression names p.2
      let lines ← outputLines g names outputs
      return "    " ++ target ++ " = " ++ value ++ ";\n" ++ lines := by
  obtain ⟨output, expression⟩ := p
  cases output <;> rfl

/-- There is a line for each output. -/
theorem exists_of_outputLines (h : outputLines g names outputs = .ok text) :
    ∃ lines, List.Forall₂ (AssignsOutput g names) outputs lines ∧ text = String.join lines := by
  induction outputs generalizing text with
  | nil =>
    cases h
    exact ⟨[], .nil, rfl⟩
  | cons p outputs ih =>
    rw [outputLines_cons] at h
    obtain ⟨target, htarget, h⟩ := Except.bind_eq_ok_iff.1 h
    obtain ⟨value, hvalue, h⟩ := Except.bind_eq_ok_iff.1 h
    obtain ⟨rest, hrest, h⟩ := Except.bind_eq_ok_iff.1 h
    obtain ⟨lines, hlines, rfl⟩ := ih hrest
    refine ⟨_ :: lines, .cons ⟨target, value, htarget, hvalue, rfl⟩ hlines, ?_⟩
    rw [String.join_cons]
    exact (Except.ok.inj h).symm

/-- Where there are outputs, their lines begin with a blank. -/
theorem head?_join_of_assigns {lines : List String}
    (h : List.Forall₂ (AssignsOutput g names) outputs lines) (hne : outputs ≠ []) :
    (String.join lines).toList.head? = some ' ' := by
  cases h with
  | nil => exact absurd rfl hne
  | cons hline _ =>
    obtain ⟨target, value, -, -, rfl⟩ := hline
    simp [String.join_cons]

/-! ### Places -/

/-- A character that is in a text is there a last time. -/
theorem exists_last_of_mem (h : c ∈ s) : ∃ t u, s = t ++ c :: u ∧ c ∉ u := by
  obtain ⟨u, t, hs, hc⟩ := List.eq_append_cons_of_mem (List.mem_reverse.2 h)
  refine ⟨t.reverse, u.reverse, ?_, by simpa using hc⟩
  rw [← List.reverse_reverse s, hs]
  simp

/-- Lines are put in front of a brace that none comes behind. -/
theorem insertBeforeEnd_brace (h : '}' ∉ t) (lines s : List Char) :
    insertBeforeEnd lines (s ++ '}' :: t) = s ++ (lines ++ '}' :: t) := by
  have hpass : ∀ d ∈ t.reverse, decide (d ≠ '}') = true := fun d hd =>
    decide_eq_true (ne_of_mem_of_not_mem (List.mem_reverse.1 hd) h)
  have hreverse : (s ++ '}' :: t).reverse = t.reverse ++ '}' :: s.reverse := by simp
  rw [insertBeforeEnd, hreverse, List.takeWhile_append_of_pos hpass,
    List.dropWhile_append_of_pos hpass]
  simp

/-- **A main code is written in two parts**, up to a brace that does not end a placeholder and
behind it. -/
theorem exists_of_mainText (hends : ¬ Template.EndsInside front)
    (htemplate : m.template = Template.ofChars (front ++ '}' :: back))
    (h : mainText g names m = .ok text) :
    ∃ before behind lines, (Template.ofChars front).substitute (attached g names m) = .ok before ∧
      (Template.ofChars back).substitute (attached g names m) = .ok behind ∧
      List.Forall₂ (AssignsOutput g names) m.outputs lines ∧
      text.toList = insertBeforeEnd (String.join lines).toList
        (before.toList ++ '}' :: behind.toList) := by
  rw [mainText_eq, htemplate, Template.substitute_brace hends] at h
  obtain ⟨code, hcode, h⟩ := Except.bind_eq_ok_iff.1 h
  obtain ⟨before, hbefore, hcode⟩ := Except.bind_eq_ok_iff.1 hcode
  obtain ⟨behind, hbehind, hcode⟩ := Except.bind_eq_ok_iff.1 hcode
  obtain ⟨_, hjoined, h⟩ := Except.bind_eq_ok_iff.1 h
  obtain ⟨lines, hlines, rfl⟩ := exists_of_outputLines hjoined
  refine ⟨before, behind, lines, hbefore, hbehind, hlines, ?_⟩
  rw [← Except.ok.inj h, ← Except.ok.inj hcode]
  simp

/-- **Outputs are assigned in front of the last closing brace** of the main code.

In every linking, a main code with a `main` in it is written in two parts, in front of the brace
that ends `main` and behind it, each with the hooks replaced, and with one line for each output that
was assigned, in the order in which they were first assigned and with the expression assigned last.
The lines are where `main` ends just if nothing that is written behind it has a closing brace. This
is so if the code there has none and nothing that is attached has one. Otherwise the lines are in
front of the last brace behind `main`. -/
theorem outputs_before_last_brace (hm : m.Assembled code given)
    (hcode : code.toList = A ++ StageMain.opening ++ B ++ '}' :: C) (hB : Text.Balanced B)
    (hgiven : given ≠ []) (hlink : (link g stages).run l = .ok linked l')
    (hstage : stages.get? stage = some m) :
    ∃ front back before behind lines codes text,
      Text.dedent code.toList = some (front ++ '}' :: back) ∧
      Text.ink front = Text.ink (A ++ StageMain.opening ++ B) ∧ Text.ink back = Text.ink C ∧
      (Template.ofChars front).substitute (attached g l'.names m) = .ok before ∧
      (Template.ofChars back).substitute (attached g l'.names m) = .ok behind ∧
      List.Forall₂ (AssignsOutput g l'.names) (lastGiven given) lines ∧
      List.Forall₂ (Remembers g l') (g.emission m) codes ∧
      linked.sources.get? stage = some (assemble l'.settings.version codes text) ∧
      (text = before ++ (String.join lines ++ ("\x7d" ++ behind)) ↔ '}' ∉ behind.toList) ∧
      ('}' ∉ C → (∀ hook v, attached g l'.names m hook = .ok v → '}' ∉ v.toList) →
        '}' ∉ behind.toList) ∧
      ∀ b b', behind = b ++ ("\x7d" ++ b') → '}' ∉ b'.toList →
        text = before ++ ("\x7d" ++ (b ++ (String.join lines ++ ("\x7d" ++ b')))) := by
  obtain ⟨dedented, hdedent, htemplate, -⟩ := hm.exists_dedent
  have hsplit := hdedent
  rw [hcode] at hsplit
  obtain ⟨front, back, rfl, hfront, hback⟩ := Text.dedent_split (by decide) hsplit
  obtain ⟨c, l₁, -, -, -, -, hreads⟩ := reads_of_link hlink
  obtain ⟨source, hsource, codes, text, hcodes, htext, rfl⟩ := exists_reads hreads hstage
  obtain ⟨before, behind, lines, hbefore, hbehind, hlines, hplace⟩ :=
    exists_of_mainText (StageMain.not_endsInside hB hfront) htemplate htext
  rw [hm.outputs_eq] at hlines
  have hblank := head?_join_of_assigns hlines (lastGiven_ne_nil hgiven)
  have hlast : ∀ b b', behind = b ++ ("\x7d" ++ b') → '}' ∉ b'.toList →
      text = before ++ ("\x7d" ++ (b ++ (String.join lines ++ ("\x7d" ++ b')))) := by
    rintro b b' rfl hb'
    refine String.toList_injective ?_
    have hsame : before.toList ++ '}' :: (b ++ ("\x7d" ++ b')).toList =
        (before.toList ++ '}' :: b.toList) ++ '}' :: b'.toList := by simp
    rw [hplace, hsame, insertBeforeEnd_brace hb']
    simp
  refine ⟨front, back, before, behind, lines, codes, text, hdedent, hfront, hback, hbefore, hbehind,
    hlines, hcodes, hsource, ⟨fun h hmem => ?_, fun h => ?_⟩, fun hC hattached => ?_, hlast⟩
  · obtain ⟨b, b', hb, hb'⟩ := exists_last_of_mem hmem
    have hsame := h.symm.trans (hlast (String.ofList b) (String.ofList b')
      (String.toList_injective (by simpa using hb)) (by simpa using hb'))
    -- the lines begin with a blank, and a brace is no blank
    have hheads := congrArg (·.toList.head?) ((String.append_right_inj before).1 hsame)
    simp only [String.toList_append, List.head?_append, hblank] at hheads
    cases hheads
  · refine String.toList_injective ?_
    rw [hplace, insertBeforeEnd_brace h]
    simp
  · have hnone : '}' ∉ back := by
      rwa [← Text.mem_ink (by decide), hback, Text.mem_ink (by decide)]
    exact Template.notMem_substitute (Template.notMem_text_ofChars hnone) hattached hbehind

/-- A text that can be assigned. -/
def positionSession : Session := Session.empty.edited 0 [.text "vec4(1.0)"]

/-- A main code at whose end the text is assigned. -/
def positionMain (code : String) : Except LinkError StageMain :=
  StageMain.ofCode code >>= fun m => m.assign "gl_Position" ⟨1⟩

/-- A main code with a function in front of `main` and a block in it. -/
def helperCode : String :=
  "void helper() \x7b \x7d\nvoid main() \x7b\n    if (true) \x7b \x7d\n\x7d\n"

/-- Neither the function in front of `main` nor the block in it keeps the line from its place. -/
theorem outputs_before_last_brace_helper :
    ∃ m linked l' before behind lines codes text,
      m.Assembled helperCode [(.builtin "gl_Position", ⟨1⟩)] ∧
      (link (positionSession.graphs 0) ⟨some m, none⟩).run (new .default) = .ok linked l' ∧
      List.Forall₂ (AssignsOutput (positionSession.graphs 0) l'.names)
        [(.builtin "gl_Position", ⟨1⟩)] lines ∧
      linked.sources.vertex = some (assemble l'.settings.version codes text) ∧
      text = before ++ (String.join lines ++ ("\x7d" ++ behind)) := by
  have hlinks : ((positionMain helperCode).toOption.map fun m =>
      (m.attachments, (outcome (link (positionSession.graphs 0) ⟨some m, none⟩)
        (new .default)).toOption.isSome)) = some ([], true) := by
    decide +kernel
  obtain ⟨m, hm, hlinks⟩ := Option.map_eq_some_iff.1 hlinks
  obtain ⟨hnone, hlinks⟩ := Prod.mk.inj hlinks
  obtain ⟨linked, hlinked⟩ := Option.isSome_iff_exists.1 hlinks
  obtain ⟨l', hrun⟩ := exists_run_of_outcome (Except.toOption_eq_some_iff.1 hlinked)
  obtain ⟨m₀, hread, hassign⟩ := Except.bind_eq_ok_iff.1 (Except.toOption_eq_some_iff.1 hm)
  have hassembled := (StageMain.Assembled.ofCode hread).assign hassign
  have hbalanced : Text.Balanced "\n    if (true) \x7b \x7d\n".toList := by
    unfold Text.Balanced
    decide +kernel
  have hvertex : (⟨some m, none⟩ : Stages StageMain).get? .vertex = some m := rfl
  obtain ⟨front, back, before, behind, lines, codes, text, -, -, -, -, -, hlines, -, hsource,
    hplace, hbehind, -⟩ := outputs_before_last_brace
      (A := "void helper() \x7b \x7d\n".toList) (C := ['\n'])
      hassembled (by decide +kernel) hbalanced (List.cons_ne_nil _ _) hrun hvertex
  refine ⟨m, linked, l', before, behind, lines, codes, text, hassembled, hrun, hlines, hsource,
    hplace.2 (hbehind (by decide) fun hook v hv => ?_)⟩
  -- nothing is attached
  simp [attached, StageMain.at?, hnone] at hv

/-- A main code with a function behind `main`. -/
def trailingCode : String := "void main() \x7b\n\x7d\nvoid later() \x7b\n\x7d"

/-- **The line is at the end of the function behind `main`**, not at the end of `main`. -/
theorem outputs_behind_main :
    trailingCode.toList = StageMain.opening ++ ['\n'] ++
      '}' :: "\nvoid later() \x7b\n\x7d".toList ∧
    Text.Balanced ['\n'] ∧
    ((positionMain trailingCode).toOption.bind fun m =>
      (outcome (link (positionSession.graphs 0) ⟨some m, none⟩) (new .default)).toOption.bind
        (·.sources.vertex)) =
      some "void main() \x7b\n\x7d\nvoid later() \x7b\n    gl_Position = vec4(1.0);\n\x7d" := by
  unfold Text.Balanced
  decide +kernel

end Linker

end ShaderLink
