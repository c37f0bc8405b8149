import ShaderLink.Proofs.Store.Assignment
import ShaderLink.Proofs.Store.Moves

/-!
# Functions that are rewritten

All functions of a reachable session are current (`Session.Reachable.current`): what was read from
their code is what the code has with all replacements made.

A **rewriting** of a function (`Session.Rewriting`) is any sequence of actions, on this and on other
objects, that neither removes the function nor adds an object under its identifier, together with
the replacements that were given in it. It takes the function to one with the same code, with the
replacements that were given last for each text (`Session.Rewriting.exists_function`). One action
either makes a replacement in the function, and is followed through (`Store.find?_replace`), or
leaves its code and its replacements alone, which is a property that everything else hands on
(`hereditary_rewritten`).
-/

namespace ShaderLink

variable {f : ObjectId} {k : Nat} {s t : Snippet}

/-! ### Current functions -/

/-- A function that is current, or another object. -/
def Object.Current (o : Object) : Prop := ∀ s, o = .function s → s.Current

/-- **Being current is handed on.** -/
theorem hereditary_current :
    Hereditary (fun _ => Object.Current) (fun _ => True) (fun _ => True) fun _ => True where
  made := fun _ ho => by
    cases ho with
    | function h requires =>
      rintro s ⟨⟩
      exact (Snippet.current_of_ofCode h).2.2.adjust (.requiring _ requires)
    | _ => exact nofun
  call := fun _ _ => nofun
  function := fun hadjusted h s hs => by
    obtain rfl := Object.function.inj hs
    exact (h _ rfl).adjust hadjusted
  replace := fun _ hr h s hs => by
    obtain rfl := Object.function.inj hs
    exact (h _ rfl).replace hr
  link := fun _ _ => nofun
  value := fun _ _ _ => nofun
  members := fun _ _ _ => nofun
  types := fun _ _ _ => nofun

/-- **All functions of a session are current.** -/
theorem Session.Reachable.current {σ : Session} (h : Reachable σ)
    (hs : (σ.graphs k).find? f = some (.function s)) : s.Current :=
  (h.all hereditary_current).1 k f _ hs s rfl

/-! ### One action -/

/-- The function under an identifier has the code and the replacements of another. -/
def Object.Rewritten (f : ObjectId) (s : Snippet) (y : ObjectId) (o : Object) : Prop :=
  y = f → ∃ t, o = .function t ∧ t.code = s.code ∧ t.replacements = s.replacements

/-- **Code and replacements are handed on** by everything but making a replacement. -/
theorem hereditary_rewritten :
    Hereditary (Object.Rewritten f s) (· ≠ f) (fun _ => True) (· ≠ f) where
  made := fun hne _ heq => absurd heq hne
  call := fun _ hne heq => absurd heq hne
  function := fun hadjusted h heq => by
    obtain ⟨t, ht, hcode, hreplacements⟩ := h heq
    obtain rfl := Object.function.inj ht
    refine ⟨_, rfl, ?_, ?_⟩
    · rw [hadjusted.eq]
      exact hcode
    · rw [hadjusted.eq]
      exact hreplacements
  replace := fun hne _ _ heq => absurd heq hne
  link := fun _ h heq => by
    obtain ⟨t, ht, -⟩ := h heq
    cases ht
  value := fun _ _ h heq => by
    obtain ⟨t, ht, -⟩ := h heq
    cases ht
  members := fun _ _ h heq => by
    obtain ⟨t, ht, -⟩ := h heq
    cases ht
  types := fun _ _ h heq => by
    obtain ⟨t, ht, -⟩ := h heq
    cases ht

/-- **A replacement in a function** is made in the store, unless it is there already. -/
theorem Store.find?_replace {s : Store} {snippet : Snippet} (find put : String)
    (hs : s.graph.find? f = some (.function snippet)) :
    ∃ t, (stateAfter (replace f find put) s).graph.find? f = some (.function t) ∧
      (snippet.replace find put = none ∧ t = snippet ∨
        ∃ lost, snippet.replace find put = some (t, lost)) := by
  unfold replace
  rw [stateAfter_bind, run_ask, Graph.getFunction_eq_ok_iff.2 hs]
  dsimp only
  cases hr : snippet.replace find put with
  | none => exact ⟨snippet, hs, .inl ⟨rfl, rfl⟩⟩
  | some r =>
    obtain ⟨replaced, dropped⟩ := r
    have hrevised : (s.graph.revise f (.function replaced) dropped []).find? f =
        some (.function replaced) := Graph.find?_revise_self hs
    exact ⟨replaced, Graph.find?_touch_of_not_chain f hrevised nofun, .inr ⟨dropped, rfl⟩⟩

namespace Session

variable {σ τ : Session} {given : List (String × String)}

/-- The replacements that an action gives for a function of a graph. -/
def Action.givenTo (k : Nat) (f : ObjectId) (a : Action) : List (String × String) :=
  match a.replacement? k with
  | some (x, p) => if x = f then [p] else []
  | none => []

/-- What actions lead to that neither remove a function of a graph nor add an object in its place,
with the replacements that were given for it. -/
inductive Rewriting (k : Nat) (f : ObjectId) (σ : Session) :
    List (String × String) → Session → Prop where
  | refl : Rewriting k f σ [] σ
  | act {given : List (String × String)} {τ : Session} (h : Rewriting k f σ given τ) (a : Action)
      (ha : a.Possible τ) (hadds : ¬ a.Adds k f) (hremoves : ¬ a.Removes k f) :
      Rewriting k f σ (given ++ a.givenTo k f) (a.perform τ)

theorem Action.givenTo_replace (k : Nat) (f : ObjectId) (find put : String) :
    (Action.edit k (.replace f find put)).givenTo k f = [(find, put)] := by
  simp [givenTo, replacement?, Operation.replacement?]

/-- Only replacing in a function gives it a replacement. -/
theorem Action.replacement?_eq_some {a : Action} {x : ObjectId} {find put : String}
    (h : a.replacement? k = some (x, find, put)) : a = .edit k (.replace x find put) := by
  cases a with
  | edit j op =>
    by_cases hj : j = k
    · subst hj
      rw [replacement?, if_pos rfl] at h
      cases op with
      | replace y find' put' =>
        cases h
        rfl
      | _ => cases h
    · rw [replacement?, if_neg hj] at h
      cases h
  | _ => cases h

/-- **A replacement drops the bindings of the placeholders that are gone**, and no others. -/
theorem Reachable.find?_replace (h : Reachable σ)
    (hs : (σ.graphs k).find? f = some (.function s)) (find put : String) :
    ∃ t, (((Action.edit k (.replace f find put)).perform σ).graphs k).find? f =
        some (.function t) ∧ t.code = s.code ∧
      t.replacements = ShaderLink.put find put s.replacements ∧
      ∀ p, t.bindings[p]? = if p ∈ t.placeholders then s.bindings[p]? else none := by
  obtain ⟨t, ht, hcases⟩ := Store.find?_replace (s := σ.store k) find put hs
  refine ⟨t, graphs_setStore ▸ ht, ?_⟩
  obtain ⟨hr, rfl⟩ | ⟨lost, hr⟩ := hcases
  · refine ⟨rfl, (Snippet.put_of_replace_eq_none hr).symm, fun p => ?_⟩
    -- nothing else is bound
    split
    · rfl
    · next hp =>
      rw [← Option.not_isSome_iff_eq_none, ← Std.ExtTreeMap.contains_eq_isSome_getElem?]
      exact mt ((h.current hs).bound p) hp
  · obtain ⟨hcode, -, hreplacements, hbindings⟩ := Snippet.replace_cases hr
    exact ⟨hcode, hreplacements, hbindings⟩

/-- **One action** leaves the code of a function and puts its replacement in place, if it gives
one. -/
theorem Action.exists_function (h : Reachable σ) {a : Action}
    (hs : (σ.graphs k).find? f = some (.function s)) (hadds : ¬ a.Adds k f)
    (hremoves : ¬ a.Removes k f) :
    ∃ t, ((a.perform σ).graphs k).find? f = some (.function t) ∧ t.code = s.code ∧
      t.replacements = (a.givenTo k f).foldl (fun l p => put p.1 p.2 l) s.replacements := by
  by_cases hgiven : ∃ find text, a.replacement? k = some (f, find, text)
  · obtain ⟨find, text, hgiven⟩ := hgiven
    obtain rfl := replacement?_eq_some hgiven
    obtain ⟨t, ht, hcode, hreplacements, -⟩ := h.find?_replace hs find text
    exact ⟨t, ht, hcode, by rw [givenTo_replace, hreplacements]; rfl⟩
  · have hnone : a.givenTo k f = [] := by
      unfold givenTo
      split
      · next x p hp =>
        rw [if_neg]
        rintro rfl
        exact hgiven ⟨p.1, p.2, hp⟩
      · rfl
    have hold : (σ.graphs k).All (Object.Rewritten f s) := by
      rintro y o ho rfl
      rw [hs] at ho
      cases ho
      exact ⟨s, rfl, rfl, rfl⟩
    have hall : ((a.perform σ).graphs k).All (Object.Rewritten f s) := by
      refine all_perform h.lawful hereditary_rewritten ?_ ?_ (fun _ _ => trivial) ?_ hold
      · exact (h.lawful.fresh_ne (Graph.mem_ids_of_find? hs)).symm
      · rintro y o rfl rfl
        exact absurd ⟨o, rfl⟩ hadds
      · rintro y p hp rfl
        exact hgiven ⟨p.1, p.2, hp⟩
    obtain ⟨o, ho⟩ := Graph.mem_ids_iff.1
      (a.mem_ids h.lawful hremoves (Graph.mem_ids_of_find? hs))
    obtain ⟨t, rfl, hcode, hreplacements⟩ := hall f o ho rfl
    exact ⟨t, ho, hcode, by rw [hnone, hreplacements]; rfl⟩

theorem Rewriting.reachable (h : Rewriting k f σ given τ) (hσ : Reachable σ) : Reachable τ := by
  induction h with
  | refl => exact hσ
  | act _ a ha _ _ ih => exact ih.act a ha

/-- **A rewritten function** has the code it had, with the last text for each text that is
replaced. -/
theorem Rewriting.exists_function (h : Rewriting k f σ given τ) (hσ : Reachable σ)
    (hs : (σ.graphs k).find? f = some (.function s)) :
    ∃ t, (τ.graphs k).find? f = some (.function t) ∧ t.code = s.code ∧
      t.replacements = lastGiven (s.replacements ++ given) := by
  induction h with
  | refl =>
    refine ⟨s, hs, rfl, ?_⟩
    rw [List.append_nil, lastGiven_of_nodup (hσ.current hs).nodup]
  | @act given τ h a ha hadds hremoves ih =>
    obtain ⟨t, ht, hcode, hreplacements⟩ := ih
    obtain ⟨t', ht', hcode', hreplacements'⟩ :=
      Action.exists_function (h.reachable hσ) ht hadds hremoves
    refine ⟨t', ht', hcode'.trans hcode, ?_⟩
    rw [hreplacements', hreplacements, ← lastGiven_append, List.append_assoc]

/-- Edits of a graph that do not remove a function rewrite it. -/
theorem Rewriting.edited (h : Rewriting k f σ given τ) {ops : List Operation}
    (hops : ∀ op ∈ ops, ¬ op.Removes f) :
    Rewriting k f σ (given ++ ops.flatMap fun op => (Action.edit k op).givenTo k f)
      (τ.edited k ops) := by
  induction ops generalizing given τ with
  | nil => exact (List.append_nil given).symm ▸ h
  | cons op ops ih =>
    obtain ⟨hop, hops⟩ := List.forall_mem_cons.1 hops
    have hremoves : ¬ (Action.edit k op).Removes k f := by
      rintro ⟨op', hop', hremoves⟩
      cases hop'
      exact hop hremoves
    have hfirst := h.act (.edit k op) trivial Action.not_adds_edit hremoves
    rw [List.flatMap_cons, ← List.append_assoc]
    exact ih hfirst hops

/-- **Replacements act on the code that a function was made from.**

A function that is made has the dedented code and no replacements. In any reachable session, whatever
is done to a function and to other objects, as long as it is not removed and nothing is put in its
place, it keeps its code; and its replacements are those that were given for it, in the order in
which their texts were first given, each with the text given last. The pieces of the function are
read from its code with these replacements made one after the other; its placeholders are those of
the pieces, each once and in order, without its own name; and only placeholders are bound. Another
replacement drops the bindings of the placeholders that are gone and keeps all others. -/
theorem rewritten_function (hσ : σ.Reachable) (hs : (σ.graphs k).find? f = some (.function s))
    (h : Rewriting k f σ given τ) :
    (∀ code made, Snippet.ofCode code = .ok made →
      Text.dedent code.toList = some made.code.toList ∧ made.replacements = []) ∧
    ∃ t, (τ.graphs k).find? f = some (.function t) ∧ t.code = s.code ∧
      Signature.parse s.code = .ok t.signature ∧
      t.replacements = lastGiven (s.replacements ++ given) ∧
      t.template = Template.parse ((lastGiven (s.replacements ++ given)).foldl
        (fun code r => String.ofList (Text.replace r.1.toList r.2.toList code.toList)) s.code) ∧
      t.placeholders = t.template.placeholders.filter (!t.isOwnName ·) ∧
      (∀ p, t.bindings.contains p = true → p ∈ t.placeholders) ∧
      ∀ find text, ∃ t', (((Action.edit k (.replace f find text)).perform τ).graphs k).find? f =
          some (.function t') ∧
        ∀ p, t'.bindings[p]? = if p ∈ t'.placeholders then t.bindings[p]? else none := by
  refine ⟨fun code made hmade => ?_, ?_⟩
  · obtain ⟨hcode, hreplacements, -⟩ := Snippet.current_of_ofCode hmade
    exact ⟨hcode, hreplacements⟩
  · obtain ⟨t, ht, hcode, hreplacements⟩ := h.exists_function hσ hs
    have hτ := h.reachable hσ
    have hcurrent := hτ.current ht
    refine ⟨t, ht, hcode, hcode ▸ hcurrent.signature, hreplacements, ?_, hcurrent.placeholders,
      hcurrent.bound, fun find text => ?_⟩
    · rw [← hreplacements, ← hcode]
      exact hcurrent.template
    · obtain ⟨t', ht', -, -, hbindings⟩ := hτ.find?_replace ht find text
      exact ⟨t', ht', hbindings⟩

/-- An indented anonymous function with two placeholders, and a variable. -/
def mixingSession : Session :=
  empty.edited 0 [.function "  float $mix(float a) \x7b\n    return a * $low + $high;\n  \x7d",
    .valued "level" (.int 3)]

/-- Both placeholders are bound and replaced, and one of them is replaced again. -/
def mixingEdits : List Operation :=
  [.bind ⟨1⟩ "low" ⟨2⟩, .bind ⟨1⟩ "high" ⟨2⟩, .replace ⟨1⟩ "$low" "$gain",
    .replace ⟨1⟩ "$high" "$low", .replace ⟨1⟩ "$low" "1.0"]

/-- **The replacement that was given first is made first**, also with the text that it got last, so
the placeholder that the other one puts in is not replaced. -/
theorem rewritten_function_mixing :
    let given := [("$low", "$gain"), ("$high", "$low"), ("$low", "1.0")]
    let τ := mixingSession.edited 0 mixingEdits
    mixingSession.Reachable ∧
    (∃ s, (mixingSession.graphs 0).find? ⟨1⟩ = some (.function s) ∧ s.replacements = []) ∧
    Rewriting 0 ⟨1⟩ mixingSession given τ ∧
    ∃ t, (τ.graphs 0).find? ⟨1⟩ = some (.function t) ∧
      t.template = Template.parse "float $mix(float a) \x7b\n  return a * 1.0 + $low;\n\x7d" ∧
      t.placeholders = ["low"] ∧ t.bindings.contains "high" = false := by
  intro given τ
  have hany : ReachableBy (fun _ _ => True) mixingSession :=
    ReachableBy.empty.edited fun _ _ _ => trivial
  have hfound : ((mixingSession.graphs 0).getFunction ⟨1⟩).toOption.map
      (fun s => (s.code, s.replacements)) =
      some ("float $mix(float a) \x7b\n  return a * $low + $high;\n\x7d", []) := by
    decide +kernel
  obtain ⟨s, hs, hpair⟩ := Option.map_eq_some_iff.1 hfound
  have hs := Graph.getFunction_eq_ok_iff.1 (Except.toOption_eq_some_iff.1 hs)
  obtain ⟨hcode, hreplacements⟩ := Prod.mk.inj hpair
  have hremoves : ∀ op ∈ mixingEdits, ¬ op.Removes ⟨1⟩ := by
    simp [mixingEdits, Operation.Removes]
  have hrewriting : Rewriting 0 ⟨1⟩ mixingSession given τ := Rewriting.refl.edited hremoves
  obtain ⟨-, t, ht, -, hparse, -, htemplate, hplaceholders, hbound, -⟩ :=
    rewritten_function hany.reachable hs hrewriting
  have hread : t.template =
      Template.parse "float $mix(float a) \x7b\n  return a * 1.0 + $low;\n\x7d" := by
    rw [htemplate, hcode, hreplacements]
    exact congrArg Template.parse (by decide +kernel)
  have hlow : t.placeholders = ["low"] := by
    rw [hcode] at hparse
    have hsignature : t.signature = ⟨"mix", true, [⟨"float", "a"⟩], "float"⟩ :=
      Except.ok.inj (hparse.symm.trans (by decide +kernel))
    have hown : t.isOwnName = fun p => p == "mix" := by
      funext p
      rw [Snippet.isOwnName, Snippet.anonymous, Snippet.name, hsignature]
      rfl
    rw [hplaceholders, hread, hown]
    decide +kernel
  refine ⟨hany.reachable, ⟨s, hs, hreplacements⟩, hrewriting, t, ht, hread, hlow, ?_⟩
  by_contra hhigh
  have hmem := hbound "high" (by simpa using hhigh)
  rw [hlow] at hmem
  exact absurd hmem (by decide)

end Session

end ShaderLink
