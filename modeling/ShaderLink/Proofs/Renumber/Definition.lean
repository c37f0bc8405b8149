import ShaderLink.Proofs.Definition.Stable
import ShaderLink.Proofs.Renumber.Graph

/-!
# Definitions under other identifiers

An object of a mirror is written as it is in the graph itself, if the objects have the same names
(`Graph.Mirrors.definition`), and so are main codes (`Graph.Mirrors.mainText`).

Expressions are unfolded no deeper than there are objects, and a mirror may hold more objects or
fewer. So two expressions only agree (`Graph.Mirrors.agree_expressionWithin`); that both can be
written is known where all that stages need was collected from both graphs, and it is what the other
lemmas start from (`Graph.Mirrors.Expresses`).
-/

namespace ShaderLink

theorem Template.related_substitute {ε ε' : Type} {q : ε → ε' → Prop} {t : Template}
    {resolve : String → Except ε String} {resolve' : String → Except ε' String}
    (h : ∀ p, Related q Eq (resolve p) (resolve' p)) :
    Related q Eq (t.substitute resolve) (t.substitute resolve') := by
  unfold substitute substituteM
  refine Related.bind (r := Eq) ?_ fun parts _ hparts _ => .ok (congrArg String.join hparts)
  nth_rewrite 2 [← List.map_id t]
  refine related_mapM fun part _ => ?_
  cases part with
  | text run => exact .ok rfl
  | placeholder name => exact h name

namespace Graph.Mirrors

open Closure

variable {f : ObjectId → ObjectId} {p : ObjectId → Prop} {g g' : Graph} {names names' : Names}
  {x : ObjectId}

theorem nameIn (h : names'[f x]? = names[x]?) :
    Corresponds f Eq (Graph.nameIn names x) (Graph.nameIn names' (f x)) := by
  unfold Graph.nameIn
  rw [h]
  cases names[x]? with
  | none => exact .error rfl
  | some name => exact .ok rfl

theorem agree_expressionWithin (h : Mirrors f p g g')
    (hnames : ∀ x : ObjectId, names'[f x]? = names[x]?) (hx : p x) {n m : Nat} :
    Agree (g.expressionWithin names n x) (g'.expressionWithin names' m (f x)) := by
  -- the bounds may differ, so where one of the two runs out there is no answer to compare
  induction n generalizing x m with
  | zero =>
    intro e e' he
    cases he
  | succ n ih =>
    cases m with
    | zero =>
      intro e e' he he'
      cases he'
    | succ m =>
      rw [expressionWithin, expressionWithin]
      refine agree_bind fun o o' ho ho' => ?_
      rw [get_eq_ok_iff] at ho ho'
      rw [h.find?_eq x hx, ho] at ho'
      obtain rfl := Option.some.inj ho'
      cases o with
      | text code => exact .refl _
      | call c =>
        dsimp only [Object.renumber, Call.renumber]
        rw [List.mapM_map]
        refine (agree_mapM fun a ha => ?_).bind fun arguments =>
          (nameIn (hnames c.callee)).agree.bind fun callee => .refl _
        exact ih (h.of_dependency hx ho (List.mem_cons_of_mem _ ha))
      | _ => exact (nameIn (hnames x)).agree

/-- The expression of an object is the same in both graphs. -/
def Expresses (f : ObjectId → ObjectId) (g g' : Graph) (names names' : Names) (x : ObjectId) :
    Prop :=
  Corresponds f Eq (g.expression names x) (g'.expression names' (f x))

/-! ### Definitions by kind -/

theorem variableDefinition (h : Mirrors f p g g') (hname : names'[f x]? = names[x]?) (hx : p x)
    (v : Variable) : Corresponds f Eq (g.variableDefinition names x v)
      (g'.variableDefinition names' (f x) (v.renumber f)) := by
  refine (h.checkVariable hx v).bind ?_
  rintro ⟨q, t⟩ _ rfl -
  refine (nameIn hname).bind ?_
  rintro name _ rfl -
  rw [show (v.renumber f).value = v.value from rfl]
  split
  · split <;> exact .ok rfl
  · exact .ok rfl

theorem functionDefinition {s : Snippet} (hwf : s.WellFormed)
    (hexpresses : ∀ y ∈ s.boundObjects, Expresses f g g' names names' y)
    (hname : names'[f x]? = names[x]?) :
    Corresponds f Eq (g.functionDefinition names x s)
      (g'.functionDefinition names' (f x) (s.renumber f)) := by
  rw [functionDefinition_eq, functionDefinition_eq, Snippet.checkBound_renumber]
  have hown : Corresponds f Eq (ownName names x s) (ownName names' (f x) (s.renumber f)) := by
    unfold ownName
    rw [show (s.renumber f).anonymous = s.anonymous from rfl]
    split
    · exact nameIn hname
    · exact .ok rfl
  refine (checkBound s).bind fun _ _ _ _ => hown.bind ?_
  rintro own _ rfl -
  refine Template.related_substitute fun placeholder => ?_
  unfold resolve
  rw [show (s.renumber f).isOwnName placeholder = s.isOwnName placeholder from rfl,
    Snippet.getElem?_bindings_renumber]
  split
  · exact .ok rfl
  · cases hz : s.bindings[placeholder]? with
    | none => exact .error rfl
    | some z => exact hexpresses z (Snippet.mem_boundObjects hwf hz)

theorem chainCalls (h : Mirrors f p g g') (hnames : ∀ x : ObjectId, names'[f x]? = names[x]?)
    {position : Nat} {input : String} {members : List ObjectId} (hmembers : ∀ y ∈ members, p y) :
    Corresponds f Eq (g.chainCalls names position input members)
      (g'.chainCalls names' position input (members.map f)) := by
  induction members generalizing position input with
  | nil => exact .ok rfl
  | cons y rest ih =>
    have ih : ∀ position input, Corresponds f Eq (g.chainCalls names position input rest)
        (g'.chainCalls names' position input (rest.map f)) := fun _ _ =>
      ih fun z hz => hmembers z (List.mem_cons_of_mem y hz)
    rw [List.map_cons, Graph.chainCalls, Graph.chainCalls]
    refine (h.callable (hmembers y List.mem_cons_self)).bind ?_
    rintro s _ rfl -
    refine (nameIn (hnames y)).bind ?_
    rintro callee _ rfl -
    dsimp only
    split <;> exact (ih _ _).bind fun r _ hr _ => .ok (by rw [hr])

theorem chainDefinition (h : Mirrors f p g g') (hnames : ∀ x : ObjectId, names'[f x]? = names[x]?)
    {c : Chain} (hmembers : ∀ y ∈ c.members, p y) :
    Corresponds f Eq (g.chainDefinition names x c)
      (g'.chainDefinition names' (f x) (c.renumber f)) := by
  refine (h.checkChain hmembers).bind fun _ _ _ _ => (nameIn (hnames x)).bind ?_
  rintro name _ rfl -
  refine (h.chainCalls hnames hmembers).bind ?_
  rintro calls _ rfl -
  exact .ok rfl

/-- **Objects have the same definitions** if they have the same names. -/
theorem definition (h : Mirrors f p g g')
    (hexpresses : ∀ y ∈ g.dependencies x, Expresses f g g' names names' y)
    (hnames : ∀ x : ObjectId, names'[f x]? = names[x]?) (hwf : g.AllWellFormed) (hx : p x) :
    Corresponds f Eq (g.definition? names x) (g'.definition? names' (f x)) := by
  refine (h.get hx).bind ?_
  rintro o _ rfl ho
  have ho := get_eq_ok_iff.1 ho
  cases o with
  | var v => exact (h.variableDefinition (hnames x) hx v).map fun _ _ => congrArg some
  | function s =>
    rw [dependencies_of_find? ho] at hexpresses
    have hdefinition := functionDefinition (hwf x _ ho)
      (fun y hy => hexpresses y (List.mem_append_right _ hy)) (hnames x)
    exact hdefinition.map fun _ _ => congrArg some
  | chain c =>
    have hdefinition := h.chainDefinition hnames (x := x) fun y hy => h.of_dependency hx ho hy
    exact hdefinition.map fun _ _ => congrArg some
  | text code => exact .ok rfl
  | call c => exact .ok rfl

/-! ### Main codes -/

theorem outputLines (hnames : ∀ x : ObjectId, names'[f x]? = names[x]?)
    {outputs : List (Output × ObjectId)}
    (hexpresses : ∀ output ∈ outputs, Expresses f g g' names names' output.2) :
    Corresponds f Eq (Linker.outputLines g names outputs)
      (Linker.outputLines g' names' (outputs.map fun o => (o.1.renumber f, f o.2))) := by
  induction outputs with
  | nil => exact .ok rfl
  | cons output rest ih =>
    obtain ⟨target, expression⟩ := output
    have hvalue : Expresses f g g' names names' expression := hexpresses _ List.mem_cons_self
    have hrest := ih fun output ho => hexpresses output (List.mem_cons_of_mem _ ho)
    -- whatever the target is called, the rest of the line and the other lines are the same
    have hline : ∀ name, Corresponds f Eq
        (g.expression names expression >>= fun value =>
          Linker.outputLines g names rest >>= fun lines =>
            (pure ("    " ++ name ++ " = " ++ value ++ ";\n" ++ lines) : Except LinkError String))
        (g'.expression names' (f expression) >>= fun value =>
          Linker.outputLines g' names' (rest.map fun o => (o.1.renumber f, f o.2)) >>= fun lines =>
            (pure ("    " ++ name ++ " = " ++ value ++ ";\n" ++ lines) :
              Except LinkError String)) := by
      intro name
      refine hvalue.bind ?_
      rintro value _ rfl -
      refine hrest.bind ?_
      rintro lines _ rfl -
      exact .ok rfl
    cases target with
    | builtin name => exact hline name
    | varying id =>
      refine (nameIn (hnames id)).bind ?_
      rintro name _ rfl -
      exact hline name

/-- **Main codes are the same** if the objects have the same names. -/
theorem mainText (hnames : ∀ x : ObjectId, names'[f x]? = names[x]?) {m : StageMain}
    (hexpresses : ∀ r ∈ m.roots, Expresses f g g' names names' r) :
    Corresponds f Eq (Linker.mainText g names m) (Linker.mainText g' names' (m.renumber f)) := by
  rw [mainText_eq, mainText_eq]
  have hcode : Corresponds f Eq (m.template.substitute (attached g names m))
      (m.template.substitute (attached g' names' (m.renumber f))) := by
    refine Template.related_substitute fun hook => ?_
    unfold attached
    rw [m.at?_renumber]
    cases ha : m.at? hook with
    | none => exact .error rfl
    | some a =>
      have ha := mem_roots_of_attachment (List.mem_of_find?_eq_some ha)
      exact hexpresses a.object ha
  refine hcode.bind ?_
  rintro code _ rfl -
  refine (outputLines hnames fun output ho => hexpresses _ ?_).bind ?_
  · exact mem_roots_of_output ho (by obtain ⟨_ | _, _⟩ := output <;> simp [StageMain.outputObjects])
  · rintro lines _ rfl -
    exact .ok rfl

end Graph.Mirrors

end ShaderLink
