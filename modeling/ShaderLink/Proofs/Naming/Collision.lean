import ShaderLink.Linker
import ShaderLink.Proofs.Naming.Assignment

/-!
# Names do not collide

Which names of a linking are fixed is a matter of the graph and the stages alone
(`Closure.FixedName`), and so is whether two of them **collide** or one is a word of the language
(`Closure.Collides`). Naming fails exactly then, whatever the linker remembers; otherwise all
objects that are emitted have names of their own that nothing else takes
(`Linker.naming_collisionFree`).
-/

namespace ShaderLink

namespace Closure

/-- The objects with a definition among those that stages need. -/
def Defines (g : Graph) (stages : Stages StageMain) (x : ObjectId) : Prop :=
  Needs g stages x ∧ g.Emits x

/-- A name that an object has to have: one it is required under, or the one it was declared with. -/
def FixedName (g : Graph) (stages : Stages StageMain) (x : ObjectId) (name : String) : Prop :=
  Requires (stages.toList.flatMap StageMain.attachments) x name ∨
    ∃ o, g.find? x = some o ∧ o.anonymous = false ∧ o.name? = some name

/-- Two objects have to have the same name, or one has to be called like a word of the language. -/
def Collides (g : Graph) (stages : Stages StageMain) (keywords : Bool) : Prop :=
  (∃ x y name, x ≠ y ∧ Defines g stages x ∧ Defines g stages y ∧ FixedName g stages x name ∧
    FixedName g stages y name) ∨
  (keywords = true ∧ ∃ x name, Defines g stages x ∧ FixedName g stages x name ∧
    Glsl.isReserved name = true)

/-- **Names without collisions** for the objects with a definition that stages need. A name that is
not fixed is none that code takes, and no word of the language if those are kept free. -/
structure CollisionFree (g : Graph) (stages : Stages StageMain) (keywords : Bool)
    (names : Names) : Prop where
  named : ∀ x, Defines g stages x → ∃ name, names[x]? = some name
  distinct : ∀ x y, Defines g stages x → Defines g stages y → names[x]? = names[y]? → x = y
  fixed : ∀ x name, Defines g stages x → FixedName g stages x name → names[x]? = some name
  static : ∀ x name, Defines g stages x → (∀ n, ¬ FixedName g stages x n) →
    names[x]? = some name → ∀ y o, Needs g stages y → g.find? y = some o → name ∉ o.staticNames
  declared : ∀ x name, Defines g stages x → (∀ n, ¬ FixedName g stages x n) →
    names[x]? = some name → ∀ m ∈ stages.toList, name ∉ m.staticNames
  word : ∀ x name, Defines g stages x → (∀ n, ¬ FixedName g stages x n) →
    names[x]? = some name → keywords = true → Glsl.isReserved name = false

variable {g : Graph} {stages : Stages StageMain} {c : Closure} {x : ObjectId} {name : String}

theorem Collected.mem_objects (hc : c.Collected g stages) :
    x ∈ c.objects ↔ Defines g stages x := hc.objects x

/-- The fixed name that naming goes by. -/
theorem Collected.fixedOf_eq_some_iff (hc : c.Collected g stages) (hx : Defines g stages x) :
    Assignment.fixedOf g c.required x = some name ↔ FixedName g stages x name := by
  obtain ⟨o, ho, hemitted⟩ := hx.2
  have hname : o.name? = some (o.name?.getD "") := by
    cases o <;> first | rfl | cases hemitted
  rw [Assignment.fixedOf_of_find? ho, Assignment.fixedName?, FixedName, ← hc.required]
  constructor
  · intro h
    split at h
    · next n hn => exact .inl (h ▸ hn)
    · by_cases ha : o.anonymous = true
      · simp [ha] at h
      · simp only [ha, if_false, Bool.false_eq_true, Option.some.injEq] at h
        exact .inr ⟨o, ho, by simpa using ha, h ▸ hname⟩
  · rintro (hrequired | ⟨o', ho', ha, hn⟩)
    · rw [hrequired]
    · rw [ho] at ho'
      obtain rfl := Option.some.inj ho'
      rw [hn, Option.getD_some]
      split
      · next n hrequired =>
        -- an object with a name of its own is required under no other
        obtain ⟨o', ho', hcan⟩ := hc.canBeCalled x n hrequired
        rw [ho] at ho'
        obtain rfl := Option.some.inj ho'
        obtain hcan | hcan := hcan
        · rw [ha] at hcan
          cases hcan
        · rw [← hcan, hn, Option.getD_some]
      · simp [ha]

theorem Collected.fixedOf_eq_none (hc : c.Collected g stages) (hx : Defines g stages x)
    (h : ∀ n, ¬ FixedName g stages x n) : Assignment.fixedOf g c.required x = none := by
  cases hn : Assignment.fixedOf g c.required x with
  | none => rfl
  | some n => exact absurd ((hc.fixedOf_eq_some_iff hx).1 hn) (h n)

variable {keywords : Bool} {names : Names} {a : Assignment}

/-- What the first round of naming fails over is a collision. -/
theorem Collected.collides (hc : c.Collected g stages)
    (h : (∃ x ∈ c.objects, ∃ y ∈ c.objects, ∃ n, x ≠ y ∧
        Assignment.fixedOf g c.required x = some n ∧ Assignment.fixedOf g c.required y = some n) ∨
      ∃ x ∈ c.objects, ∃ n, Assignment.fixedOf g c.required x = some n ∧
        (Assignment.start g keywords names c).space.isKeyword n = true) :
    Collides g stages keywords := by
  obtain ⟨x, hx, y, hy, n, hne, hxn, hyn⟩ | ⟨x, hx, n, hxn, hkeyword⟩ := h
  · have hx := hc.mem_objects.1 hx
    have hy := hc.mem_objects.1 hy
    exact .inl ⟨x, y, n, hne, hx, hy, (hc.fixedOf_eq_some_iff hx).1 hxn,
      (hc.fixedOf_eq_some_iff hy).1 hyn⟩
  · have hx := hc.mem_objects.1 hx
    obtain ⟨hkeywords, hreserved⟩ := Bool.and_eq_true_iff.1 hkeyword
    exact .inr ⟨hkeywords, x, n, hx, (hc.fixedOf_eq_some_iff hx).1 hxn, hreserved⟩

/-- Where all objects are named, fixed names do not collide. -/
theorem Collected.not_collides (hc : c.Collected g stages)
    (hfollows : (Assignment.start g keywords names c).Follows a)
    (hnamed : Assignment.Named g c.required a (· ∈ c.objects)) : ¬ Collides g stages keywords := by
  rintro (⟨x, y, n, hne, hx, hy, hxn, hyn⟩ | ⟨hkeywords, x, n, hx, hxn, hreserved⟩)
  · -- both have the name, which has one claimant only
    obtain ⟨m, hm, -, hs⟩ := hnamed x (hc.mem_objects.2 hx)
    obtain ⟨m', hm', -, hs'⟩ := hnamed y (hc.mem_objects.2 hy)
    rw [hs.fixed n ((hc.fixedOf_eq_some_iff hx).2 hxn)] at hm
    rw [hs'.fixed n ((hc.fixedOf_eq_some_iff hy).2 hyn)] at hm'
    exact hne (hnamed.injective (hc.mem_objects.2 hx) (hc.mem_objects.2 hy) (hm.trans hm'.symm))
  · -- no name that suits an object is a word of the language
    obtain ⟨m, -, -, hs⟩ := hnamed x (hc.mem_objects.2 hx)
    have hkeyword := hs.keyword
    rw [hs.fixed n ((hc.fixedOf_eq_some_iff hx).2 hxn), Namespace.isKeyword, hfollows.keywords,
      hreserved, Bool.and_true] at hkeyword
    exact Bool.noConfusion (hkeyword.symm.trans hkeywords)

/-- What code takes is reserved from the start. -/
theorem Collected.mem_reserved (hc : c.Collected g stages)
    (h : (∃ y o, Needs g stages y ∧ g.find? y = some o ∧ name ∈ o.staticNames) ∨
      ∃ m ∈ stages.toList, name ∈ m.staticNames) :
    name ∈ c.reserved ++ Assignment.staticNames g c.objects := by
  obtain ⟨y, o, hy, ho, hstatic⟩ | ⟨m, hm, hdeclared⟩ := h
  · -- only functions have static names, and functions are emitted
    have hemits : g.Emits y := by
      refine ⟨o, ho, ?_⟩
      cases o <;> first | rfl | cases hstatic
    refine List.mem_append_right _ (List.mem_flatMap.2 ⟨y, hc.mem_objects.2 ⟨hy, hemits⟩, ?_⟩)
    simpa [ho] using hstatic
  · rw [hc.reserved]
    exact List.mem_append_left _ (List.mem_flatMap.2 ⟨m, hm, hdeclared⟩)

/-- **Where all objects are named, their names are without collisions.** -/
theorem Collected.collisionFree (hc : c.Collected g stages)
    (hfollows : (Assignment.start g keywords names c).Follows a)
    (hnamed : Assignment.Named g c.required a (· ∈ c.objects)) :
    CollisionFree g stages keywords a.names := by
  -- what is known of a name that is not fixed
  have hfree : ∀ x name, Defines g stages x → (∀ n, ¬ FixedName g stages x n) →
      a.names[x]? = some name → name ∉ c.reserved ++ Assignment.staticNames g c.objects ∧
        a.space.isKeyword name = false := by
    intro x name hx hno hname
    obtain ⟨m, hm, -, hs⟩ := hnamed x (hc.mem_objects.2 hx)
    rw [hname] at hm
    obtain rfl := Option.some.inj hm
    have hreserved := hs.reserved (hc.fixedOf_eq_none hx hno)
    rw [hfollows.reserved] at hreserved
    exact ⟨hreserved, hs.keyword⟩
  refine { named := fun x hx => ?_, distinct := fun x y hx hy => ?_,
           fixed := fun x name hx hfixed => ?_, static := fun x name hx hno hname y o hy ho => ?_,
           declared := fun x name hx hno hname m hm => ?_,
           word := fun x name hx hno hname hkeywords => ?_ }
  · obtain ⟨m, hm, -⟩ := hnamed x (hc.mem_objects.2 hx)
    exact ⟨m, hm⟩
  · exact hnamed.injective (hc.mem_objects.2 hx) (hc.mem_objects.2 hy)
  · obtain ⟨m, hm, -, hs⟩ := hnamed x (hc.mem_objects.2 hx)
    rw [hm, hs.fixed name ((hc.fixedOf_eq_some_iff hx).2 hfixed)]
  · intro hstatic
    exact (hfree x name hx hno hname).1 (hc.mem_reserved (.inl ⟨y, o, hy, ho, hstatic⟩))
  · intro hdeclared
    exact (hfree x name hx hno hname).1 (hc.mem_reserved (.inr ⟨m, hm, hdeclared⟩))
  · have hkeyword := (hfree x name hx hno hname).2
    have hkeywords' : a.space.keywords = keywords := hfollows.keywords
    rw [Namespace.isKeyword, hkeywords', hkeywords, Bool.true_and] at hkeyword
    exact hkeyword

end Closure

namespace Linker

open Closure

/-- **Naming collides with nothing.** Whatever a linker remembers, once the stages are collected
naming fails exactly if fixed names collide, and gives names without collisions otherwise. -/
theorem naming_collisionFree {g : Graph} {stages : Stages StageMain} {c : Closure}
    (h : Closure.collect g stages = .ok c) (l : Linker) :
    ((∃ e, Assignment.ofClosure g l.settings.naming l.settings.reserveKeywords l.names c =
        .error e) ↔ Collides g stages l.settings.reserveKeywords) ∧
    ∀ a, Assignment.ofClosure g l.settings.naming l.settings.reserveKeywords l.names c = .ok a →
      CollisionFree g stages l.settings.reserveKeywords a.names := by
  have hc := collected_of_collect h
  have hcases := Assignment.ofClosure_cases hc l.settings.naming l.settings.reserveKeywords l.names
  refine ⟨⟨?_, ?_⟩, ?_⟩
  · -- it fails only in the first case of the three rounds, which is a collision
    rintro ⟨e, he⟩
    obtain ⟨hcollides, -⟩ | ⟨a, ha, -⟩ := hcases
    · exact hc.collides hcollides
    · rw [ha] at he
      cases he
  · intro hcollides
    obtain ⟨-, herror⟩ | ⟨a, -, hfollows, hnamed⟩ := hcases
    · exact herror
    · exact absurd hcollides (hc.not_collides hfollows hnamed)
  · intro a ha
    obtain ⟨hfollows, hnamed⟩ := Assignment.ofClosure_eq_ok hc ha
    exact hc.collisionFree hfollows hnamed

/-- A stage that needs two uniforms, both made under the name `u`. -/
def twoUniforms : Graph × Stages StageMain :=
  let g := (Graph.empty.insert ⟨1⟩ (.var (.ofValue "u" (.bool true)))).insert ⟨2⟩
    (.var (.ofValue "u" (.bool false)))
  let m : StageMain :=
    { template := [], staticNames := [], outputs := []
      attachments := [⟨"first", ⟨1⟩, none⟩, ⟨"second", ⟨2⟩, none⟩] }
  (g, ⟨some m, none⟩)

/-- The two uniforms get different names. -/
theorem naming_twoUniforms : ∃ c a, Closure.collect twoUniforms.1 twoUniforms.2 = .ok c ∧
    Assignment.ofClosure twoUniforms.1 .pretty true ∅ c = .ok a ∧
    (a.names[(⟨1⟩ : ObjectId)]?, a.names[(⟨2⟩ : ObjectId)]?) = (some "u", some "u_1") ∧
    CollisionFree twoUniforms.1 twoUniforms.2 true a.names := by
  have hrun : ((Closure.collect twoUniforms.1 twoUniforms.2).bind fun c =>
      (Assignment.ofClosure twoUniforms.1 .pretty true ∅ c).map fun a =>
        (a.names[(⟨1⟩ : ObjectId)]?, a.names[(⟨2⟩ : ObjectId)]?)).toOption =
      some (some "u", some "u_1") := by decide +kernel
  cases hc : Closure.collect twoUniforms.1 twoUniforms.2 with
  | error e =>
    rw [hc] at hrun
    cases hrun
  | ok c =>
    cases ha : Assignment.ofClosure twoUniforms.1 .pretty true ∅ c with
    | error e =>
      rw [hc, Except.bind, ha] at hrun
      cases hrun
    | ok a =>
      rw [hc, Except.bind, ha] at hrun
      exact ⟨c, a, rfl, ha, Option.some.inj hrun,
        (naming_collisionFree hc (.new .default)).2 a ha⟩

end Linker

end ShaderLink
