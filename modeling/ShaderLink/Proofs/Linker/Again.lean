import ShaderLink.Proofs.Linker.Link
import ShaderLink.Proofs.Naming.Again

/-!
# Linking again

A linking that has succeeded would succeed again with the same sources, and change nothing but the
list of what it wrote (`Linker.link_again`). Naming finds the names of the first time, and writing
finds every definition: once an object is defined, the linker **remembers** it under its name and
revision (`Linker.Remembers`), and writing other definitions keeps it.
-/

namespace ShaderLink

namespace Linker

open ShaderLink.Graph
open MonadExcept (ofExcept)

variable {g : Graph} {stages : Stages StageMain} {c : Closure} {l l' : Linker} {x : ObjectId}
  {code : String}

/-- The linker remembers the definition of an object, and would use it again. -/
def Remembers (g : Graph) (l : Linker) (x : ObjectId) (code : String) : Prop :=
  ∃ name revision, l.names[x]? = some name ∧ g.revision x = .ok revision ∧
    l.definitions[x]? = some { name, revision, code }

/-- The linker has the same names and settings, still remembers what it did, and remembers besides
what was written with these names. -/
structure Extends (g : Graph) (l l' : Linker) : Prop where
  sameNames : SameNames l l'
  remembers : ∀ x code, Remembers g l x code → Remembers g l' x code
  written : ∀ (x : ObjectId) d, l'.definitions[x]? = some d → l.definitions[x]? = some d ∨
    ∃ code, g.definition? l.names x = .ok code ∧ d.code = code.getD ""

/-- A linker with the same names, settings and definitions extends another. -/
theorem extends_of_eq (hsame : SameNames l l') (hdefinitions : l'.definitions = l.definitions) :
    Extends g l l' where
  sameNames := hsame
  remembers := fun x code ⟨name, revision, hname, hrevision, hd⟩ =>
    ⟨name, revision, by rw [hsame.1, hname], hrevision, by rw [hdefinitions, hd]⟩
  written := fun x d hd => .inl (hdefinitions ▸ hd)

theorem Extends.trans {l'' : Linker} (h : Extends g l l') (h' : Extends g l' l'') :
    Extends g l l'' where
  sameNames := ⟨h'.sameNames.1.trans h.sameNames.1, h'.sameNames.2.trans h.sameNames.2⟩
  remembers := fun x code hx => h'.remembers x code (h.remembers x code hx)
  written := fun x d hd => by
    obtain hd | ⟨code, hcode, htext⟩ := h'.written x d hd
    · exact h.written x d hd
    · rw [h.sameNames.1] at hcode
      exact .inr ⟨code, hcode, htext⟩

instance : IsPreorder Linker (Extends g) where
  refl _ := extends_of_eq ⟨rfl, rfl⟩ rfl
  trans _ _ _ h h' := h.trans h'

/-- What is remembered is used again. -/
theorem run_define_of_remembers (h : Remembers g l x code) : (define g x).run l = .ok code l := by
  obtain ⟨name, revision, hname, hrevision, hd⟩ := h
  rw [run_define (nameIn_eq_ok_iff.2 hname) hrevision, hd, Option.filter_some_pos (by simp)]

/-- What is defined is remembered, with whatever was remembered before. -/
theorem remembers_of_run_define (h : (define g x).run l = .ok code l') :
    Remembers g l' x code ∧ Extends g l l' := by
  -- having answered, it has found a name and a revision
  have hnamed : ∃ name, nameIn l.names x = .ok name := by
    cases hn : nameIn l.names x with
    | ok name => exact ⟨name, rfl⟩
    | error e => simp [define, EStateM.run_bind, EStateM.run_get, hn] at h
  obtain ⟨name, hname⟩ := hnamed
  have hrevised : ∃ revision, g.revision x = .ok revision := by
    cases hr : g.revision x with
    | ok revision => exact ⟨revision, rfl⟩
    | error e => simp [define, EStateM.run_bind, EStateM.run_get, hname, hr] at h
  obtain ⟨revision, hrevision⟩ := hrevised
  have hnames := nameIn_eq_ok_iff.1 hname
  rw [run_define hname hrevision] at h
  cases hhit : l.definitions[x]?.filter fun d => d.name = name ∧ d.revision = revision with
  | some d =>
    obtain ⟨hd, hmatches⟩ := Option.filter_eq_some_iff.1 hhit
    obtain ⟨rfl, rfl⟩ := of_decide_eq_true hmatches
    rw [hhit] at h
    cases h
    exact ⟨⟨_, _, hnames, hrevision, hd⟩, refl l⟩
  | none =>
    rw [hhit] at h
    cases hcode : g.definition? l.names x with
    | error e =>
      rw [hcode] at h
      cases h
    | ok written =>
      rw [hcode] at h
      cases h
      refine ⟨⟨name, revision, hnames, hrevision, by simp⟩,
        { sameNames := ⟨rfl, rfl⟩, remembers := ?_, written := fun y d hd => ?_ }⟩
      · rintro y code ⟨n, r, hn, hr, hd⟩
        -- what is remembered of this object would have been used
        have hxy : x ≠ y := by
          rintro rfl
          rw [hn] at hnames
          rw [hr] at hrevision
          obtain rfl := Option.some.inj hnames
          obtain rfl := Except.ok.inj hrevision
          rw [hd] at hhit
          simp at hhit
        exact ⟨n, r, hn, hr, by simpa [Std.ExtTreeMap.getElem?_insert, hxy] using hd⟩
      · change (l.definitions.insert x _)[y]? = some d at hd
        rw [Std.ExtTreeMap.getElem?_insert] at hd
        by_cases hxy : x = y
        · subst hxy
          obtain rfl : _ = d := by simpa using hd
          exact .inr ⟨written, hcode, rfl⟩
        · exact .inl (by simpa [hxy] using hd)

/-! ### Writing again -/

theorem repeats_define (x : ObjectId) : Repeats (Extends g) (define g x) := by
  intro l code l' h
  obtain ⟨hremembers, hextends⟩ := remembers_of_run_define h
  exact ⟨hextends, fun u hu => run_define_of_remembers (hu.remembers x code hremembers)⟩

theorem repeats_writeStage (order : List ObjectId) (m : StageMain) :
    Repeats (Extends g) (writeStage g order m) := by
  refine (repeats_mapM repeats_define order).bind fun definitions =>
    repeats_get_bind (fun l => (repeats_ofExcept _).bind fun main => repeats_pure _) ?_
  -- the main code is written by names and settings alone
  intro l l' h
  rw [h.sameNames.1, h.sameNames.2]

theorem repeats_writeStages (stages : Stages StageMain) (c : Closure) :
    Repeats (Extends g) (writeStages g stages c) :=
  (repeats_optionMapM (repeats_writeStage _) stages.vertex).bind fun _ =>
    (repeats_optionMapM (repeats_writeStage _) stages.fragment).bind fun _ => repeats_pure _

/-- A plan that asks for no more than an earlier one names the objects as that did, so nothing is
invalidated. -/
theorem plan_within {g' : Graph} {stages' : Stages StageMain} {c' : Closure} {l₁ : Linker}
    (h : l.plan g stages = .ok (c, l₁)) (hsame : SameNames l₁ l')
    (hcollect' : Closure.collect g' stages' = .ok c') (hwithin : Assignment.Within g g' c c') :
    l'.plan g' stages' = .ok (c', l') := by
  obtain ⟨a, hcollect, ha, rfl⟩ := plan_eq_ok_iff.1 h
  have hnames : l'.names = a.names := hsame.1.trans (names_foldl_invalidate _)
  have hsettings : l'.settings = l.settings := hsame.2.trans (settings_foldl_invalidate _)
  obtain ⟨a', ha', hnames', hrenamed'⟩ :=
    Assignment.ofClosure_within (Closure.collected_of_collect hcollect)
      (Closure.collected_of_collect hcollect') hwithin ha
  refine plan_eq_ok_iff.2 ⟨a', hcollect', ?_, ?_⟩
  · rw [hnames, hsettings]
    exact ha'
  · rw [hrenamed', hnames', ← hnames]
    rfl

/-- A plan made again after writing is the same and renames nothing. -/
theorem plan_again {l₁ : Linker} (h : l.plan g stages = .ok (c, l₁)) (hsame : SameNames l₁ l') :
    l'.plan g stages = .ok (c, l') := by
  obtain ⟨a, hcollect, -⟩ := plan_eq_ok_iff.1 h
  exact plan_within h hsame hcollect (.refl g c)

/-- **A linking that has succeeded would do so again**, with the same sources and the same names. -/
theorem link_again {linked : Linked} (h : (link g stages).run l = .ok linked l') :
    (link g stages).run l' = .ok linked l'.cleared := by
  obtain ⟨c, l₁, hplan, hwrite⟩ := link_eq_ok h
  obtain ⟨hextends, hagain⟩ := repeats_writeStages stages c l₁ linked l' hwrite
  have hplan' : l'.cleared.plan g stages = .ok (c, l'.cleared) :=
    plan_again hplan hextends.sameNames
  rw [run_link, hplan']
  -- all that was written before is remembered, so nothing is written now
  exact hagain l'.cleared (extends_of_eq ⟨rfl, rfl⟩ rfl)

end Linker

end ShaderLink
