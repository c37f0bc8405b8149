import ShaderLink.Proofs.Definition.Stable
import ShaderLink.Proofs.Linker.Link

/-!
# Remembered definitions are up to date

A definition is remembered from a graph and with names of the past, its **origin**
(`Linker.Origin`). What the origin says of the present is the invariant of a linker: as long as the
revision is the same and everything that shows in the definition is there, nothing that shows in it
has been renamed since (`Linker.Faithful`). Renaming keeps it because it drops every definition that
the name shows in (`mem_mentioning`), and editing keeps it as long as nothing that is gone comes
back (`Faithful.steps`).

A remembered definition that is used again is therefore the one that would be written
(`Faithful.code_eq`), and from every faithful linker with the same names `define` yields the same
(`yields_define`).
-/

namespace ShaderLink

namespace Graph

variable {g g' : Graph} {x y : ObjectId} {o o' : Object}

/-- What shows in an object shows there later as well, as long as the object shows the same and
everything that shows in it is still there. -/
theorem Shows.transfer (h : Change g g') (hs : g.Shows x y) (ho : g.find? x = some o)
    (ho' : g'.find? x = some o') (hsame : o'.shown = o.shown)
    (hpresent : ∀ z, g.Shows x z → z ∈ g'.ids) : g'.Shows x y := by
  induction hs generalizing o o' with
  | direct ho₁ hy =>
    rw [ho] at ho₁
    obtain rfl := Option.some.inj ho₁
    exact .direct ho' (hsame ▸ hy)
  | @through x y z _ oz ho₁ hz hoz he _ ih =>
    rw [ho] at ho₁
    obtain rfl := Option.some.inj ho₁
    obtain ⟨oz', hoz'⟩ := mem_ids_iff.1 (hpresent z (.direct ho hz))
    obtain rfl := (h.keepsText hoz hoz').2 he
    exact .through ho' (hsame ▸ hz) hoz' he
      (ih hoz hoz' rfl fun w hw => hpresent w (.through ho hz hoz he hw))

/-- **Renaming reaches everything that the name shows in.** -/
theorem Exact.mem_mentioning (h : g.Exact) (hs : g.Shows x y) : x ∈ Linker.mentioning g y := by
  unfold Linker.mentioning
  rw [Traversal.mem_preorder_iff]
  · induction hs with
    | direct ho hy =>
      exact .root (List.mem_reverse.2 (h.mem_referrersOf ho (Object.mem_references_of_shown hy)))
    | through ho hz hoz he _ ih =>
      -- the search goes on from what is written out where it is used
      refine ih.step ?_
      rw [hoz, Option.any_some, he, Bool.not_false, if_pos rfl, List.mem_reverse]
      exact h.mem_referrersOf ho (Object.mem_references_of_shown hz)
  · -- and it goes through objects on the record only
    intro z hz
    refine hz.induction (fun r hr => ?_) fun w _ v hv => ?_
    · exact mem_allSources_of_mem_referrersOf (List.mem_reverse.1 hr)
    · split at hv
      · exact mem_allSources_of_mem_referrersOf (List.mem_reverse.1 hv)
      · cases hv

end Graph

namespace Closure

open ShaderLink.Graph

variable {g g' : Graph} {stages : Stages StageMain} {c : Closure} {x y : ObjectId} {o o' : Object}

/-- What shows in a needed object that shows the same as before is needed as well. -/
theorem Collected.needs_of_shows (hc : c.Collected g' stages) (h : Change g g') (hs : g.Shows x y)
    (hx : Needs g' stages x) (ho : g.find? x = some o) (ho' : g'.find? x = some o')
    (hsame : o'.shown = o.shown) : Needs g' stages y := by
  induction hs generalizing o o' with
  | direct ho₁ hy =>
    rw [ho] at ho₁
    obtain rfl := Option.some.inj ho₁
    exact hx.dependency ho' (Object.mem_dependencies_of_shown (hsame ▸ hy))
  | @through x y z _ oz ho₁ hz hoz he _ ih =>
    rw [ho] at ho₁
    obtain rfl := Option.some.inj ho₁
    have hz' := hx.dependency ho' (Object.mem_dependencies_of_shown (hsame ▸ hz))
    obtain ⟨oz', hoz'⟩ := hc.present z hz'
    obtain rfl := (h.keepsText hoz hoz').2 he
    exact ih hz' hoz hoz' rfl

/-- All that shows in a needed object that shows the same as before is there. -/
theorem Collected.mem_ids_of_shows (hc : c.Collected g' stages) (h : Change g g')
    (hx : Needs g' stages x) (ho : g.find? x = some o) (ho' : g'.find? x = some o')
    (hsame : o'.shown = o.shown) : ∀ y, g.Shows x y → y ∈ g'.ids := by
  intro y hy
  obtain ⟨oy, hoy⟩ := hc.present y (hc.needs_of_shows h hy hx ho ho' hsame)
  exact mem_ids_of_find? hoy

end Closure

namespace Linker

open ShaderLink.Graph

variable {g g' g₀ : Graph} {names names' names₀ : Names} {l : Linker} {held held' : ObjectId → Prop}
  {x y : ObjectId} {d : Definition}

/-- **Where a remembered definition comes from**: a graph in which it had its revision, and names
with which it was written. Every object of that graph has been `held`. -/
structure Origin (held : ObjectId → Prop) (g : Graph) (names : Names) (x : ObjectId)
    (d : Definition) (g₀ : Graph) (names₀ : Names) : Prop where
  revision : ∃ n, g₀.nodes[x]? = some n ∧ n.revision = d.revision
  name : names₀[x]? = some d.name
  code : ∃ code, g₀.definition? names₀ x = .ok code ∧ d.code = code.getD ""
  wellFormed : g₀.AllWellFormed
  held : ∀ y ∈ g₀.ids, held y
  shown : ∀ y, g₀.Shows x y → y ∈ g₀.ids
  change : Change g₀ g
  agree : Steady g₀ g x → (∀ y, g₀.Shows x y → y ∈ g.ids) →
    ∀ y, g₀.Shows x y → names[y]? = names₀[y]?

/-- **A linker is faithful** to a graph if everything it remembers has an origin. -/
def Faithful (held : ObjectId → Prop) (g : Graph) (l : Linker) : Prop :=
  ∀ (x : ObjectId) d, l.definitions[x]? = some d → ∃ g₀ names₀, Origin held g l.names x d g₀ names₀

theorem faithful_of_empty (h : l.definitions = ∅) : Faithful held g l := by
  intro x d hd
  rw [h] at hd
  simp at hd

/-! ### Editing -/

/-- **Editing keeps a linker faithful** as long as nothing that was held is new. -/
theorem Faithful.steps {new : ObjectId → Prop} {flip : Prop} (h : Faithful held g l) (hg : g.Exact)
    (hsteps : Steps new flip g g') (hflip : ¬ flip) (hnew : ∀ x, new x → ¬ held x)
    (hheld : ∀ x ∈ g.ids, held x) (hmore : ∀ x, held x → held' x) : Faithful held' g' l := by
  intro x d hd
  obtain ⟨g₀, names₀, horigin⟩ := h x d hd
  -- what comes back would be new, and it was held at the origin
  have hback : ∀ y, y ∈ g₀.ids → y ∈ g'.ids → y ∈ g.ids := by
    intro y hy₀ hy'
    by_contra hy
    exact hnew y (Steps.born hsteps hy hy') (horigin.held y hy₀)
  have hchange := Steps.change hsteps hflip hg.upTo fun y hy hn => hnew y hn (hheld y hy)
  refine ⟨g₀, names₀, { horigin with
    held := fun y hy => hmore y (horigin.held y hy)
    change := horigin.change.trans hchange hback
    agree := fun hsteady hpresent y hy => ?_ }⟩
  have hsteady := (Steady.split horigin.change hchange (hback x) hsteady).1
  refine horigin.agree hsteady (fun z hz => ?_) y hy
  exact hback z (horigin.shown z hz) (hpresent z hz)

/-! ### Renaming -/

theorem getElem?_foldl_erase (ids : List ObjectId) (m : Std.ExtTreeMap ObjectId Definition) :
    (ids.foldl (fun m x => m.erase x) m)[x]? = if x ∈ ids then none else m[x]? := by
  induction ids generalizing m with
  | nil => simp
  | cons y ids ih =>
    rw [List.foldl_cons, ih, Std.ExtTreeMap.getElem?_erase]
    by_cases hxy : y = x
    · simp [hxy]
    · simp [hxy, Ne.symm hxy]

theorem definitions_invalidate :
    (l.invalidate g y).definitions[x]? =
      if x ∈ y :: mentioning g y then none else l.definitions[x]? :=
  getElem?_foldl_erase ..

/-- What is still remembered after invalidations was remembered before, and shows none of the
names. -/
theorem definitions_foldl_invalidate {ids : List ObjectId}
    (hd : (ids.foldl (fun l y => l.invalidate g y) l).definitions[x]? = some d) :
    l.definitions[x]? = some d ∧ ∀ y ∈ ids, x ∉ mentioning g y := by
  induction ids generalizing l with
  | nil => exact ⟨hd, nofun⟩
  | cons y ids ih =>
    obtain ⟨hy, hids⟩ := ih hd
    rw [definitions_invalidate] at hy
    split at hy
    · cases hy
    · next hmem =>
      refine ⟨hy, fun z hz => ?_⟩
      obtain rfl | hz := List.mem_cons.1 hz
      · exact mt (List.mem_cons_of_mem z) hmem
      · exact hids z hz

/-- **Renaming keeps a linker faithful** if it invalidates everything that is renamed. -/
theorem Faithful.rename (h : Faithful held g l) (hg : g.Exact) (ids : List ObjectId)
    (names' : Names) (hnames : ∀ y : ObjectId, y ∉ ids → names'[y]? = l.names[y]?) :
    Faithful held g (ids.foldl (fun l y => l.invalidate g y) { l with names := names' }) := by
  intro x d hd
  obtain ⟨hd, hmentioning⟩ := definitions_foldl_invalidate hd
  obtain ⟨g₀, names₀, horigin⟩ := h x d hd
  rw [names_foldl_invalidate]
  refine ⟨g₀, names₀, { horigin with agree := fun hsteady hpresent y hy => ?_ }⟩
  -- otherwise the definition would have been dropped
  have hy' : y ∉ ids := by
    intro hmem
    refine hmentioning y hmem (hg.mem_mentioning ?_)
    obtain ⟨o, ho⟩ := mem_ids_iff.1 hsteady.mem_ids.1
    obtain ⟨o', ho'⟩ := mem_ids_iff.1 hsteady.mem_ids.2
    exact hy.transfer horigin.change ho ho'
      (horigin.change.alike_of_steady hsteady ho ho').shown_eq hpresent
  exact (hnames y hy').trans (horigin.agree hsteady hpresent y hy)

theorem Faithful.forget (h : Faithful held g l) (hg : g.Exact) (x : ObjectId) :
    Faithful held g (l.forget g x) := by
  refine h.rename hg [x] (l.names.erase x) fun y hy => ?_
  have hxy : x ≠ y := fun hxy => hy (hxy ▸ List.mem_singleton_self x)
  simp [Std.ExtTreeMap.getElem?_erase, hxy]

/-! ### Writing -/

variable {stages : Stages StageMain} {c : Closure} {settings : Settings}

/-- What a written definition comes from: the present. -/
theorem origin_of_definition (hc : c.Collected g stages) (hwf : g.AllWellFormed)
    (hheld : ∀ x ∈ g.ids, held x) (hx : Closure.Needs g stages x) {name : String} {revision : Nat}
    {code : Option String} (hname : names[x]? = some name) (hrevision : g.revision x = .ok revision)
    (hcode : g.definition? names x = .ok code) :
    Origin held g names x { name, revision, code := code.getD "" } g names := by
  obtain ⟨o, ho⟩ := hc.present x hx
  exact { revision := revision_eq_ok_iff.1 hrevision, name := hname, code := ⟨code, hcode, rfl⟩
          wellFormed := hwf, held := hheld, shown := hc.mem_ids_of_shows (.refl g) hx ho ho rfl
          change := .refl g, agree := fun _ _ _ _ => rfl }

/-- **A definition that is used again is the one that would be written.** -/
theorem Faithful.code_eq (h : Faithful held g l) (hc : c.Collected g stages)
    (hx : Closure.Needs g stages x) (hd : l.definitions[x]? = some d)
    (hname : l.names[x]? = some d.name) (hrevision : g.revision x = .ok d.revision)
    {code : Option String} (hcode : g.definition? l.names x = .ok code) :
    d.code = code.getD "" := by
  obtain ⟨g₀, names₀, horigin⟩ := h x d hd
  obtain ⟨n₀, hn₀, hrevision₀⟩ := horigin.revision
  obtain ⟨n, hn, hrevision⟩ := revision_eq_ok_iff.1 hrevision
  have hsteady : Steady g₀ g x := ⟨n₀, n, hn₀, hn, hrevision₀.trans hrevision.symm⟩
  have ho₀ := find?_of_node hn₀
  have ho := find?_of_node hn
  -- it shows what it showed at its origin, all of which is there and has kept its name
  have hshown := (horigin.change.alike_of_steady hsteady ho₀ ho).shown_eq
  have hpresent := hc.mem_ids_of_shows horigin.change hx ho₀ ho hshown
  have hagree := agree_definition horigin.change.lasting hsteady horigin.wellFormed
    (hname.trans horigin.name.symm)
    fun y hy => ⟨horigin.agree hsteady hpresent y hy, horigin.change.keepsText⟩
  obtain ⟨code₀, hcode₀, hd₀⟩ := horigin.code
  rw [hd₀, hagree code₀ code hcode₀ hcode]

/-- The linkers that are faithful to a graph and have certain names and settings. -/
structure FaithfulWith (held : ObjectId → Prop) (g : Graph) (names : Names) (settings : Settings)
    (l : Linker) : Prop where
  faithful : Faithful held g l
  names : l.names = names
  settings : l.settings = settings

/-- **A definition is what it would be if nothing were remembered.** -/
theorem yields_define (hc : c.Collected g stages) (hn : c.AllNamed names) (hwf : g.AllWellFormed)
    (hheld : ∀ x ∈ g.ids, held x) (hx : Closure.Needs g stages x) (he : g.Emits x) :
    Yields (FaithfulWith held g names settings) (define g x)
      ((·.getD "") <$> g.definition? names x) := by
  rintro l ⟨hl, rfl, hsettings⟩
  obtain ⟨name, hname, hnameIn⟩ := hn.nameIn hc hx he
  obtain ⟨o, ho⟩ := hc.present x hx
  obtain ⟨n, hnode, -⟩ := find?_eq_some_iff.1 ho
  have hrevision : g.revision x = .ok n.revision := revision_eq_ok_iff.2 ⟨n, hnode, rfl⟩
  obtain ⟨code, hcode⟩ := hc.definition_eq_ok hn hwf hx
  have hrun := run_define hnameIn hrevision
  cases hhit : l.definitions[x]?.filter fun d => d.name = name ∧ d.revision = n.revision with
  | some d =>
    -- name and revision match, so its origin is as good as the present
    obtain ⟨hd, hmatches⟩ := Option.filter_eq_some_iff.1 hhit
    obtain ⟨rfl, hsame⟩ := of_decide_eq_true hmatches
    have hcode' := hl.code_eq hc hx hd hname (hsame ▸ hrevision) hcode
    rw [hhit] at hrun
    rw [outcome, stateAfter, hrun, hcode]
    exact ⟨congrArg Except.ok hcode', hl, rfl, hsettings⟩
  | none =>
    rw [hhit, hcode] at hrun
    rw [outcome, stateAfter, hrun, hcode]
    refine ⟨rfl, fun y d hd => ?_, rfl, hsettings⟩
    -- what is new comes from the present, everything else from where it came before
    change (l.definitions.insert x _)[y]? = some d at hd
    rw [Std.ExtTreeMap.getElem?_insert] at hd
    by_cases hxy : x = y
    · subst hxy
      obtain rfl : _ = d := by simpa using hd
      exact ⟨g, l.names, origin_of_definition hc hwf hheld hx hname hrevision hcode⟩
    · exact hl y d (by simpa [hxy] using hd)

end Linker

end ShaderLink
