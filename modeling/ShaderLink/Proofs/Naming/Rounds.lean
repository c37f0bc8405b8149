import ShaderLink.Proofs.Naming.Assignment

/-!
# The order in which names are given

What each object gets out of the three rounds depends on the objects before it. What a round leaves
free is what was free, without the names that it has handed out (`isFree_of_fix`, `isFree_of_keep`,
`exists_suggest_of_freshen`), and this settles for an object without a fixed name whether it keeps
the name it had (`keep_split`) and which one it gets otherwise (`ofClosure_split`).

The objects before an object are those in front of it where a list is split at the object. Only
objects whose names change are listed as renamed (`names_ne_of_mem_renamed`).
-/

namespace ShaderLink

theorem Namespace.isFree_claim {ns ns' : Namespace} {name : String} {id : ObjectId}
    (h : ns.claim name id = .ok ns') (n : String) :
    ns'.isFree n = true ↔ ns.isFree n = true ∧ name ≠ n := by
  obtain ⟨-, rfl⟩ := claim_eq_ok_iff.1 h
  rw [isFree_iff, isFree_iff, Std.ExtTreeMap.getElem?_insert]
  by_cases hn : name = n
  · simp [hn]
  · simp [hn, isKeyword]

theorem Closure.Collected.exists_find? {g : Graph} {stages : Stages StageMain} {c : Closure}
    (hc : c.Collected g stages) : ∀ x ∈ c.objects, ∃ o, g.find? x = some o :=
  fun x hx => hc.present x ((hc.objects x).1 hx).1

namespace Assignment

variable {g : Graph} {required names : Names} {style : NamingStyle} {keywords : Bool}
  {a a' : Assignment} {c : Closure} {x y : ObjectId}
  {l l₁ l₂ free unnamed before after : List ObjectId} {n : String}

theorem Claims.space_isFree {name : String} (h : Claims a a' x name) :
    a'.space.isFree n = true ↔ a.space.isFree n = true ∧ name ≠ n :=
  Namespace.isFree_claim h.claim n

/-! ### The first round -/

/-- **The first round takes the fixed names**, and lets the other objects have their names. -/
theorem isFree_of_fix (h : fix g required a l = .ok (a', free))
    (hpresent : ∀ x ∈ l, ∃ o, g.find? x = some o) :
    (∀ n, a'.space.isFree n = true ↔
      a.space.isFree n = true ∧ ∀ y ∈ l, fixedOf g required y ≠ some n) ∧
    (∀ y, fixedOf g required y = none → a'.names[y]? = a.names[y]?) ∧
    ∀ y ∈ a'.renamed, y ∈ a.renamed ∨
      ∃ n, y ∈ l ∧ fixedOf g required y = some n ∧ a.names[y]? ≠ some n := by
  induction l generalizing a free with
  | nil =>
    cases h
    exact ⟨by simp, fun _ _ => rfl, fun _ hy => .inl hy⟩
  | cons x l ih =>
    obtain ⟨o, ho⟩ := hpresent x List.mem_cons_self
    have hpresent := fun y hy => hpresent y (List.mem_cons_of_mem x hy)
    rw [fix_cons ho] at h
    cases hfixed : fixedOf g required x with
    | none =>
      rw [hfixed] at h
      obtain ⟨r, hr, heq⟩ := Except.map_eq_ok_iff.1 h
      cases heq
      obtain ⟨hfree, hnames, hrenamed⟩ := ih hr hpresent
      refine ⟨by simpa [hfixed] using hfree, hnames, fun y hy => ?_⟩
      obtain hy | ⟨n, hy, hn⟩ := hrenamed y hy
      · exact .inl hy
      · exact .inr ⟨n, List.mem_cons_of_mem x hy, hn⟩
    | some name =>
      rw [hfixed] at h
      by_cases hk : a.space.isKeyword name = true
      · simp [hk] at h
      · simp only [hk, if_false, Bool.false_eq_true] at h
        obtain ⟨space, hclaim, h⟩ := Except.bind_eq_ok_iff.1 h
        have hclaims := claims_give hclaim
        obtain ⟨hfree, hnames, hrenamed⟩ := ih h hpresent
        refine ⟨fun n => ?_, fun y hy => ?_, fun y hy => ?_⟩
        · rw [hfree, hclaims.space_isFree, and_assoc]
          simp [hfixed]
        · have hne : x ≠ y := by
            rintro rfl
            rw [hfixed] at hy
            cases hy
          rw [hnames y hy, hclaims.names, if_neg hne]
        · obtain hy | ⟨n, hy, hn, hne⟩ := hrenamed y hy
          · -- the object itself is renamed only if it was called something else
            unfold give at hy
            split at hy
            · exact .inl hy
            · next hname =>
              obtain hy | hy := List.mem_append.1 hy
              · exact .inl hy
              · obtain rfl := List.mem_singleton.1 hy
                exact .inr ⟨name, List.mem_cons_self, hfixed, hname⟩
          · refine .inr ⟨n, List.mem_cons_of_mem x hy, hn, ?_⟩
            by_cases hxy : x = y
            · subst hxy
              rw [hclaims.names, if_pos rfl, ← hfixed] at hne
              exact absurd hn hne
            · rwa [hclaims.names, if_neg hxy] at hne

/-! ### The second round -/

/-- What the second round does with an object: it has the object claim its name if that is free, and
passes it over otherwise. -/
theorem keep_cons_cases (h : keep a (x :: l) = .ok (a', unnamed)) :
    (∃ name space, a.names[x]? = some name ∧ a.space.isFree name = true ∧
      a.space.claim name x = .ok space ∧ keep { a with space } l = .ok (a', unnamed)) ∨
    ((∀ n, a.names[x]? = some n → a.space.isFree n = false) ∧
      ∃ rest, keep a l = .ok (a', rest) ∧ unnamed = x :: rest) := by
  rw [keep] at h
  cases hcached : a.names[x]?.filter a.space.isFree with
  | some name =>
    simp only [hcached] at h
    obtain ⟨space, hclaim, h⟩ := Except.bind_eq_ok_iff.1 h
    obtain ⟨hname, hfree⟩ := Option.filter_eq_some_iff.1 hcached
    exact .inl ⟨name, space, hname, hfree, hclaim, h⟩
  | none =>
    simp only [hcached] at h
    obtain ⟨⟨a₁, rest⟩, hrest, h⟩ := Except.bind_eq_ok_iff.1 h
    cases h
    exact .inr ⟨fun n hn => by simpa [hn] using hcached, rest, hrest, rfl⟩

/-- **The second round takes the names of earlier linkings**, all of them: each is taken by an
object that has it, unless it was taken before. No object gets another name. -/
theorem isFree_of_keep (h : keep a l = .ok (a', unnamed)) :
    (∀ n, a'.space.isFree n = true ↔ a.space.isFree n = true ∧ ∀ y ∈ l, a.names[y]? ≠ some n) ∧
    a'.names = a.names ∧ a'.renamed = a.renamed := by
  induction l generalizing a unnamed with
  | nil =>
    cases h
    exact ⟨by simp, rfl, rfl⟩
  | cons x l ih =>
    obtain ⟨name, space, hname, -, hclaim, h⟩ | ⟨hno, rest, hrest, rfl⟩ := keep_cons_cases h
    · obtain ⟨hfree, hnames, hrenamed⟩ := ih h
      refine ⟨fun n => ?_, hnames, hrenamed⟩
      rw [hfree, Namespace.isFree_claim hclaim, and_assoc]
      simp [hname]
    · obtain ⟨hfree, hnames, hrenamed⟩ := ih hrest
      refine ⟨fun n => ?_, hnames, hrenamed⟩
      rw [hfree, List.forall_mem_cons]
      -- a name that was free is not that of an object that could not keep it
      refine and_congr_right fun hn => (and_iff_right fun hname => ?_).symm
      rw [hno n hname] at hn
      cases hn

theorem sublist_of_keep (h : keep a l = .ok (a', unnamed)) : unnamed.Sublist l := by
  induction l generalizing a unnamed with
  | nil =>
    cases h
    exact .slnil
  | cons x l ih =>
    obtain ⟨_, _, -, -, -, h⟩ | ⟨-, rest, hrest, rfl⟩ := keep_cons_cases h
    · exact (ih h).cons x
    · exact (ih hrest).cons_cons x

/-- **An object keeps its name** if that is free and no object before it has the same. Otherwise it
is left without one, behind objects that were before it. -/
theorem keep_split (h : keep a (l₁ ++ x :: l₂) = .ok (a', unnamed)) :
    (∃ n, a.names[x]? = some n ∧ a.space.isFree n = true ∧ (∀ y ∈ l₁, a.names[y]? ≠ some n) ∧
      ∀ y ∈ unnamed, y ∈ l₁ ∨ y ∈ l₂) ∨
    ((∀ n, a.names[x]? = some n → a.space.isFree n = true → ∃ y ∈ l₁, a.names[y]? = some n) ∧
      ∃ u₁ u₂, unnamed = u₁ ++ x :: u₂ ∧ (∀ y ∈ u₁, y ∈ l₁) ∧ ∀ y ∈ u₂, y ∈ l₂) := by
  -- along the objects before it, which take the names they keep
  induction l₁ generalizing a unnamed with
  | nil =>
    obtain ⟨name, space, hname, hfree, -, h⟩ | ⟨hno, rest, hrest, rfl⟩ := keep_cons_cases h
    · exact .inl ⟨name, hname, hfree, nofun, fun y hy => .inr ((sublist_of_keep h).subset hy)⟩
    · refine .inr ⟨fun n hn hfree => ?_, [], rest, rfl, nofun, fun y hy => ?_⟩
      · rw [hno n hn] at hfree
        cases hfree
      · exact (sublist_of_keep hrest).subset hy
  | cons z l₁ ih =>
    obtain ⟨name, space, hname, -, hclaim, h⟩ | ⟨hno, rest, hrest, rfl⟩ := keep_cons_cases h
    · obtain ⟨n, hn, hfree, hbefore, hmem⟩ | ⟨hlost, u₁, u₂, hu, hu₁, hu₂⟩ := ih h
      · rw [Namespace.isFree_claim hclaim] at hfree
        refine .inl ⟨n, hn, hfree.1, ?_, fun y hy => (hmem y hy).imp_left (.tail z)⟩
        simpa [hname] using ⟨hfree.2, hbefore⟩
      · refine .inr ⟨fun n hn hfree => ?_, u₁, u₂, hu, fun y hy => .tail z (hu₁ y hy), hu₂⟩
        -- the name is either the one just claimed or still free
        by_cases hne : name = n
        · exact ⟨z, List.mem_cons_self, hne ▸ hname⟩
        · obtain ⟨y, hy, hyn⟩ := hlost n hn ((Namespace.isFree_claim hclaim n).2 ⟨hfree, hne⟩)
          exact ⟨y, .tail z hy, hyn⟩
    · obtain ⟨n, hn, hfree, hbefore, hmem⟩ | ⟨hlost, u₁, u₂, rfl, hu₁, hu₂⟩ := ih hrest
      · refine .inl ⟨n, hn, hfree, List.forall_mem_cons.2 ⟨fun hz => ?_, hbefore⟩, ?_⟩
        · rw [hno n hz] at hfree
          cases hfree
        · exact List.forall_mem_cons.2 ⟨.inl List.mem_cons_self,
            fun y hy => (hmem y hy).imp_left (.tail z)⟩
      · refine .inr ⟨fun n hn hfree => ?_, z :: u₁, u₂, rfl, ?_, hu₂⟩
        · obtain ⟨y, hy, hyn⟩ := hlost n hn hfree
          exact ⟨y, .tail z hy, hyn⟩
        · exact List.forall_mem_cons.2 ⟨List.mem_cons_self, fun y hy => .tail z (hu₁ y hy)⟩

/-! ### The third round -/

/-- What the third round does with an object. -/
theorem freshen_cons (style : NamingStyle) (a : Assignment) (l : List ObjectId) {o : Object}
    (ho : g.find? x = some o) :
    ∃ space, a.space.claim (a.space.suggest style (o.name?.getD "") x) x = .ok space ∧
      freshen g style a (x :: l) = freshen g style
        (({ a with space } : Assignment).rename x (a.space.suggest style (o.name?.getD "") x)) l := by
  obtain ⟨space, hclaim⟩ := claim_of_isFree (x := x)
    (a.space.isFree_suggest style (o.name?.getD "") x)
  refine ⟨space, hclaim, ?_⟩
  simp [freshen, Graph.get_eq_ok_iff.2 ho, hclaim]

/-- The third round gives names to the objects that are left, and to no others. -/
theorem names_of_freshen (h : freshen g style a l = .ok a')
    (hpresent : ∀ x ∈ l, ∃ o, g.find? x = some o) :
    (∀ y, y ∉ l → a'.names[y]? = a.names[y]?) ∧ a'.renamed = a.renamed ++ l := by
  induction l generalizing a with
  | nil =>
    cases h
    exact ⟨fun _ _ => rfl, (List.append_nil _).symm⟩
  | cons x l ih =>
    obtain ⟨o, ho⟩ := hpresent x List.mem_cons_self
    obtain ⟨space, hclaim, heq⟩ := freshen_cons style a l ho
    rw [heq] at h
    obtain ⟨hnames, hrenamed⟩ := ih h fun y hy => hpresent y (List.mem_cons_of_mem x hy)
    refine ⟨fun y hy => ?_, by simp [hrenamed, rename]⟩
    obtain ⟨hne, hy⟩ := not_or.1 (mt List.mem_cons.2 hy)
    rw [hnames y hy, (claims_rename hclaim).names, if_neg (Ne.symm hne)]

/-- **An object that is left gets what is suggested** for the name it was made with, where what was
free is taken by the objects before it. -/
theorem exists_suggest_of_freshen (h : freshen g style a (l₁ ++ x :: l₂) = .ok a')
    (hpresent : ∀ y ∈ l₁ ++ x :: l₂, ∃ o, g.find? y = some o) (hnodup : (l₁ ++ x :: l₂).Nodup) :
    ∃ (o : Object) (space : Namespace), g.find? x = some o ∧
      a'.names[x]? = some (space.suggest style (o.name?.getD "") x) ∧
      ∀ n, space.isFree n = true ↔ a.space.isFree n = true ∧ ∀ y ∈ l₁, a'.names[y]? ≠ some n := by
  induction l₁ generalizing a with
  | nil =>
    obtain ⟨o, ho⟩ := hpresent x List.mem_cons_self
    obtain ⟨space, hclaim, heq⟩ := freshen_cons style a l₂ ho
    rw [List.nil_append] at h hpresent hnodup
    rw [heq] at h
    obtain ⟨hnames, -⟩ := names_of_freshen h fun y hy => hpresent y (List.mem_cons_of_mem x hy)
    refine ⟨o, a.space, ho, ?_, by simp⟩
    rw [hnames x (List.nodup_cons.1 hnodup).1, (claims_rename hclaim).names, if_pos rfl]
  | cons z l₁ ih =>
    obtain ⟨hz, hnodup⟩ := List.nodup_cons.1 hnodup
    have hpresent' := fun y hy => hpresent y (List.mem_cons_of_mem z hy)
    obtain ⟨o, ho⟩ := hpresent z List.mem_cons_self
    obtain ⟨space, hclaim, heq⟩ := freshen_cons style a (l₁ ++ x :: l₂) ho
    rw [List.cons_append, heq] at h
    obtain ⟨o', space', ho', hname, hfree⟩ := ih h hpresent' hnodup
    refine ⟨o', space', ho', hname, fun n => ?_⟩
    -- the name of the first object is not given away again
    have hzname : a'.names[z]? = some (a.space.suggest style (o.name?.getD "") z) := by
      rw [(names_of_freshen h hpresent').1 z hz, (claims_rename hclaim).names, if_pos rfl]
    rw [hfree, List.forall_mem_cons, hzname, (claims_rename hclaim).space_isFree, and_assoc]
    simp

/-! ### All rounds -/

section

variable {stages : Stages StageMain}

/-- A name that nothing takes before the second round: no code, no language, and no object that has
to have it. -/
def Spare (g : Graph) (keywords : Bool) (c : Closure) (n : String) : Prop :=
  (start g keywords ∅ c).space.isFree n = true ∧ ∀ y ∈ c.objects, fixedOf g c.required y ≠ some n

/-- The objects without a fixed name, in order. -/
def unfixed (g : Graph) (c : Closure) (l : List ObjectId) : List ObjectId :=
  l.filter fun y => (fixedOf g c.required y).isNone

theorem mem_unfixed : y ∈ unfixed g c l ↔ y ∈ l ∧ fixedOf g c.required y = none := by
  simp [unfixed]

theorem unfixed_split (hx : fixedOf g c.required x = none) :
    unfixed g c (before ++ x :: after) = unfixed g c before ++ x :: unfixed g c after := by
  rw [unfixed, List.filter_append, List.filter_cons_of_pos (by simp [hx])]
  rfl

/-- **The rounds of a naming**, one after another, and what they leave to each other. -/
structure Rounds (g : Graph) (style : NamingStyle) (keywords : Bool) (names : Names) (c : Closure)
    (a a₁ a₂ : Assignment) (unnamed : List ObjectId) : Prop where
  fix : fix g c.required (start g keywords names c) c.objects = .ok (a₁, unfixed g c c.objects)
  keep : keep a₁ (unfixed g c c.objects) = .ok (a₂, unnamed)
  freshen : freshen g style a₂ unnamed = .ok a
  present : ∀ y ∈ c.objects, ∃ o, g.find? y = some o
  nodup : c.objects.Nodup

/-- A closure is named by the three rounds. -/
theorem exists_rounds (hc : c.Collected g stages) (h : ofClosure g style keywords names c = .ok a) :
    ∃ a₁ a₂ unnamed, Rounds g style keywords names c a a₁ a₂ unnamed := by
  change (Assignment.fix g c.required (start g keywords names c) c.objects >>= _) = _ at h
  obtain ⟨⟨a₁, free⟩, hfix, hrest⟩ := Except.bind_eq_ok_iff.1 h
  obtain ⟨⟨a₂, unnamed⟩, hkeep, hfreshen⟩ := Except.bind_eq_ok_iff.1 hrest
  have hnone : Named g c.required (start g keywords names c) fun _ => False := nofun
  obtain ⟨-, rfl, -⟩ := fix_eq_ok hfix hc.exists_find? hnone
  exact ⟨a₁, a₂, unnamed, hfix, hkeep, hfreshen, hc.exists_find?, hc.nodup⟩

namespace Rounds

variable {a₁ a₂ : Assignment} (h : Rounds g style keywords names c a a₁ a₂ unnamed)

include h

/-- What is free after the first round is what is spare. -/
theorem isFree_iff_spare : a₁.space.isFree n = true ↔ Spare g keywords c n :=
  (isFree_of_fix h.fix h.present).1 n

/-- The first round leaves the names of the other objects. -/
theorem names_fix (hy : fixedOf g c.required y = none) : a₁.names[y]? = names[y]? :=
  (isFree_of_fix h.fix h.present).2.1 y hy

theorem mem_unnamed (hy : y ∈ unnamed) : y ∈ c.objects ∧ fixedOf g c.required y = none :=
  mem_unfixed.1 ((sublist_of_keep h.keep).subset hy)

theorem unnamed_present (y : ObjectId) (hy : y ∈ unnamed) : ∃ o, g.find? y = some o :=
  h.present y (h.mem_unnamed hy).1

/-- What is not left for the third round is called as after the first. -/
theorem names_eq (hy : y ∉ unnamed) : a.names[y]? = a₁.names[y]? := by
  rw [(names_of_freshen h.freshen h.unnamed_present).1 y hy, (isFree_of_keep h.keep).2.1]

/-- The first round renames what has to be called otherwise than it is, and the third whatever is
left for it. -/
theorem mem_renamed (hy : y ∈ a.renamed) :
    (∃ n, y ∈ c.objects ∧ fixedOf g c.required y = some n ∧ names[y]? ≠ some n) ∨ y ∈ unnamed := by
  rw [(names_of_freshen h.freshen h.unnamed_present).2, (isFree_of_keep h.keep).2.2,
    List.mem_append] at hy
  obtain hy | hy := hy
  · obtain hold | hfixed := (isFree_of_fix h.fix h.present).2.2 y hy
    · cases hold
    · exact .inl hfixed
  · exact .inr hy

/-- No object is listed both before and after another. -/
theorem not_mem_of_split (hsplit : c.objects = before ++ x :: after) :
    x ∉ before ∧ x ∉ after ∧ ∀ y ∈ before, y ∉ after := by
  have hnodup : (before ++ x :: after).Nodup := hsplit ▸ h.nodup
  obtain ⟨-, hafter, hdisjoint⟩ := List.nodup_append.1 hnodup
  exact ⟨fun hx => hdisjoint x hx x List.mem_cons_self rfl, (List.nodup_cons.1 hafter).1,
    fun y hy hy' => hdisjoint y hy y (.tail x hy') rfl⟩

/-- What is suggested in the third round is free of spare names that nobody had before, and of those
that objects before it have got. -/
theorem isFree_of_suggest {space : Namespace} {u₁ u₂ : List ObjectId}
    (hsplit : c.objects = before ++ x :: after) (hleft : unnamed = u₁ ++ x :: u₂)
    (hu₁ : ∀ y ∈ u₁, y ∈ unfixed g c before) (hu₂ : ∀ y ∈ u₂, y ∈ unfixed g c after)
    (hspace : ∀ n, space.isFree n = true ↔
      a₂.space.isFree n = true ∧ ∀ y ∈ u₁, a.names[y]? ≠ some n) :
    space.isFree n = true ↔ Spare g keywords c n ∧
      ∀ y ∈ c.objects, fixedOf g c.required y = none →
        names[y]? ≠ some n ∧ (y ∈ before → a.names[y]? ≠ some n) := by
  obtain ⟨hxbefore, -, hdisjoint⟩ := h.not_mem_of_split hsplit
  rw [hspace, (isFree_of_keep h.keep).1, h.isFree_iff_spare, and_assoc]
  refine and_congr_right fun _ => ⟨fun ⟨hold, hnew⟩ y hy hfixed => ?_, fun hboth => ?_⟩
  · have hyold := hold y (mem_unfixed.2 ⟨hy, hfixed⟩)
    refine ⟨h.names_fix hfixed ▸ hyold, fun hybefore => ?_⟩
    by_cases hyu : y ∈ u₁
    · exact hnew y hyu
    · -- an object before it that is not left has kept its name
      have hkept : y ∉ unnamed := by
        rw [hleft, List.mem_append, List.mem_cons, not_or, not_or]
        exact ⟨hyu, fun hyx => hxbefore (hyx ▸ hybefore),
          fun hyu₂ => hdisjoint y hybefore (mem_unfixed.1 (hu₂ y hyu₂)).1⟩
      rwa [h.names_eq hkept]
  · refine ⟨fun y hy => ?_, fun y hy => ?_⟩
    · obtain ⟨hy, hfixed⟩ := mem_unfixed.1 hy
      rw [h.names_fix hfixed]
      exact (hboth y hy hfixed).1
    · obtain ⟨hy, hfixed⟩ := mem_unfixed.1 (hu₁ y hy)
      exact (hboth y (hsplit ▸ List.mem_append_left _ hy) hfixed).2 hy

end Rounds

/-- **What an object without a fixed name gets** out of the three rounds. Either it keeps its name,
which is spare and not that of an object before it; or it cannot, and gets what is suggested where
free is what is spare, was nobody's name before, and has not been given to an object before it. -/
theorem ofClosure_split (hc : c.Collected g stages)
    (h : ofClosure g style keywords names c = .ok a) (hsplit : c.objects = before ++ x :: after)
    (hx : fixedOf g c.required x = none) :
    (∃ n, names[x]? = some n ∧ Spare g keywords c n ∧
      (∀ y ∈ before, fixedOf g c.required y = none → names[y]? ≠ some n) ∧
      a.names[x]? = some n ∧ x ∉ a.renamed) ∨
    ((∀ n, names[x]? = some n → Spare g keywords c n →
        ∃ y ∈ before, fixedOf g c.required y = none ∧ names[y]? = some n) ∧
      ∃ (o : Object) (space : Namespace), g.find? x = some o ∧
        a.names[x]? = some (space.suggest style (o.name?.getD "") x) ∧
        ∀ n, space.isFree n = true ↔ Spare g keywords c n ∧
          ∀ y ∈ c.objects, fixedOf g c.required y = none →
            names[y]? ≠ some n ∧ (y ∈ before → a.names[y]? ≠ some n)) := by
  obtain ⟨a₁, a₂, unnamed, hr⟩ := exists_rounds hc h
  obtain ⟨hxbefore, hxafter, -⟩ := hr.not_mem_of_split hsplit
  have hkeep := hr.keep
  rw [hsplit, unfixed_split hx] at hkeep
  obtain ⟨n, hn, hfree, hbefore, hmem⟩ | ⟨hlost, u₁, u₂, hleft, hu₁, hu₂⟩ := keep_split hkeep
  · -- the third round gives it no other name
    have hkept : x ∉ unnamed := fun hx' => (hmem x hx').elim
      (fun hb => hxbefore (mem_unfixed.1 hb).1) fun ha => hxafter (mem_unfixed.1 ha).1
    refine .inl ⟨n, hr.names_fix hx ▸ hn, hr.isFree_iff_spare.1 hfree, fun y hy hfixed => ?_,
      by rw [hr.names_eq hkept, hn], fun hrenamed => ?_⟩
    · rw [← hr.names_fix hfixed]
      exact hbefore y (mem_unfixed.2 ⟨hy, hfixed⟩)
    · obtain ⟨m, -, hm, -⟩ := (hr.mem_renamed hrenamed).resolve_right hkept
      rw [hx] at hm
      cases hm
  · have hfreshen := hr.freshen
    have hpresent := hr.unnamed_present
    have hnodup := (sublist_of_keep hr.keep).nodup (hr.nodup.filter _)
    rw [hleft] at hfreshen hpresent hnodup
    obtain ⟨o, space, ho, hname, hspace⟩ := exists_suggest_of_freshen hfreshen hpresent hnodup
    refine .inr ⟨fun n hn hspare => ?_, o, space, ho, hname, fun n =>
      hr.isFree_of_suggest hsplit hleft hu₁ hu₂ hspace⟩
    rw [← hr.names_fix hx] at hn
    obtain ⟨y, hy, hyn⟩ := hlost n hn (hr.isFree_iff_spare.2 hspare)
    obtain ⟨hy, hfixed⟩ := mem_unfixed.1 hy
    exact ⟨y, hy, hfixed, hr.names_fix hfixed ▸ hyn⟩

/-- **A spare name is kept** if an object has it: by the first object that does. -/
theorem exists_kept (hc : c.Collected g stages) (h : ofClosure g style keywords names c = .ok a)
    (hspare : Spare g keywords c n) (hx : x ∈ c.objects) (hfixed : fixedOf g c.required x = none)
    (hname : names[x]? = some n) :
    ∃ z ∈ c.objects, fixedOf g c.required z = none ∧ names[z]? = some n ∧ a.names[z]? = some n := by
  have hsome : (c.objects.find? fun y => fixedOf g c.required y = none ∧ names[y]? = some n).isSome :=
    List.find?_isSome.2 ⟨x, hx, decide_eq_true ⟨hfixed, hname⟩⟩
  obtain ⟨z, hz⟩ := Option.isSome_iff_exists.1 hsome
  obtain ⟨hz, before, after, hsplit, hfirst⟩ := List.find?_eq_some_iff_append.1 hz
  obtain ⟨hzfixed, hzname⟩ := of_decide_eq_true hz
  have hmem : z ∈ c.objects := by simp [hsplit]
  obtain ⟨m, hm, -, -, hkept, -⟩ | ⟨hlost, -⟩ := ofClosure_split hc h hsplit hzfixed
  · rw [hzname] at hm
    exact ⟨z, hmem, hzfixed, hzname, Option.some.inj hm ▸ hkept⟩
  · -- it would have lost its name to one before it
    obtain ⟨y, hy, hyfixed, hyname⟩ := hlost n hzname hspare
    have := hfirst y hy
    simp [hyfixed, hyname] at this

/-- **What is renamed has another name than before.** -/
theorem names_ne_of_mem_renamed (hc : c.Collected g stages)
    (h : ofClosure g style keywords names c = .ok a) (hx : x ∈ a.renamed) :
    x ∈ c.objects ∧ a.names[x]? ≠ names[x]? := by
  obtain ⟨a₁, a₂, unnamed, hr⟩ := exists_rounds hc h
  obtain ⟨n, hmem, hn, hne⟩ | hleft := hr.mem_renamed hx
  · -- the first round gives the name that the object must have
    obtain ⟨name, hname, -, hsuits⟩ := (ofClosure_eq_ok hc h).2 x hmem
    rw [hname, hsuits.fixed n hn]
    exact ⟨hmem, hne.symm⟩
  · -- the third round gives names that nobody had
    obtain ⟨hmem, hfixed⟩ := hr.mem_unnamed hleft
    obtain ⟨before, after, hsplit⟩ := List.append_of_mem hmem
    obtain ⟨_, -, -, -, -, hno⟩ | ⟨-, o, space, -, hname, hspace⟩ :=
      ofClosure_split hc h hsplit hfixed
    · exact absurd hx hno
    · have hfree := space.isFree_suggest style (o.name?.getD "") x
      rw [hname]
      exact ⟨hmem, Ne.symm (((hspace _).1 hfree).2 x hmem hfixed).1⟩

end

end Assignment

end ShaderLink
