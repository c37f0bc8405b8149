import ShaderLink.Proofs.Naming.Assignment

/-!
# Naming again

Naming the objects of a closure a second time, with the names of the first time, renames nothing
(`Assignment.ofClosure_again`), and neither does naming those of a closure that asks for less
(`Assignment.ofClosure_within`). In every round each object finds its own name again: whatever is
claimed already is the name of an object that was met before (`Assignment.Unchanged`).
-/

namespace ShaderLink.Assignment

/-- Naming under way that has changed nothing. All objects have names that suit them, and only names
of objects that are done are claimed. -/
structure Unchanged (g : Graph) (required : Names) (objects : List ObjectId) (names : Names)
    (done : ObjectId → Prop) (a : Assignment) : Prop where
  suits : ∀ x ∈ objects, ∃ name, names[x]? = some name ∧ Suits g required a.space x name
  injective : ∀ x ∈ objects, ∀ y ∈ objects, names[x]? = names[y]? → x = y
  claimed : ∀ (n : String) x, a.space.claimed[n]? = some x →
    x ∈ objects ∧ done x ∧ names[x]? = some n
  renamed : a.renamed = []
  names : a.names = names

variable {g : Graph} {required names : Names} {objects l : List ObjectId} {a : Assignment}
  {done done' : ObjectId → Prop} {x : ObjectId} {name : String}

theorem Unchanged.mono (h : Unchanged g required objects names done a)
    (hdone : ∀ x, done x → done' x) : Unchanged g required objects names done' a :=
  { h with claimed := fun n x hx =>
      ⟨(h.claimed n x hx).1, hdone x (h.claimed n x hx).2.1, (h.claimed n x hx).2.2⟩ }

/-- What is claimed under the name of an object is that object. -/
theorem Unchanged.eq_of_claimed (h : Unchanged g required objects names done a) (hx : x ∈ objects)
    (hname : names[x]? = some name) {y : ObjectId} (hy : a.space.claimed[name]? = some y) :
    y = x := by
  obtain ⟨hmem, -, hyname⟩ := h.claimed name y hy
  exact h.injective y hmem x hx (hyname.trans hname.symm)

/-- An object can claim the name it has. -/
theorem Unchanged.claim (h : Unchanged g required objects names done a) (hx : x ∈ objects)
    (hname : names[x]? = some name) : ∃ space, a.space.claim name x = .ok space ∧
      Unchanged g required objects names (fun y => y = x ∨ done y) { a with space } := by
  -- nobody else has claimed the name, because no other object has it
  have hclaim : a.space.claim name x =
      .ok { a.space with claimed := a.space.claimed.insert name x } := by
    refine Namespace.claim_eq_ok_iff.2 ⟨?_, rfl⟩
    cases hc : a.space.claimed[name]? with
    | none => exact .inl rfl
    | some y => exact .inr (congrArg some (h.eq_of_claimed hx hname hc))
  refine ⟨_, hclaim, { names := h.names, renamed := h.renamed, suits := fun y hy => ?_,
                       injective := h.injective, claimed := fun n y hy => ?_ }⟩
  · obtain ⟨n, hn, hs⟩ := h.suits y hy
    exact ⟨n, hn, hs.congr rfl rfl⟩
  · dsimp only at hy
    rw [Std.ExtTreeMap.getElem?_insert] at hy
    split at hy
    · next hn =>
      obtain rfl := Option.some.inj hy
      obtain rfl := Std.LawfulEqOrd.eq_of_compare hn
      exact ⟨hx, .inl rfl, hname⟩
    · obtain ⟨hmem, hdone, hyname⟩ := h.claimed n y hy
      exact ⟨hmem, .inr hdone, hyname⟩

/-- **The first round again**: an object with a fixed name has it. -/
theorem exists_fix_again (h : Unchanged g required objects names done a)
    (hl : ∀ x ∈ l, x ∈ objects) (hpresent : ∀ x ∈ objects, ∃ o, g.find? x = some o) :
    ∃ a', fix g required a l = .ok (a', l.filter fun x => (fixedOf g required x).isNone) ∧
      Unchanged g required objects names
        (fun x => done x ∨ (x ∈ l ∧ fixedOf g required x ≠ none)) a' := by
  induction l generalizing a done with
  | nil => exact ⟨a, rfl, h.mono fun _ hx => .inl hx⟩
  | cons x l ih =>
    have hx := hl x List.mem_cons_self
    have hl := fun y hy => hl y (List.mem_cons_of_mem x hy)
    obtain ⟨o, ho⟩ := hpresent x hx
    obtain ⟨name, hname, hsuits⟩ := h.suits x hx
    rw [fix_cons ho]
    cases hfixed : fixedOf g required x with
    | none =>
      obtain ⟨a', hfix, ha'⟩ := ih h hl
      refine ⟨a', by simp [hfix, hfixed, Functor.map, Except.map], ha'.mono fun y hy => ?_⟩
      exact hy.imp_right fun hy => ⟨List.mem_cons_of_mem x hy.1, hy.2⟩
    | some n =>
      -- the name it has suits it, so it is the fixed one and is not given anew
      obtain rfl := hsuits.fixed n hfixed
      obtain ⟨space, hclaim, hspace⟩ := h.claim hx hname
      obtain ⟨a', hfix, ha'⟩ := ih hspace hl
      have hgive : a.give space x name = { a with space } := by
        rw [give, h.names, if_pos hname]
      refine ⟨a', by simp [hsuits.keyword, hclaim, hgive, hfix, hfixed], ha'.mono fun y hy => ?_⟩
      obtain (rfl | hy) | ⟨hy, hne⟩ := hy
      · exact .inr ⟨List.mem_cons_self, by simp [hfixed]⟩
      · exact .inl hy
      · exact .inr ⟨List.mem_cons_of_mem x hy, hne⟩

/-- **The second round again**: every other object keeps its name. -/
theorem exists_keep_again (h : Unchanged g required objects names done a)
    (hl : ∀ x ∈ l, x ∈ objects ∧ fixedOf g required x = none ∧ ¬ done x) (hnodup : l.Nodup) :
    ∃ a', keep a l = .ok (a', []) ∧ Unchanged g required objects names (fun _ => True) a' := by
  induction l generalizing a done with
  | nil => exact ⟨a, rfl, h.mono fun _ _ => trivial⟩
  | cons x l ih =>
    obtain ⟨hx, hfixed, hdone⟩ := hl x List.mem_cons_self
    obtain ⟨hmem, hnodup⟩ := List.nodup_cons.1 hnodup
    obtain ⟨name, hname, hsuits⟩ := h.suits x hx
    obtain ⟨space, hclaim, hspace⟩ := h.claim hx hname
    -- if its name were claimed, it would be by the object itself, which is not done
    have hfree : a.space.isFree name = true := by
      refine Namespace.isFree_iff.2 ⟨?_, hsuits.reserved hfixed, hsuits.keyword⟩
      cases hc : a.space.claimed[name]? with
      | none => rfl
      | some y =>
        obtain rfl := h.eq_of_claimed hx hname hc
        exact absurd (h.claimed name y hc).2.1 hdone
    have hkept : a.names[x]?.filter a.space.isFree = some name := by
      rw [h.names]
      exact Option.filter_eq_some_iff.2 ⟨hname, hfree⟩
    obtain ⟨a', hkeep, ha'⟩ := ih hspace (fun y hy => by
      obtain ⟨hy', hfixed', hdone'⟩ := hl y (List.mem_cons_of_mem x hy)
      refine ⟨hy', hfixed', not_or.2 ⟨?_, hdone'⟩⟩
      rintro rfl
      exact hmem hy) hnodup
    exact ⟨a', by simpa [keep, hkept, hclaim] using hkeep, ha'⟩

/-- **Names that suit are kept.** If every object has a name of its own that suits it, naming renames
nothing. -/
theorem ofClosure_of_suits {stages : Stages StageMain} {c : Closure} (hc : c.Collected g stages)
    {style : NamingStyle} {keywords : Bool}
    (hsuits : ∀ x ∈ c.objects, ∃ name, names[x]? = some name ∧
      Suits g c.required (start g keywords names c).space x name)
    (hinjective : ∀ x ∈ c.objects, ∀ y ∈ c.objects, names[x]? = names[y]? → x = y) :
    ∃ a, ofClosure g style keywords names c = .ok a ∧ a.names = names ∧ a.renamed = [] := by
  have hpresent : ∀ x ∈ c.objects, ∃ o, g.find? x = some o := fun x hx =>
    hc.present x ((hc.objects x).1 hx).1
  have hstart : Unchanged g c.required c.objects names (fun _ => False)
      (start g keywords names c) :=
    { names := rfl, renamed := rfl, injective := hinjective, suits := hsuits
      claimed := by simp [start] }
  obtain ⟨a₁, hfix, h₁⟩ := exists_fix_again hstart (fun _ hx => hx) hpresent
  -- the first round is done with the objects that have a fixed name, and with no others
  have hfree : ∀ x ∈ c.objects.filter fun x => (fixedOf g c.required x).isNone,
      x ∈ c.objects ∧ fixedOf g c.required x = none ∧
        ¬ (False ∨ (x ∈ c.objects ∧ fixedOf g c.required x ≠ none)) := by
    intro x hx
    obtain ⟨hmem, hnone⟩ := List.mem_filter.1 hx
    have hnone : fixedOf g c.required x = none := by simpa using hnone
    exact ⟨hmem, hnone, by simp [hnone]⟩
  obtain ⟨a₂, hkeep, h₂⟩ := exists_keep_again h₁ hfree (hc.nodup.filter _)
  refine ⟨a₂, ?_, h₂.names, h₂.renamed⟩
  change (fix g c.required (start g keywords names c) c.objects >>= _) = _
  simp [hfix, hkeep, freshen]

/-- A closure that asks for no more than another: its objects are among those of the other, must
have the same names, and leave at least the same names free. -/
structure Within (g g' : Graph) (c c' : Closure) : Prop where
  objects : ∀ x ∈ c'.objects, x ∈ c.objects
  fixed : ∀ x ∈ c'.objects, fixedOf g' c'.required x = fixedOf g c.required x
  reserved : ∀ name ∈ c'.reserved ++ staticNames g' c'.objects,
    name ∈ c.reserved ++ staticNames g c.objects

/-- **Naming what was named before renames nothing**, also when less is asked for. -/
theorem ofClosure_within {g' : Graph} {stages stages' : Stages StageMain} {c c' : Closure}
    (hc : c.Collected g stages) (hc' : c'.Collected g' stages') (hwithin : Within g g' c c')
    {style : NamingStyle} {keywords : Bool} {names₀ : Names}
    (h : ofClosure g style keywords names₀ c = .ok a) :
    ∃ a', ofClosure g' style keywords a.names c' = .ok a' ∧ a'.names = a.names ∧
      a'.renamed = [] := by
  obtain ⟨hfollows, hnamed⟩ := ofClosure_eq_ok hc h
  refine ofClosure_of_suits hc' (fun x hx => ?_) fun x hx y hy =>
    hnamed.injective (hwithin.objects x hx) (hwithin.objects y hy)
  obtain ⟨name, hname, -, hsuits⟩ := hnamed x (hwithin.objects x hx)
  refine ⟨name, hname, ?_⟩
  -- the name suits the object as it did before, since no more names are taken by code
  have hkeyword := hsuits.keyword
  rw [Namespace.isKeyword, hfollows.keywords] at hkeyword
  refine { keyword := hkeyword, fixed := fun n hn => ?_, reserved := fun hn hmem => ?_ }
  · rw [hwithin.fixed x hx] at hn
    exact hsuits.fixed n hn
  · rw [hwithin.fixed x hx] at hn
    refine hsuits.reserved hn ?_
    rw [hfollows.reserved]
    exact hwithin.reserved name hmem

theorem Within.refl (g : Graph) (c : Closure) : Within g g c c :=
  ⟨fun _ hx => hx, fun _ _ => rfl, fun _ hname => hname⟩

/-- **Naming again renames nothing.** -/
theorem ofClosure_again {stages : Stages StageMain} {c : Closure} (hc : c.Collected g stages)
    {style : NamingStyle} {keywords : Bool} {names₀ : Names}
    (h : ofClosure g style keywords names₀ c = .ok a) :
    ∃ a', ofClosure g style keywords a.names c = .ok a' ∧ a'.names = a.names ∧ a'.renamed = [] :=
  ofClosure_within hc hc (.refl g c) h

end ShaderLink.Assignment
