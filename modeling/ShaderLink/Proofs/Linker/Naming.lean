import ShaderLink.Proofs.Linker.Sources
import ShaderLink.Proofs.Naming.Collision
import ShaderLink.Proofs.Naming.Rounds
import ShaderLink.Proofs.Naming.Stem

/-!
# The rule of names

Which names a linking gives is a matter of the graph, the stages and the names of earlier linkings
(`Linker.link_names_ruled`). An object that has to have no particular name keeps the one it has as
long as nothing takes it and no object that is emitted before it has the same. Otherwise it gets the
name it was made with, if that is not taken, or the first number behind the stem of it that is not.
-/

namespace ShaderLink

/-- What is emitted was made under some name. -/
theorem Graph.Emits.name?_eq {g : Graph} {x : ObjectId} {o : Object} (h : g.Emits x)
    (ho : g.find? x = some o) : o.name? = some (o.name?.getD "") := by
  obtain ⟨o', ho', hemitted⟩ := h
  obtain rfl := Option.some.inj (ho.symm.trans ho')
  cases o <;> first | rfl | cases hemitted

namespace Closure

open Assignment (fixedOf Spare)

variable {g : Graph} {stages : Stages StageMain} {c : Closure} {x : ObjectId} {keywords : Bool}
  {names : Names} {n : String}

/-- A name that is withheld from all objects that do not have to have it: code that is linked uses
it for something of its own, or it is a word of the language and these are kept free. -/
def Reserved (g : Graph) (stages : Stages StageMain) (keywords : Bool) (name : String) : Prop :=
  (∃ y o, Needs g stages y ∧ g.find? y = some o ∧ name ∈ o.staticNames) ∨
    (∃ m ∈ stages.toList, name ∈ m.staticNames) ∨
    (keywords = true ∧ Glsl.isReserved name = true)

theorem Collected.fixedOf_eq_none_iff (hc : c.Collected g stages) (hx : x ∈ c.objects) :
    fixedOf g c.required x = none ↔ ∀ n, ¬ FixedName g stages x n := by
  refine ⟨fun hnone n hn => ?_, fun hno => hc.fixedOf_eq_none (hc.mem_objects.1 hx) hno⟩
  rw [(hc.fixedOf_eq_some_iff (hc.mem_objects.1 hx)).2 hn] at hnone
  cases hnone

/-- What is withheld is not free from the start. -/
theorem Collected.isFree_start_iff (hc : c.Collected g stages) :
    (Assignment.start g keywords names c).space.isFree n = true ↔ ¬ Reserved g stages keywords n := by
  have hcode : n ∈ c.reserved ++ Assignment.staticNames g c.objects ↔
      (∃ y o, Needs g stages y ∧ g.find? y = some o ∧ n ∈ o.staticNames) ∨
        ∃ m ∈ stages.toList, n ∈ m.staticNames := by
    refine ⟨fun h => ?_, hc.mem_reserved⟩
    obtain h | h := List.mem_append.1 h
    · rw [hc.reserved] at h
      exact .inr (List.mem_flatMap.1 h)
    · obtain ⟨y, hy, hstatic⟩ := List.mem_flatMap.1 h
      obtain ⟨o, ho⟩ := hc.exists_find? y hy
      rw [ho] at hstatic
      exact .inl ⟨y, o, (hc.mem_objects.1 hy).1, ho, hstatic⟩
  have hword : (Assignment.start g keywords names c).space.isKeyword n = false ↔
      ¬ (keywords = true ∧ Glsl.isReserved n = true) := by
    simp [Namespace.isKeyword, Assignment.start]
  have hclaimed : (Assignment.start g keywords names c).space.claimed[n]? = none := by
    simp [Assignment.start]
  rw [Namespace.isFree_iff, hword, and_iff_right hclaimed, Reserved, ← or_assoc, not_or, ← hcode]
  rfl

theorem Collected.spare_iff (hc : c.Collected g stages) : Spare g keywords c n ↔
    ¬ Reserved g stages keywords n ∧ ∀ y, Defines g stages y → ¬ FixedName g stages y n := by
  rw [Spare, hc.isFree_start_iff]
  refine and_congr_right fun _ => ⟨fun h y hy hn => ?_, fun h y hy hn => ?_⟩
  · exact h y (hc.mem_objects.2 hy) ((hc.fixedOf_eq_some_iff hy).2 hn)
  · have hy := hc.mem_objects.1 hy
    exact h y hy ((hc.fixedOf_eq_some_iff hy).1 hn)

end Closure

namespace Linker

open Closure
open Assignment (fixedOf Spare)

variable {g : Graph} {stages : Stages StageMain} {l l' : Linker} {linked : Linked}
  {keywords : Bool} {names : Names} {before after : List ObjectId} {x : ObjectId} {n : String}

/-- **The names of a linking** are those that its closure is given. -/
theorem naming_of_link (h : (link g stages).run l = .ok linked l') : ∃ c a, c.Collected g stages ∧
    Assignment.ofClosure g l.settings.naming l.settings.reserveKeywords l.names c = .ok a ∧
    l'.names = a.names ∧ linked.objects = c.objects := by
  obtain ⟨c, l₁, hplan, hextends, hlisted, -⟩ := reads_of_link h
  obtain ⟨a, hcollect, ha, rfl⟩ := plan_eq_ok_iff.1 hplan
  refine ⟨c, a, collected_of_collect hcollect, ha, ?_, hlisted⟩
  rw [hextends.sameNames.1, names_foldl_invalidate]

/-- A name that is **taken** for an object once the objects before it have theirs: it is withheld, or
an object has to have it, or an object keeps it, or an object before has been given it. -/
def Taken (g : Graph) (stages : Stages StageMain) (keywords : Bool) (names names' : Names)
    (before : List ObjectId) (n : String) : Prop :=
  Reserved g stages keywords n ∨ (∃ y, Defines g stages y ∧ FixedName g stages y n) ∨
    ∃ y, Defines g stages y ∧ (∀ m, ¬ FixedName g stages y m) ∧ names'[y]? = some n ∧
      (names[y]? = some n ∨ y ∈ before)

/-- **The rule of names** for an object that has to have no particular one. `names` are those of
earlier linkings, `before` are the objects that are emitted before it, and `stemOf` tells what the
stem of a name is. -/
structure Ruled (g : Graph) (stages : Stages StageMain) (keywords : Bool)
    (stemOf : String → String → Prop) (names names' : Names) (before : List ObjectId)
    (x : ObjectId) : Prop where
  kept : ∀ n, names[x]? = some n → (names'[x]? = some n ↔ ¬ Reserved g stages keywords n ∧
    (∀ y, Defines g stages y → ¬ FixedName g stages y n) ∧
    ∀ y ∈ before, (∀ m, ¬ FixedName g stages y m) → names[y]? ≠ some n)
  fresh : (∀ n, names[x]? = some n → names'[x]? ≠ some n) →
    ∃ o base, g.find? x = some o ∧ o.name? = some base ∧
      ((¬ Taken g stages keywords names names' before base ∧ names'[x]? = some base) ∨
        (Taken g stages keywords names names' before base ∧ ∃ stem k, stemOf base stem ∧ 1 ≤ k ∧
          ¬ Taken g stages keywords names names' before (Namespace.numbered stem k) ∧
          (∀ j, 1 ≤ j → j < k →
            Taken g stages keywords names names' before (Namespace.numbered stem j)) ∧
          names'[x]? = some (Namespace.numbered stem k)))

/-- What is free when an object is given a name is what is not taken for it. -/
theorem not_taken_iff {c : Closure} {a : Assignment} {style : NamingStyle}
    (hc : c.Collected g stages) (ha : Assignment.ofClosure g style keywords names c = .ok a) :
    ¬ Taken g stages keywords names a.names before n ↔ Spare g keywords c n ∧
      ∀ y ∈ c.objects, fixedOf g c.required y = none →
        names[y]? ≠ some n ∧ (y ∈ before → a.names[y]? ≠ some n) := by
  rw [Taken, ← or_assoc, not_or]
  constructor
  · rintro ⟨hstart, hgiven⟩
    have hspare : Spare g keywords c n := by
      rw [hc.spare_iff]
      exact ⟨fun h => hstart (.inl h), fun y hy hn => hstart (.inr ⟨y, hy, hn⟩)⟩
    refine ⟨hspare, fun y hy hfixed => ⟨fun hname => ?_, fun hbefore hname => ?_⟩⟩
    · -- were it the name of an object before, the first such object would keep it
      obtain ⟨z, hz, hzfixed, hold, hnew⟩ := Assignment.exists_kept hc ha hspare hy hfixed hname
      exact hgiven ⟨z, hc.mem_objects.1 hz, (hc.fixedOf_eq_none_iff hz).1 hzfixed, hnew, .inl hold⟩
    · exact hgiven ⟨y, hc.mem_objects.1 hy, (hc.fixedOf_eq_none_iff hy).1 hfixed, hname,
        .inr hbefore⟩
  · rintro ⟨hspare, hnobody⟩
    obtain ⟨hreserved, hfixed⟩ := hc.spare_iff.1 hspare
    refine ⟨not_or.2 ⟨hreserved, fun ⟨y, hy, hn⟩ => hfixed y hy hn⟩, ?_⟩
    rintro ⟨y, hy, hno, hname, hold | hbefore⟩
    · exact (hnobody y (hc.mem_objects.2 hy) (hc.fixedOf_eq_none hy hno)).1 hold
    · exact (hnobody y (hc.mem_objects.2 hy) (hc.fixedOf_eq_none hy hno)).2 hbefore hname

/-- **Names move only when they must.** In pretty style each emitted object that has to have no
particular name gets one by the rule, whatever was remembered. -/
theorem link_names_ruled (h : (link g stages).run l = .ok linked l')
    (hpretty : l.settings.naming = .pretty) (hsplit : linked.objects = before ++ x :: after)
    (hx : ∀ n, ¬ FixedName g stages x n) :
    Ruled g stages l.settings.reserveKeywords (Namespace.StemBy (· ≠ "")) l.names l'.names
      before x := by
  obtain ⟨c, a, hc, ha, hnames, hobjects⟩ := naming_of_link h
  rw [hpretty] at ha
  rw [hobjects] at hsplit
  have hmem : x ∈ c.objects := by simp [hsplit]
  have hbefore : ∀ y ∈ before, y ∈ c.objects := fun y hy => hsplit ▸ List.mem_append_left _ hy
  rw [hnames]
  -- what can be kept, as the rounds have it and as the rule has it
  have hkeeps : ∀ n, (Spare g l.settings.reserveKeywords c n ∧
      ∀ y ∈ before, fixedOf g c.required y = none → l.names[y]? ≠ some n) ↔
      ¬ Reserved g stages l.settings.reserveKeywords n ∧
      (∀ y, Defines g stages y → ¬ FixedName g stages y n) ∧
      ∀ y ∈ before, (∀ m, ¬ FixedName g stages y m) → l.names[y]? ≠ some n := by
    intro n
    rw [hc.spare_iff, and_assoc]
    refine and_congr_right fun _ => and_congr_right fun _ => forall₂_congr fun y hy => ?_
    rw [hc.fixedOf_eq_none_iff (hbefore y hy)]
  obtain ⟨m, hm, hspare, hfirst, hkept, -⟩ | ⟨hlost, o, space, ho, hname, hspace⟩ :=
    Assignment.ofClosure_split hc ha hsplit ((hc.fixedOf_eq_none_iff hmem).2 hx)
  · refine { kept := fun n hn => ?_, fresh := fun hno => absurd hkept (hno m hm) }
    rw [hm] at hn
    obtain rfl := Option.some.inj hn
    exact iff_of_true hkept ((hkeeps m).1 ⟨hspare, hfirst⟩)
  · have hfree : ∀ n, space.isFree n = true ↔
        ¬ Taken g stages l.settings.reserveKeywords l.names a.names before n := fun n => by
      rw [hspace, not_taken_iff hc ha]
    refine { kept := fun n hn => iff_of_false (fun hkept => ?_) fun hcan => ?_,
             fresh := fun _ => ?_ }
    · -- what it gets is free, which its old name is not
      rw [hname] at hkept
      have hsuggested := space.isFree_suggest .pretty (o.name?.getD "") x
      rw [Option.some.inj hkept, hspace] at hsuggested
      exact (hsuggested.2 x hmem ((hc.fixedOf_eq_none_iff hmem).2 hx)).1 hn
    · obtain ⟨hspare, hfirst⟩ := (hkeeps n).2 hcan
      obtain ⟨y, hy, hyfixed, hyn⟩ := hlost n hn hspare
      exact hfirst y hy hyfixed hyn
    · refine ⟨o, _, ho, (hc.mem_objects.1 hmem).2.name?_eq ho, ?_⟩
      obtain ⟨hown, heq⟩ | ⟨hown, stem, k, hstem, hk, heq, hless⟩ :=
        space.suggest_pretty (o.name?.getD "") x
      · exact .inl ⟨(hfree _).1 hown, heq ▸ hname⟩
      · have htaken : ∀ n, space.isFree n = false →
            Taken g stages l.settings.reserveKeywords l.names a.names before n := fun n hn =>
          by_contra fun hno => by simp [(hfree n).2 hno] at hn
        refine .inr ⟨htaken _ hown, stem, k, hstem, hk, (hfree _).1 ?_, fun j hj hlt =>
          htaken _ (hless j hj hlt), heq ▸ hname⟩
        exact heq ▸ space.isFree_suggest .pretty (o.name?.getD "") x

/-! ### Names without a stem -/

/-- A vertex stage that is there for its roots alone: it has no main code, and nothing is required
under a name. -/
def rootStages (roots : List ObjectId) : Stages StageMain :=
  ⟨some { template := [], staticNames := [], outputs := []
          attachments := roots.map fun x => ⟨"root", x, none⟩ }, none⟩

/-- Where all objects may be called anything, none of them has to have a name in such a stage. -/
theorem not_fixedName_rootStages {roots : List ObjectId}
    (hall : g.ids.all (fun x => (g.find? x).all (·.anonymous)) = true) :
    ¬ FixedName g (rootStages roots) x n := by
  rintro (⟨a, ha, -, hrequired⟩ | ⟨o, ho, hnamed, -⟩)
  · simp only [rootStages, Stages.toList, Option.toList, List.flatMap_cons,
      List.flatMap_nil, List.append_nil, List.mem_map] at ha
    obtain ⟨y, -, rfl⟩ := ha
    cases hrequired
  · have hanonymous := List.all_eq_true.1 hall x (Graph.mem_ids_of_find? ho)
    rw [ho] at hanonymous
    exact Bool.noConfusion (hnamed.symm.trans hanonymous)

/-- A session with two uniforms that were made under a name that is an underscore and a digit. -/
def underscoreSession : Session :=
  Session.empty.edited 0 [.valued "_2" (.bool true), .valued "_2" (.bool false)]

/-- Linking both, the second one gets its name behind all of the name it was made with. -/
theorem link_underscores : ∃ linked l',
    (link (underscoreSession.graphs 0) (rootStages [⟨1⟩, ⟨2⟩])).run (new .default) =
      .ok linked l' ∧
    linked.objects = [⟨1⟩] ++ ⟨2⟩ :: [] ∧ l'.names[(⟨2⟩ : ObjectId)]? = some "_2_1" ∧
    ∀ n, ¬ FixedName (underscoreSession.graphs 0) (rootStages [⟨1⟩, ⟨2⟩]) ⟨2⟩ n := by
  have hseen : observed? (link (underscoreSession.graphs 0) (rootStages [⟨1⟩, ⟨2⟩]))
      (new .default) (fun linked l' => (linked.objects, l'.names[(⟨2⟩ : ObjectId)]?)) =
      some ([⟨1⟩, ⟨2⟩], some "_2_1") := by decide +kernel
  obtain ⟨linked, l', hrun, hview⟩ := exists_run_of_observed? hseen
  obtain ⟨hobjects, hname⟩ := Prod.mk.inj hview
  exact ⟨linked, l', hrun, hobjects, hname, fun n => not_fixedName_rootStages (by decide)⟩

/-- The rule holds of it. -/
theorem link_names_ruled_underscores : ∃ linked l',
    (link (underscoreSession.graphs 0) (rootStages [⟨1⟩, ⟨2⟩])).run (new .default) =
      .ok linked l' ∧
    linked.objects = [⟨1⟩] ++ ⟨2⟩ :: [] ∧
    (∀ n, ¬ FixedName (underscoreSession.graphs 0) (rootStages [⟨1⟩, ⟨2⟩]) ⟨2⟩ n) ∧
    Ruled (underscoreSession.graphs 0) (rootStages [⟨1⟩, ⟨2⟩]) true (Namespace.StemBy (· ≠ ""))
      ∅ l'.names [⟨1⟩] ⟨2⟩ := by
  obtain ⟨linked, l', hrun, hsplit, -, hno⟩ := link_underscores
  exact ⟨linked, l', hrun, hsplit, hno, link_names_ruled hrun rfl hsplit hno⟩

/-- **Stems are not empty**: if what stands before the number were the stem in any case, the rule
would not hold. -/
theorem stem_not_empty : ∃ linked l',
    (link (underscoreSession.graphs 0) (rootStages [⟨1⟩, ⟨2⟩])).run (new .default) =
      .ok linked l' ∧
    linked.objects = [⟨1⟩] ++ ⟨2⟩ :: [] ∧
    (∀ n, ¬ FixedName (underscoreSession.graphs 0) (rootStages [⟨1⟩, ⟨2⟩]) ⟨2⟩ n) ∧
    ¬ Ruled (underscoreSession.graphs 0) (rootStages [⟨1⟩, ⟨2⟩]) true
      (Namespace.StemBy fun _ => True) ∅ l'.names [⟨1⟩] ⟨2⟩ := by
  obtain ⟨linked, l', hrun, hsplit, hname, hno⟩ := link_underscores
  refine ⟨linked, l', hrun, hsplit, hno, fun hruled => ?_⟩
  have hbase : Namespace.EndsInNumber "_2" "" :=
    ⟨['2'], by decide, List.forall_mem_singleton.2 (by decide), by decide⟩
  have hgiven : Namespace.EndsInNumber "_2_1" "_2" :=
    ⟨['1'], by decide, List.forall_mem_singleton.2 (by decide), by decide⟩
  have hobject : (underscoreSession.graphs 0).find? ⟨2⟩ =
      some (.var (.ofValue "_2" (.bool false))) := by decide
  obtain ⟨o, base, ho, hown, hcase⟩ := hruled.fresh (by simp)
  rw [hobject] at ho
  obtain rfl := Option.some.inj ho
  obtain rfl : "_2" = base := Option.some.inj hown
  rw [hname] at hcase
  obtain ⟨-, hbad⟩ | ⟨-, stem, k, hstem, -, -, -, hbad⟩ := hcase
  · exact absurd (Option.some.inj hbad) (by decide)
  · -- the stem would be empty, and a name behind it has only one underscore
    obtain ⟨hstem, -⟩ | ⟨-, hnone⟩ := hstem
    · obtain rfl := hbase.unique hstem
      have hempty := Namespace.endsInNumber_numbered "" k
      rw [← Option.some.inj hbad] at hempty
      exact absurd (hgiven.unique hempty) (by decide)
    · exact hnone "" hbase trivial

end Linker

end ShaderLink
