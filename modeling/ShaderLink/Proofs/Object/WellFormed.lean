import Mathlib.Data.List.Nodup
import Mathlib.Data.List.Dedup
import Mathlib.Data.List.Perm.Basic
import ShaderLink.Object
import ShaderLink.Proofs.LastGiven
import ShaderLink.Proofs.Outcome

/-!
# Well-formed objects

Whatever is made from code and edited afterwards keeps two promises (`Object.WellFormed`):

* the placeholders of a function are those of its template, its own name aside, and only they have
  objects bound to them. A template lists each of its placeholders (`Template.mem_placeholders_iff`)
  once (`Template.nodup_placeholders`), in the order in which they first appear
  (`Template.pairwise_placeholders`);
* a constant has a scalar type, since only scalars have literals that a declaration can give.

From the first follows how the references of a function change when something is bound, unbound or
lost by a replacement: the bound objects are the values of the bindings, each as often as it is
bound (`Snippet.boundObjects_perm`).
-/

namespace ShaderLink

/-! ### Bindings -/

section Bindings

variable {m : Std.ExtTreeMap String ObjectId}

theorem nodup_toList : m.toList.Nodup :=
  Std.ExtTreeMap.distinct_keys_toList.imp fun h e => h (by simp [e])

/-- Two maps with the same pairs, some of them listed apart. -/
theorem toList_perm_of_mem {l : List (String × ObjectId)} (hl : l.Nodup)
    (h : ∀ p, p ∈ m.toList ↔ p ∈ l) : m.toList.Perm l :=
  (List.perm_ext_iff_of_nodup nodup_toList hl).2 h

theorem toList_insert_perm {key : String} {x : ObjectId} (h : m[key]? = none) :
    (m.insert key x).toList.Perm ((key, x) :: m.toList) := by
  refine toList_perm_of_mem (List.nodup_cons.2 ⟨?_, nodup_toList⟩) ?_
  · simp [Std.ExtTreeMap.mem_toList_iff_getElem?_eq_some, h]
  · rintro ⟨k, y⟩
    simp only [Std.ExtTreeMap.mem_toList_iff_getElem?_eq_some, List.mem_cons, Prod.mk.injEq,
      Std.ExtTreeMap.getElem?_insert]
    by_cases hk : key = k
    · subst hk
      simp [h, eq_comm]
    · simp [hk, Ne.symm hk]

theorem toList_erase_perm {key : String} {x : ObjectId} (h : m[key]? = some x) :
    m.toList.Perm ((key, x) :: (m.erase key).toList) := by
  have hback : (m.erase key).insert key x = m := by
    refine Std.ExtTreeMap.ext_getElem? fun k => ?_
    rw [Std.ExtTreeMap.getElem?_insert, Std.ExtTreeMap.getElem?_erase]
    by_cases hk : key = k
    · subst hk
      simp [h]
    · simp [hk]
  have hinsert := toList_insert_perm (m := m.erase key) (x := x) Std.ExtTreeMap.getElem?_erase_self
  rwa [hback] at hinsert

/-- Every pair has a key that passes a test or one that does not. -/
theorem toList_filter_perm (p q : String → Bool) (hq : ∀ k, q k = !p k) :
    (m.toList.map (·.2)).Perm ((m.filter fun k _ => p k).toList.map (·.2) ++
      (m.filter fun k _ => q k).toList.map (·.2)) := by
  simp only [Std.ExtTreeMap.toList_filter, ← List.map_append, hq]
  exact (List.filter_append_perm (fun pair : String × ObjectId => p pair.1) m.toList).symm.map _

/-- The values found under some keys are all values, if nothing has another key. -/
theorem filterMap_getElem?_perm {keys : List String} (hk : keys.Nodup)
    (h : ∀ k, m.contains k = true → k ∈ keys) :
    (keys.filterMap (m[·]?)).Perm (m.toList.map (·.2)) := by
  -- the pairs differ by their keys, so it is enough to compare which pairs there are
  have hpairs : (keys.filterMap fun k => (m[k]?).map (k, ·)).Perm m.toList := by
    refine (List.perm_ext_iff_of_nodup (hk.filterMap ?_) nodup_toList).2 ?_
    · intro a b p ha hb
      simp only [Option.mem_def, Option.map_eq_some_iff] at ha hb
      obtain ⟨x, -, rfl⟩ := ha
      obtain ⟨y, -, hy⟩ := hb
      exact (congrArg Prod.fst hy).symm
    · rintro ⟨k, x⟩
      simp only [List.mem_filterMap, Option.map_eq_some_iff, Prod.mk.injEq,
        Std.ExtTreeMap.mem_toList_iff_getElem?_eq_some]
      constructor
      · rintro ⟨_, -, _, hx, rfl, rfl⟩
        exact hx
      · intro hx
        have hmem : m.contains k = true := by
          rw [Std.ExtTreeMap.contains_eq_isSome_getElem?, hx]
          rfl
        exact ⟨k, h k hmem, x, hx, rfl, rfl⟩
  have hvalues : keys.filterMap (m[·]?) =
      (keys.filterMap fun k => (m[k]?).map (k, ·)).map (·.2) := by
    rw [List.map_filterMap]
    refine List.filterMap_congr fun k _ => ?_
    cases m[k]? <;> rfl
  rw [hvalues]
  exact hpairs.map _

end Bindings

/-! ### Placeholders -/

namespace Template

variable {t : Template} {p : String}

theorem mem_placeholders_iff : p ∈ t.placeholders ↔ .placeholder p ∈ t := by
  rw [placeholders, List.mem_eraseDups, List.mem_filterMap]
  constructor
  · rintro ⟨run | name, hpiece, hname⟩
    · cases hname
    · cases hname
      exact hpiece
  · exact fun h => ⟨_, h, rfl⟩

theorem nodup_placeholders (t : Template) : t.placeholders.Nodup := nodup_eraseDups _

theorem placeholders_concat_text (t : Template) (run : String) :
    placeholders (t ++ [.text run]) = t.placeholders := by
  simp [placeholders]

/-- One more placeholder is listed at the end if it is not there yet. -/
theorem placeholders_concat (t : Template) (name : String) :
    placeholders (t ++ [.placeholder name]) =
      if .placeholder name ∈ t then t.placeholders else t.placeholders ++ [name] := by
  simp only [← mem_placeholders_iff]
  simp only [placeholders, List.filterMap_append, List.mem_eraseDups]
  exact eraseDups_concat _ name

/-- **Placeholders are listed in the order in which they first appear.** -/
theorem pairwise_placeholders (t : Template) :
    t.placeholders.Pairwise fun p q => t.idxOf (.placeholder p) < t.idxOf (.placeholder q) := by
  induction t using List.reverseRecOn with
  | nil => exact .nil
  | append_singleton t piece ih =>
    -- what is there already first appears where it did
    have hfront : (placeholders t).Pairwise fun p q =>
        (t ++ [piece]).idxOf (.placeholder p) < (t ++ [piece]).idxOf (.placeholder q) := by
      refine ih.imp_of_mem fun {p q} hp hq h => ?_
      rwa [List.idxOf_append_of_mem (mem_placeholders_iff.1 hp),
        List.idxOf_append_of_mem (mem_placeholders_iff.1 hq)]
    cases piece with
    | text run => rwa [placeholders_concat_text]
    | placeholder name =>
      rw [placeholders_concat]
      split
      · exact hfront
      · next hnew =>
        refine List.pairwise_append.2 ⟨hfront, List.pairwise_singleton _ _, fun p hp q hq => ?_⟩
        obtain rfl := List.mem_singleton.1 hq
        have hp := mem_placeholders_iff.1 hp
        rw [List.idxOf_append_of_mem hp, List.idxOf_append_of_notMem hnew]
        exact Nat.lt_of_lt_of_le (List.idxOf_lt_length_of_mem hp) (Nat.le_add_right _ _)

end Template

/-! ### Functions -/

namespace Snippet

/-- A function whose placeholders are those of its template, with only them bound. -/
structure WellFormed (s : Snippet) : Prop where
  placeholders_eq : s.placeholders = s.template.placeholders.filter (!s.isOwnName ·)
  bound : ∀ p, s.bindings.contains p = true → p ∈ s.placeholders

variable {s : Snippet}

theorem WellFormed.nodup (h : s.WellFormed) : s.placeholders.Nodup := by
  rw [h.placeholders_eq]
  exact s.template.nodup_placeholders.filter _

/-- The bound objects are the values of the bindings. -/
theorem boundObjects_perm (h : s.WellFormed) :
    s.boundObjects.Perm (s.bindings.toList.map (·.2)) :=
  filterMap_getElem?_perm h.nodup h.bound

/-- What a placeholder of the template is replaced with is bound to the function. -/
theorem mem_boundObjects (h : s.WellFormed) {p : String} {x : ObjectId}
    (hx : s.bindings[p]? = some x) : x ∈ s.boundObjects := by
  have hbound : s.bindings.contains p = true := by
    simp [Std.ExtTreeMap.contains_eq_isSome_getElem?, hx]
  exact List.mem_filterMap.2 ⟨p, h.bound p hbound, hx⟩

theorem wellFormed_read_empty (s : Snippet) (code : String) (hb : s.bindings = ∅) :
    (s.read code).WellFormed where
  placeholders_eq := rfl
  bound := by simp [read, hb]

/-- The function of dedented code and its signature, with nothing bound to its placeholders. -/
def ofSignature (code : String) (signature : Signature) : Snippet :=
  read { code, signature, template := [], placeholders := [], staticNames := [], bindings := ∅
         requires := [], replacements := [] } code

/-- **A function is made** of dedented code that has a signature. -/
theorem ofCode_eq_ok_iff {code : String} : ofCode code = .ok s ↔ ∃ dedented signature,
    Text.dedent code.toList = some dedented ∧
      Signature.parse (String.ofList dedented) = .ok signature ∧
      s = ofSignature (String.ofList dedented) signature := by
  unfold ofCode
  cases Text.dedent code.toList with
  | none => simp
  | some dedented =>
    cases hparse : Signature.parse (String.ofList dedented) with
    | error failure => simp [hparse]
    | ok signature => simp [hparse, ofSignature, eq_comm]

theorem wellFormed_ofCode {code : String} (h : ofCode code = .ok s) (requires : List ObjectId) :
    ({ s with requires } : Snippet).WellFormed := by
  obtain ⟨dedented, signature, -, -, rfl⟩ := ofCode_eq_ok_iff.1 h
  exact { wellFormed_read_empty _ _ rfl with }

/-- Binding adds the object to what the function refers to. -/
theorem bind_eq_some {p : String} {x : ObjectId} {s' : Snippet}
    (h : s.bind p x = .ok (some s')) :
    s' = { s with bindings := s.bindings.insert p x } ∧ p ∈ s.placeholders ∧
      s.bindings[p]? = none := by
  unfold bind at h
  by_cases hp : p ∈ s.placeholders
  · cases hb : s.bindings[p]? with
    | none =>
      simp only [hp, hb, if_true] at h
      cases h
      exact ⟨rfl, hp, rfl⟩
    | some y =>
      by_cases hy : y = x <;>
        simp [hp, hb, hy, pure, Except.pure, throw, throwThe, MonadExceptOf.throw] at h
  · simp [hp, Bind.bind, Except.bind, throw, throwThe, MonadExceptOf.throw] at h

theorem WellFormed.insert (h : s.WellFormed) {p : String} {x : ObjectId} (hp : p ∈ s.placeholders) :
    ({ s with bindings := s.bindings.insert p x } : Snippet).WellFormed where
  placeholders_eq := h.placeholders_eq
  bound := fun q hq => by
    rw [Std.ExtTreeMap.contains_insert] at hq
    by_cases hpq : p = q
    · exact hpq ▸ hp
    · exact h.bound q (by simpa [hpq] using hq)

theorem WellFormed.unbind (h : s.WellFormed) (p : String) : (s.unbind p).WellFormed where
  placeholders_eq := h.placeholders_eq
  bound := fun q hq => by
    simp only [Snippet.unbind, Std.ExtTreeMap.contains_erase, Bool.and_eq_true] at hq
    exact h.bound q hq.2

theorem boundObjects_insert_perm (h : s.WellFormed) {p : String} {x : ObjectId}
    (hp : p ∈ s.placeholders) (hx : s.bindings[p]? = none) :
    ({ s with bindings := s.bindings.insert p x } : Snippet).boundObjects.Perm
      (x :: s.boundObjects) := by
  refine (boundObjects_perm (h.insert hp)).trans ?_
  refine ((toList_insert_perm hx).map _).trans ?_
  exact (boundObjects_perm h).symm.cons x

theorem boundObjects_unbind_perm (h : s.WellFormed) {p : String} {x : ObjectId}
    (hx : s.bindings[p]? = some x) :
    s.boundObjects.Perm (x :: (s.unbind p).boundObjects) := by
  refine (boundObjects_perm h).trans ?_
  refine ((toList_erase_perm hx).map _).trans ?_
  exact (boundObjects_perm (h.unbind p)).symm.cons x

/-- A replacement splits the bindings into those whose placeholder is still there and the
objects that are lost. -/
theorem replace_eq_some {find put : String} {s' : Snippet} {lost : List ObjectId}
    (h : s.replace find put = some (s', lost)) :
    s'.WellFormed ∧ s'.signature = s.signature ∧
      (s.bindings.toList.map (·.2)).Perm (s'.bindings.toList.map (·.2) ++ lost) := by
  unfold replace at h
  split at h
  · cases h
  · simp only [Option.some.injEq, Prod.mk.injEq] at h
    obtain ⟨rfl, rfl⟩ := h
    refine ⟨⟨rfl, fun p hp => ?_⟩, rfl, ?_⟩
    · -- only bindings of placeholders that are still there are kept
      rw [Std.ExtTreeMap.contains_eq_isSome_getElem?, Std.ExtTreeMap.getElem?_filter'] at hp
      obtain ⟨x, hx⟩ := Option.isSome_iff_exists.1 hp
      simpa using (Option.filter_eq_some_iff.1 hx).2
    · exact toList_filter_perm _ _ fun k => by simp

theorem boundObjects_replace_perm (h : s.WellFormed) {find put : String} {s' : Snippet}
    {lost : List ObjectId} (hr : s.replace find put = some (s', lost)) :
    s.boundObjects.Perm (s'.boundObjects ++ lost) := by
  obtain ⟨hwf, -, hperm⟩ := replace_eq_some hr
  exact (boundObjects_perm h).trans (hperm.trans ((boundObjects_perm hwf).symm.append_right lost))

end Snippet

/-! ### Variables -/

/-- The types whose values a declaration can write. -/
def literalTypes : List String := ["float", "int", "bool"]

theorem mem_literalTypes_of_readLiteral? {type word : String} {value : Value}
    (h : Declaration.readLiteral? type word = some value) : type ∈ literalTypes := by
  unfold Declaration.readLiteral? at h
  split at h
  · simp [literalTypes, *]
  · split at h
    · simp [literalTypes, *]
    · split at h
      · simp [literalTypes, *]
      · cases h

/-- **What is declared by words**: something other than a constant without a value, or something with
the value that the last word writes. -/
theorem Declaration.ofWords_cases {keyword type name : String} {literal : Option String}
    {d : Declaration} (h : ofWords keyword type name literal = .ok d) :
    ∃ q, Qualifier.ofKeyword? keyword = some q ∧ Glsl.isType type = true ∧
      Glsl.isName name.toList = true ∧
      (literal = none ∧ q ≠ .const ∧ d = { qualifier := q, type, name, value := none } ∨
        ∃ word value, literal = some word ∧ readLiteral? type word = some value ∧
          d = { qualifier := q, type, name, value := some value }) := by
  unfold ofWords at h
  split at h
  · next q hq =>
    by_cases ht : Glsl.isType type = true
    · by_cases hn : Glsl.isName name.toList = true
      · refine ⟨q, hq, ht, hn, ?_⟩
        cases literal with
        | none =>
          by_cases hc : q = .const
          · simp [ht, hn, hc] at h
          · simp only [ht, hn, hc, if_true, if_false, Except.pure_eq, Except.ok.injEq] at h
            exact .inl ⟨rfl, hc, h.symm⟩
        | some word =>
          cases hl : readLiteral? type word with
          | none => simp [ht, hn, hl] at h
          | some value =>
            simp only [ht, hn, hl, if_true, Except.pure_eq, Except.ok.injEq] at h
            exact .inr ⟨word, value, rfl, hl, h.symm⟩
      · simp [ht, hn] at h
    · simp [ht] at h
  · simp at h

theorem Declaration.type_of_ofWords {q type name : String} {literal : Option String}
    {d : Declaration} (h : ofWords q type name literal = .ok d) (hq : d.qualifier = .const) :
    d.type ∈ literalTypes := by
  obtain ⟨q', -, -, -, ⟨-, hne, rfl⟩ | ⟨word, value, -, hread, rfl⟩⟩ := ofWords_cases h
  · exact absurd hq hne
  · exact mem_literalTypes_of_readLiteral? hread

/-- A declared constant has a type whose values have words. -/
theorem Declaration.type_of_const {text : String} {d : Declaration} (h : parse text = .ok d)
    (hq : d.qualifier = .const) : d.type ∈ literalTypes := by
  unfold parse at h
  split at h
  · next q type name _ => exact type_of_ofWords h hq
  · next type name literal _ => exact type_of_ofWords h hq
  · cases h

/-- The two zeros, one as a number of each sign. -/
def Value.OppositeZeros : Value → Value → Prop
  | float (.number n r), float (.number m s) => r.val = 0 ∧ s.val = 0 ∧ n ≠ m
  | _, _ => False

theorem Value.not_oppositeZeros {a b : Value} (h : ∀ x, b ≠ .float x) : ¬ a.OppositeZeros b := by
  intro hzeros
  cases b with
  | float x => exact h x rfl
  | _ => cases a with
    | float x => cases x <;> exact hzeros
    | _ => exact hzeros

/-- Scalars that are the same as numbers are the same, the zeros aside. -/
theorem Value.eq_or_oppositeZeros {a b : Value} (h : a.same b = true) (hb : b.type ∈ literalTypes) :
    a = b ∨ a.OppositeZeros b := by
  cases b with
  | composite kind components =>
    -- no composite has a scalar type
    cases kind <;> simp [Value.type, Composite.type, literalTypes] at hb
  | float y =>
    cases a with
    | float x =>
      cases x <;> cases y <;> simp [same, Single.same] at h
      obtain ⟨rfl, rfl | hzero⟩ := h
      · exact Or.inl rfl
      · next n r m =>
        by_cases hnm : n = m
        · exact Or.inl (by rw [hnm])
        · have hval := congrArg Fin.val hzero
          exact Or.inr ⟨by simpa using hval, by simpa using hval, hnm⟩
    | _ => simp [same] at h
  | _ => cases a <;> simp_all [same]

namespace Variable

/-- A variable that has a type whose values have words if it is constant. -/
def WellFormed (v : Variable) : Prop :=
  v.qualifier = some .const → ∃ t ∈ literalTypes, v.type = some t

variable {v w : Variable} {value : Value} {changed : Bool}

theorem checkType_eq_ok_iff : v.checkType value = .ok () ↔ v.type = some value.type := by
  unfold checkType
  split <;> simp [*]

theorem ne_const_of_value (value : Value) : value.qualifier ≠ .const := by
  cases value <;> simp [Value.qualifier]

/-- **Assigning a value.** A constant has to be given one of its type, and its definition changes
unless the value is the same as before. Any other variable then has the qualifier and the type of
the value, and its definition changes unless it had them already. -/
theorem setValue_cases (h : v.setValue value = .ok (w, changed)) :
    (v.qualifier = some .const ∧ v.type = some value.type ∧ w = v.store value ∧
      changed = !(v.value.any (·.same value))) ∨
    (v.qualifier ≠ some .const ∧
      w = { v.store value with qualifier := some value.qualifier, type := some value.type } ∧
      (changed = false → v.qualifier = some value.qualifier ∧ v.type = some value.type)) := by
  unfold setValue at h
  split at h
  · simp at h
  · next hq =>
    obtain ⟨_, ht, h⟩ := Except.bind_eq_ok_iff.1 h
    simp only [Except.pure_eq, Except.ok.injEq, Prod.mk.injEq] at h
    exact Or.inl ⟨hq, checkType_eq_ok_iff.1 ht, h.1.symm, h.2.symm⟩
  · next hvarying hconst =>
    -- a declared variable takes values of its qualifier and type only, any other takes both over
    refine Or.inr ⟨hconst, ?_⟩
    split at h
    · split at h
      · next hq =>
        obtain ⟨_, ht, h⟩ := Except.bind_eq_ok_iff.1 h
        simp only [Except.pure_eq, Except.ok.injEq, Prod.mk.injEq] at h
        obtain ⟨rfl, rfl⟩ := h
        have ht := checkType_eq_ok_iff.1 ht
        exact ⟨by rw [store, ← hq, ← ht], fun _ => ⟨hq, ht⟩⟩
      · simp at h
    · simp only [Except.pure_eq, Except.ok.injEq, Prod.mk.injEq] at h
      obtain ⟨rfl, rfl⟩ := h
      refine ⟨rfl, fun hc => ?_⟩
      simpa [not_or] using hc

/-- A value keeps a variable well formed. -/
theorem WellFormed.setValue (hv : v.WellFormed) (h : v.setValue value = .ok (w, changed)) :
    w.WellFormed := by
  obtain ⟨-, -, rfl, -⟩ | ⟨-, rfl, -⟩ := setValue_cases h
  · exact hv
  · exact fun hc => absurd (Option.some.inj hc) (ne_const_of_value value)

theorem state_of_setValue (h : v.setValue value = .ok (w, changed)) : w.state = v.state + 1 := by
  obtain ⟨-, -, rfl, -⟩ | ⟨-, rfl, -⟩ := setValue_cases h <;> rfl

theorem link_of_setValue (h : v.setValue value = .ok (w, changed)) : w.link = v.link := by
  obtain ⟨-, -, rfl, -⟩ | ⟨-, rfl, -⟩ := setValue_cases h <;> rfl

/-- Where the definition does not change, all that does is the value and the number of values; and
the value of a constant can only have changed from one zero to the other. -/
theorem eq_store_of_setValue (hv : v.WellFormed) (h : v.setValue value = .ok (w, false)) :
    w = v.store value ∧ (v.qualifier = some .const → ∃ old, v.value = some old ∧
      (old = value ∨ old.OppositeZeros value)) := by
  obtain ⟨hq, ht, rfl, hc⟩ | ⟨hq, rfl, hc⟩ := setValue_cases h
  · -- the values are the same as numbers, and of a type that words can be written for
    refine ⟨rfl, fun _ => ?_⟩
    obtain ⟨t, htl, ht'⟩ := hv hq
    rw [ht] at ht'
    have hsame : v.value.any (·.same value) = true := by simpa using hc
    cases hval : v.value with
    | none => simp [hval] at hsame
    | some old =>
      rw [hval] at hsame
      exact ⟨old, rfl, Value.eq_or_oppositeZeros hsame (Option.some.inj ht' ▸ htl)⟩
  · obtain ⟨hq', ht'⟩ := hc rfl
    exact ⟨by rw [store, ← hq', ← ht'], fun hconst => absurd hconst hq⟩

theorem wellFormed_ofDeclaration {text : String} {d : Declaration}
    (h : Declaration.parse text = .ok d) : (ofDeclaration d).WellFormed :=
  fun hq => ⟨d.type, Declaration.type_of_const h (Option.some.inj hq), rfl⟩

theorem wellFormed_unassigned (name : String) : (unassigned name).WellFormed := nofun

theorem wellFormed_varying (name : String) (type : Option String) :
    (varying name type).WellFormed := nofun

theorem wellFormed_ofValue (name : String) (value : Value) : (ofValue name value).WellFormed :=
  fun hq => absurd (Option.some.inj hq) (ne_const_of_value value)

end Variable

/-! ### Objects -/

/-- What every object that is made and edited keeps to. -/
def Object.WellFormed : Object → Prop
  | .function s => s.WellFormed
  | .var v => v.WellFormed
  | .chain _ | .text _ | .call _ => True

/-- An object as it can be made outside of any graph. A chain has no members then. -/
inductive Object.New : Object → Prop where
  | function {code : String} {s : Snippet} (h : Snippet.ofCode code = .ok s)
      (requires : List ObjectId) : New (.function { s with requires })
  | unassigned (name : String) : New (.var (.unassigned name))
  | declared {text : String} {d : Declaration} (h : Declaration.parse text = .ok d) :
      New (.var (.ofDeclaration d))
  | valued (name : String) (value : Value) : New (.var (.ofValue name value))
  | varying (name : String) (type : Option String) : New (.var (.varying name type))
  | chain (name : String) (anonymous : Bool) : New (.chain (.empty name anonymous))
  | text (code : String) : New (.text code)

theorem Object.New.wellFormed {o : Object} (h : o.New) : o.WellFormed := by
  cases h with
  | function h requires => exact Snippet.wellFormed_ofCode h requires
  | unassigned name => exact Variable.wellFormed_unassigned name
  | declared h => exact Variable.wellFormed_ofDeclaration h
  | valued name value => exact Variable.wellFormed_ofValue name value
  | varying name type => exact Variable.wellFormed_varying name type
  | chain name anonymous => trivial
  | text code => trivial

end ShaderLink
