import Mathlib.Data.List.TakeWhile
import ShaderLink.Proofs.Naming.Namespace

/-!
# Stems

A name **ends in a number** if an underscore and digits stand at its end (`EndsInNumber`). It does
so in one way only, since digits are no underscores. The stem of a name is what stands before the
underscore, as long as something does (`stemBy_stem`).

In pretty style an object gets the name it was made with if that is free, and otherwise the stem
with the first number from one on that is free (`suggest_pretty`). In any style it gets one of three
names (`suggest_cases`), and so a name behind some stem is only given to an object whose own name
has that stem (`stem_of_suggest`).
-/

namespace ShaderLink.Namespace

variable {ns : Namespace} {name base stem : String} {id : ObjectId} {s digits : List Char}

/-- A name is a stem, which may be empty, with an underscore and digits behind it. -/
def EndsInNumber (name stem : String) : Prop :=
  ∃ digits : List Char, digits ≠ [] ∧ (∀ c ∈ digits, c.isDigit = true) ∧
    name.toList = stem.toList ++ '_' :: digits

/-- What a name has as its stem, if only some stems are admitted: what stands before a number at its
end, or all of it if there is no such number behind an admitted stem. -/
def StemBy (admits : String → Prop) (name stem : String) : Prop :=
  (EndsInNumber name stem ∧ admits stem) ∨
    (stem = name ∧ ∀ s, EndsInNumber name s → ¬ admits s)

/-! ### Numbers at the end of names -/

/-- A test that fails for one character of a text and passes for all behind it, from the end of the
text: it stops at this character. -/
theorem span_reverse {p : Char → Bool} {c : Char} {t : List Char} (ht : ∀ d ∈ t, p d = true)
    (hc : p c = false) : (s ++ c :: t).reverse.takeWhile p = t.reverse ∧
      (s ++ c :: t).reverse.dropWhile p = c :: s.reverse := by
  have hreverse : (s ++ c :: t).reverse = t.reverse ++ c :: s.reverse := by simp
  have hall : ∀ d ∈ t.reverse, p d = true := fun d hd => ht d (List.mem_reverse.1 hd)
  rw [hreverse, List.takeWhile_append_of_pos hall, List.dropWhile_append_of_pos hall]
  simp [hc]

/-- **A name ends in a number in one way.** -/
theorem EndsInNumber.unique {stem' : String} (h : EndsInNumber name stem)
    (h' : EndsInNumber name stem') : stem = stem' := by
  obtain ⟨digits, -, hdigits, heq⟩ := h
  obtain ⟨digits', -, hdigits', heq'⟩ := h'
  -- both stems are what is left of the name without the digits at its end
  have hrest : name.toList.reverse.dropWhile Char.isDigit = '_' :: stem.toList.reverse := by
    rw [heq]
    exact (span_reverse hdigits rfl).2
  have hrest' : name.toList.reverse.dropWhile Char.isDigit = '_' :: stem'.toList.reverse := by
    rw [heq']
    exact (span_reverse hdigits' rfl).2
  rw [hrest, List.cons.injEq, List.reverse_inj] at hrest'
  exact String.toList_injective hrest'.2

theorem endsInNumber_numbered (stem : String) (k : Nat) : EndsInNumber (numbered stem k) stem := by
  refine ⟨Nat.toDigits 10 k, Nat.toDigits_ne_nil, fun c hc => ?_, ?_⟩
  · exact Nat.isDigit_of_mem_toDigits (by decide) (by decide) hc
  · simp [numbered, Nat.toList_repr]

/-- What stands before the number at the end of a name is the stem, unless it is nothing. -/
theorem stem_append (hne : digits ≠ []) (hdigits : ∀ c ∈ digits, c.isDigit = true) :
    Namespace.stem (s ++ '_' :: digits) = if s = [] then s ++ '_' :: digits else s := by
  have hspan : (s ++ '_' :: digits).reverse.takeWhile Char.isDigit = digits.reverse ∧
      (s ++ '_' :: digits).reverse.dropWhile Char.isDigit = '_' :: s.reverse :=
    span_reverse hdigits rfl
  obtain ⟨d, ds, hcons⟩ := List.exists_cons_of_ne_nil (mt List.reverse_eq_nil_iff.1 hne)
  rw [Namespace.stem, hspan.1, hspan.2, hcons]
  simp

/-- A name that is not its own stem is the stem and a number. -/
theorem exists_of_stem_ne {t : List Char} (h : Namespace.stem t ≠ t) :
    Namespace.stem t ≠ [] ∧ ∃ digits : List Char, digits ≠ [] ∧ (∀ c ∈ digits, c.isDigit = true) ∧
      t = Namespace.stem t ++ '_' :: digits := by
  have hsplit : t = (t.reverse.dropWhile Char.isDigit).reverse ++
      (t.reverse.takeWhile Char.isDigit).reverse := by
    rw [← List.reverse_append, List.takeWhile_append_dropWhile, List.reverse_reverse]
  have hall : ∀ c ∈ t.reverse.takeWhile Char.isDigit, c.isDigit = true := fun c hc =>
    List.mem_takeWhile_imp hc
  -- only one branch of the definition answers with another name
  revert h
  unfold Namespace.stem
  dsimp only
  split
  · next d ds rest htake hdrop =>
    split
    · next hempty => exact fun h => absurd rfl h
    · next hrest =>
      intro _
      rw [htake] at hall hsplit
      rw [hdrop] at hsplit
      refine ⟨by simpa using hrest, (d :: ds).reverse, by simp, fun c hc => ?_, ?_⟩
      · exact hall c (List.mem_reverse.1 hc)
      · simpa using hsplit
  · exact fun h => absurd rfl h

/-- **The stem of a name** is what stands before the number that it ends in, if something does. -/
theorem stemBy_stem (name : String) :
    StemBy (· ≠ "") name (String.ofList (Namespace.stem name.toList)) := by
  by_cases h : Namespace.stem name.toList = name.toList
  · refine .inr ⟨by rw [h, String.ofList_toList], fun s hs hne => ?_⟩
    -- otherwise the stem would be shorter than the name
    obtain ⟨digits, hdigits, hall, heq⟩ := hs
    have hs : s.toList ≠ [] := by simpa using hne
    rw [heq, stem_append hdigits hall, if_neg hs] at h
    simp at h
  · obtain ⟨hne, digits, hdigits, hall, heq⟩ := exists_of_stem_ne h
    refine .inl ⟨⟨digits, hdigits, hall, ?_⟩, ?_⟩
    · rw [String.toList_ofList]
      exact heq
    · simpa using hne

/-! ### Suggestions -/

/-- **The first number**: behind the stem of a name, the search stops at the first number from one
on that makes a free name. -/
theorem firstNumbered_eq (ns : Namespace) (base : String) : ∃ k, 1 ≤ k ∧
    ns.firstNumbered base = numbered (String.ofList (Namespace.stem base.toList)) k ∧
    ∀ j, 1 ≤ j → j < k →
      ns.isFree (numbered (String.ofList (Namespace.stem base.toList)) j) = false := by
  unfold firstNumbered
  dsimp only
  generalize String.ofList (Namespace.stem base.toList) = stem
  obtain ⟨k, hk, hfree⟩ := exists_isFree_numbered ns stem
  cases hfind : (List.range (ns.size + 1)).find? (ns.isFree ∘ fun k => numbered stem (k + 1)) with
  | none => exact absurd hfree (List.find?_eq_none.1 hfind k (List.mem_range.2 hk))
  | some i =>
    obtain ⟨-, -, hbefore⟩ := List.find?_range_eq_some.1 hfind
    refine ⟨i + 1, Nat.le_add_left 1 i, ?_, fun j hj hlt => ?_⟩
    · rw [List.find?_map, hfind, Option.map_some, Option.getD_some]
    -- the search goes through the numbers less one
    obtain ⟨j, rfl⟩ := Nat.exists_eq_add_of_le' hj
    simpa using hbefore j (Nat.lt_of_succ_lt_succ hlt)

/-- **Pretty names** are the name itself if it is free, and otherwise behind the stem of the name
the first number that makes a free name. -/
theorem suggest_pretty (ns : Namespace) (base : String) (id : ObjectId) :
    (ns.isFree base = true ∧ ns.suggest .pretty base id = base) ∨
      (ns.isFree base = false ∧ ∃ stem k, StemBy (· ≠ "") base stem ∧ 1 ≤ k ∧
        ns.suggest .pretty base id = numbered stem k ∧
        ∀ j, 1 ≤ j → j < k → ns.isFree (numbered stem j) = false) := by
  unfold suggest
  rw [if_neg (by simp)]
  split
  · exact .inl ⟨by assumption, rfl⟩
  · next hno =>
    obtain ⟨k, hk, heq, hbefore⟩ := ns.firstNumbered_eq base
    exact .inr ⟨by simpa using hno, _, k, stemBy_stem base, hk, heq, hbefore⟩

/-- Whatever the style, one of three names is suggested. -/
theorem suggest_cases (ns : Namespace) (style : NamingStyle) (base : String) (id : ObjectId) :
    ns.suggest style base id = identified base id ∨ ns.suggest style base id = base ∨
      ∃ stem k, StemBy (· ≠ "") base stem ∧ ns.suggest style base id = numbered stem k := by
  unfold suggest
  split
  · exact .inl rfl
  · split
    · exact .inr (.inl rfl)
    · obtain ⟨k, -, heq, -⟩ := ns.firstNumbered_eq base
      exact .inr (.inr ⟨_, k, stemBy_stem base, heq⟩)

theorem underscore_notMem_toDigits (n : Nat) : '_' ∉ Nat.toDigits 16 n := by
  induction n using Nat.strong_induction_on with
  | _ n ih =>
    have hdigit : ∀ d < 16, '_' ≠ Nat.digitChar d := by decide
    rw [Nat.toDigits_eq_if (by decide)]
    split
    · next hlt =>
      rw [List.mem_singleton]
      exact hdigit n hlt
    · next hge =>
      have hsmaller : n / 16 < n := Nat.div_lt_self (by omega) (by decide)
      have hlast : n % 16 < 16 := Nat.mod_lt n (by decide)
      rw [List.mem_append, List.mem_singleton, not_or]
      exact ⟨ih _ hsmaller, hdigit _ hlast⟩

/-- What stands before the last underscore of a text. -/
theorem eq_of_append_underscore {s' t t' : List Char} (h : s ++ '_' :: t = s' ++ '_' :: t')
    (ht : '_' ∉ t) (ht' : '_' ∉ t') : s = s' := by
  have hrest : ∀ s t : List Char, '_' ∉ t →
      (s ++ '_' :: t).reverse.dropWhile (fun c => decide (c ≠ '_')) = '_' :: s.reverse := by
    intro s t ht
    refine (span_reverse (fun c hc => decide_eq_true ?_) (by simp)).2
    rintro rfl
    exact ht hc
  have hleft := hrest s t ht
  rw [h, hrest s' t' ht', List.cons.injEq, List.reverse_inj] at hleft
  exact hleft.2.symm

/-- A name with an identifier has no other stem than the name itself. -/
theorem eq_of_endsInNumber_identified (h : EndsInNumber (identified base id) stem) :
    base = stem := by
  obtain ⟨digits, -, hdigits, hsplit⟩ := h
  -- no digit is an underscore, in decimal or in hexadecimal
  have hno : '_' ∉ digits := fun hmem => absurd (hdigits _ hmem) (by decide)
  have htext : base.toList ++ '_' :: Nat.toDigits 16 id.index = stem.toList ++ '_' :: digits := by
    rw [← hsplit]
    simp [identified]
  exact String.toList_injective
    (eq_of_append_underscore htext (underscore_notMem_toDigits _) hno)

/-- **A name behind a stem** is only suggested for a name that has this stem, or is it. -/
theorem stem_of_suggest {style : NamingStyle} (h : EndsInNumber (ns.suggest style base id) stem)
    (hne : stem ≠ "") : StemBy (· ≠ "") base stem ∨ base = stem := by
  obtain heq | heq | ⟨stem', k, hstem', heq⟩ := ns.suggest_cases style base id
  · rw [heq] at h
    exact .inr (eq_of_endsInNumber_identified h)
  · rw [heq] at h
    exact .inl (.inl ⟨h, hne⟩)
  · rw [heq] at h
    exact .inl (h.unique (endsInNumber_numbered stem' k) ▸ hstem')

end ShaderLink.Namespace
