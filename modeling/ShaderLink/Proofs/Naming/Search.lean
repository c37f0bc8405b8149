import Mathlib.Data.Finset.Card
import Mathlib.Data.Finset.Image
import Mathlib.Data.Finset.Range
import ShaderLink.Proofs.Naming.Stem

/-!
# The search for a free name

The search goes through a sequence of names that has no end (`candidate`): the names that an object
has of its own, and then the numbers from one on behind the stem of its name. It stops at the first
name that is free (`StopsAt`).

That it stops at all is a matter of counting. Only finitely many names are taken (`taken`), and the
names tried differ, but for one at most: a name that ends in a number may be tried once for itself
and once behind its stem (`exists_injOn_candidate`). So there are at most two more tries than names
that are taken, and two more there can be. There is at most one try more than names that are claimed
or reserved and words of the language together (`listed`), because of the words at most one is tried
(`exists_word_untried`).
-/

namespace ShaderLink.Namespace

variable {ns : Namespace} {style : NamingStyle} {name base : String} {id : ObjectId} {k : Nat}

/-! ### Names that are taken -/

/-- The names that are taken: those that objects have claimed, those that code reserves, and the
words of the language unless these are given free. -/
def taken (ns : Namespace) : Finset String :=
  ns.claimed.keys.toFinset ∪ ns.reserved.toFinset ∪
    if ns.keywords then Glsl.reservedWords.toFinset else ∅

/-- The names that are claimed or reserved, and all words of the language, be they free or not. -/
def listed (ns : Namespace) : Finset String :=
  ns.claimed.keys.toFinset ∪ ns.reserved.toFinset ∪ Glsl.reservedWords.toFinset

theorem taken_subset_listed (ns : Namespace) : ns.taken ⊆ ns.listed := by
  refine Finset.union_subset_union_right ?_
  split
  · exact Finset.Subset.refl _
  · exact Finset.empty_subset _

/-- A name is taken exactly if it is not free. -/
theorem mem_taken_iff : name ∈ ns.taken ↔ ns.isFree name = false := by
  have hwords : name ∈ (if ns.keywords then Glsl.reservedWords.toFinset else ∅) ↔
      ns.isKeyword name = true := by
    cases hkeywords : ns.keywords <;> simp [isKeyword, Glsl.isReserved, hkeywords]
  rw [taken, Finset.mem_union, Finset.mem_union, hwords, ← Bool.not_eq_true, isFree_iff]
  simp only [List.mem_toFinset, Std.ExtTreeMap.mem_keys, Std.ExtTreeMap.mem_iff_isSome_getElem?]
  cases ns.claimed[name]? <;> cases ns.isKeyword name <;> simp

/-! ### Names that are tried -/

/-- The names that are tried before any number behind the stem. -/
def ownNames (style : NamingStyle) (base : String) (id : ObjectId) : List String :=
  match style with
  | .pretty => [base]
  | .fast => [identified base id, base]

/-- The names that are tried, in order and without an end. -/
def candidate (style : NamingStyle) (base : String) (id : ObjectId) (k : Nat) : String :=
  let own := ownNames style base id
  if h : k < own.length then own[k]
  else numbered (String.ofList (stem base.toList)) (k - own.length + 1)

/-- A search through a sequence of names stops at the first one that is free. -/
structure StopsAt (ns : Namespace) (names : Nat → String) (k : Nat) : Prop where
  free : ns.isFree (names k) = true
  before : ∀ j < k, ns.isFree (names j) = false

theorem candidate_of_own {i : Nat} (h : (ownNames style base id)[i]? = some name) :
    candidate style base id i = name := by
  obtain ⟨hlt, hget⟩ := List.getElem?_eq_some_iff.1 h
  rw [candidate, dif_pos hlt, hget]

/-- Behind the object's own names come the numbers. -/
theorem candidate_add (j : Nat) : candidate style base id ((ownNames style base id).length + j) =
    numbered (String.ofList (stem base.toList)) (j + 1) := by
  rw [candidate, dif_neg (Nat.not_lt.2 (Nat.le_add_right _ _)), Nat.add_sub_cancel_left]

/-- A name is longer than its stem. -/
theorem numbered_ne (stem : String) (k : Nat) : numbered stem k ≠ stem := by
  intro h
  have hlength := congrArg String.length h
  have hone : "_".length = 1 := rfl
  simp only [numbered, String.length_append] at hlength
  omega

/-- Names differ off one index if all but one of the others are numbers, and that one makes a name
that no number makes. -/
theorem injOn_candidate {r s : Nat}
    (hothers : ∀ i, i ≠ r → i = s ∨ (ownNames style base id).length ≤ i)
    (hs : s ≠ r → ∀ a, candidate style base id s ≠ numbered (String.ofList (stem base.toList)) a) :
    Set.InjOn (candidate style base id) {i | i ≠ r} := by
  intro i hi j hj h
  obtain rfl | hi' := hothers i hi
  · obtain rfl | hj' := hothers j hj
    · rfl
    · obtain ⟨b, rfl⟩ := Nat.exists_eq_add_of_le hj'
      exact absurd (h.trans (candidate_add b)) (hs hi _)
  · obtain ⟨a, rfl⟩ := Nat.exists_eq_add_of_le hi'
    obtain rfl | hj' := hothers j hj
    · exact absurd (h.symm.trans (candidate_add a)) (hs hj _)
    · obtain ⟨b, rfl⟩ := Nat.exists_eq_add_of_le hj'
      rw [candidate_add, candidate_add] at h
      exact congrArg (_ + ·) (Nat.succ.inj (numbered_injective _ h))

/-- **No name is tried twice**, but for one at most: the object's name may come again behind its
stem, or its name with the identifier may. -/
theorem exists_injOn_candidate (style : NamingStyle) (base : String) (id : ObjectId) :
    ∃ r, Set.InjOn (candidate style base id) {i | i ≠ r} := by
  cases style with
  | pretty => exact ⟨0, injOn_candidate (s := 0) (fun i hi => .inr (Nat.pos_of_ne_zero hi)) nofun⟩
  | fast =>
    have hothers : ∀ i : Nat, i = 0 ∨ i = 1 ∨ 2 ≤ i := by omega
    by_cases hbase : ∃ a, base = numbered (String.ofList (stem base.toList)) a
    · -- then the name is not its own stem, as it would have to be for the one with the identifier
      obtain ⟨a, ha⟩ := hbase
      refine ⟨1, injOn_candidate (s := 0) (fun i hi => (hothers i).imp_right fun h => ?_) ?_⟩
      · exact h.resolve_left hi
      · intro _ b hb
        have hends : EndsInNumber (identified base id) (String.ofList (stem base.toList)) := by
          rw [show identified base id = _ from hb]
          exact endsInNumber_numbered _ b
        exact numbered_ne _ a (ha.symm.trans (eq_of_endsInNumber_identified hends))
    · refine ⟨0, injOn_candidate (s := 1) (fun i hi => (hothers i).resolve_left hi) ?_⟩
      exact fun _ a ha => hbase ⟨a, ha⟩

/-- **Of the words of the language, one is never tried**: all names tried have an underscore, but
for the object's own name. -/
theorem exists_word_untried (style : NamingStyle) (base : String) (id : ObjectId) :
    ∃ w ∈ Glsl.reservedWords, ∀ k, candidate style base id k ≠ w := by
  have hnames : ∀ k, candidate style base id k = base ∨
      '_' ∈ (candidate style base id k).toList := by
    intro k
    by_cases hk : k < (ownNames style base id).length
    · have hmem : candidate style base id k ∈ ownNames style base id := by
        rw [candidate, dif_pos hk]
        exact List.getElem_mem hk
      revert hmem
      generalize candidate style base id k = name
      cases style <;> simp [ownNames, identified] <;> rintro (rfl | rfl) <;> simp
    · obtain ⟨a, rfl⟩ := Nat.exists_eq_add_of_le (Nat.not_lt.1 hk)
      rw [candidate_add]
      exact .inr (by simp [numbered])
  -- of two words without an underscore, the object is called like one at most
  have hword : ∃ w ∈ ["if", "do"], base ≠ w := by
    by_cases h : base = "if"
    · exact ⟨"do", by simp, by simp [h]⟩
    · exact ⟨"if", by simp, h⟩
  obtain ⟨w, hw, hne⟩ := hword
  have hboth : ∀ w ∈ ["if", "do"], w ∈ Glsl.reservedWords ∧ '_' ∉ w.toList := by decide +kernel
  obtain ⟨hmem, hunderscore⟩ := hboth w hw
  refine ⟨w, hmem, fun k hk => ?_⟩
  obtain h | h := hnames k
  · exact hne (h.symm.trans hk)
  · exact hunderscore (hk ▸ h)

/-! ### Counting -/

/-- All but the last of the names tried are taken. -/
theorem StopsAt.card_tried_le {names : Nat → String} (h : ns.StopsAt names k) :
    ((Finset.range (k + 1)).image names).card ≤ ns.taken.card + 1 := by
  have hbefore : (Finset.range k).image names ⊆ ns.taken := by
    intro name hname
    obtain ⟨j, hj, rfl⟩ := Finset.mem_image.1 hname
    exact mem_taken_iff.2 (h.before j (Finset.mem_range.1 hj))
  calc ((Finset.range (k + 1)).image names).card
      = (insert (names k) ((Finset.range k).image names)).card := by
        rw [Finset.range_add_one, Finset.image_insert]
    _ ≤ ((Finset.range k).image names).card + 1 := Finset.card_insert_le _ _
    _ ≤ ns.taken.card + 1 := Nat.succ_le_succ (Finset.card_le_card hbefore)

/-- If the names tried first are all in a set, there is at most one more of them than the set has,
since one of them may be there twice. -/
theorem le_card_of_candidates {names : Finset String}
    (h : ∀ j < k, candidate style base id j ∈ names) : k ≤ names.card + 1 := by
  obtain ⟨r, hr⟩ := exists_injOn_candidate style base id
  let tried : Finset Nat := (Finset.range k).erase r
  have hsub : tried.image (candidate style base id) ⊆ names := by
    intro name hname
    obtain ⟨j, hj, rfl⟩ := Finset.mem_image.1 hname
    exact h j (Finset.mem_range.1 (Finset.mem_of_mem_erase hj))
  have hinj : Set.InjOn (candidate style base id) tried :=
    hr.mono fun j hj => Finset.ne_of_mem_erase hj
  have hone : (Finset.range k).card - 1 ≤ tried.card := Finset.pred_card_le_card_erase
  calc k = (Finset.range k).card := (Finset.card_range k).symm
    _ ≤ tried.card + 1 := Nat.le_add_of_sub_le hone
    _ = (tried.image (candidate style base id)).card + 1 := by
        rw [Finset.card_image_of_injOn hinj]
    _ ≤ names.card + 1 := Nat.succ_le_succ (Finset.card_le_card hsub)

/-- **At most two more tries than names that are taken.** -/
theorem StopsAt.tries_le_taken (h : ns.StopsAt (candidate style base id) k) :
    k + 1 ≤ ns.taken.card + 2 :=
  Nat.succ_le_succ (le_card_of_candidates fun j hj => mem_taken_iff.2 (h.before j hj))

/-- **At most one try more than names that are claimed or reserved and words of the language**: one
of the words is never tried, and makes up for the name that may be tried twice. -/
theorem StopsAt.tries_le_listed (h : ns.StopsAt (candidate style base id) k) :
    k + 1 ≤ ns.listed.card + 1 := by
  obtain ⟨w, hw, huntried⟩ := exists_word_untried style base id
  have hlisted : w ∈ ns.listed := Finset.mem_union_right _ (List.mem_toFinset.2 hw)
  have hle : k ≤ (ns.listed.erase w).card + 1 := by
    refine le_card_of_candidates fun j hj => Finset.mem_erase.2 ⟨huntried j, ?_⟩
    exact ns.taken_subset_listed (mem_taken_iff.2 (h.before j hj))
  rw [Finset.card_erase_add_one hlisted] at hle
  exact Nat.succ_le_succ hle

/-! ### What is suggested -/

/-- One of the object's own names is suggested if one is free. -/
theorem suggest_eq_find? (ns : Namespace) (style : NamingStyle) (base : String) (id : ObjectId) :
    ns.suggest style base id =
      ((ownNames style base id).find? ns.isFree).getD (ns.firstNumbered base) := by
  cases hbase : ns.isFree base <;> cases style <;>
    cases hidentified : ns.isFree (identified base id) <;>
    simp [suggest, ownNames, hbase, hidentified]

/-- What is suggested is the name that the search stops at. -/
theorem exists_stopsAt_suggest (ns : Namespace) (style : NamingStyle) (base : String)
    (id : ObjectId) : ∃ k, ns.StopsAt (candidate style base id) k ∧
      ns.suggest style base id = candidate style base id k := by
  rw [suggest_eq_find?]
  cases hfind : (ownNames style base id).find? ns.isFree with
  | some name =>
    obtain ⟨hfree, i, hi, hname, hbefore⟩ := List.find?_eq_some_iff_getElem.1 hfind
    have hcandidate : candidate style base id i = name :=
      candidate_of_own (List.getElem?_eq_some_iff.2 ⟨hi, hname⟩)
    refine ⟨i, ⟨by rwa [hcandidate], fun j hj => ?_⟩, hcandidate.symm⟩
    rw [candidate_of_own (List.getElem?_eq_getElem (Nat.lt_trans hj hi))]
    simpa using hbefore j hj
  | none =>
    -- all own names are taken, so the search goes on to the first number that makes a free name
    obtain ⟨k, hk, heq, hbefore⟩ := ns.firstNumbered_eq base
    obtain ⟨k, rfl⟩ := Nat.exists_eq_add_of_le' hk
    have hnumbered : ns.firstNumbered base =
        candidate style base id ((ownNames style base id).length + k) := by
      rw [heq, candidate_add]
    rw [Option.getD_none]
    refine ⟨(ownNames style base id).length + k, ⟨?_, fun j hj => ?_⟩, hnumbered⟩
    · rw [← hnumbered]
      exact isFree_firstNumbered ns base
    · by_cases hown : j < (ownNames style base id).length
      · rw [candidate_of_own (List.getElem?_eq_getElem hown)]
        exact Bool.eq_false_iff.2 (List.find?_eq_none.1 hfind _ (List.getElem_mem hown))
      · obtain ⟨j, rfl⟩ := Nat.exists_eq_add_of_le (Nat.le_of_not_lt hown)
        rw [candidate_add]
        exact hbefore (j + 1) (Nat.le_add_left 1 j) (by omega)

/-- **The search for a free name ends.** Whatever is taken, the names that are tried come to one
that is free, and that is the one suggested. There is at most one try more than there are names that
are claimed or reserved and words of the language together, and at most one name more is tried than
there are names taken; where words are given free, there may be two tries more than names taken. In
fast style the name with the identifier is suggested whenever it is free. -/
theorem suggest_first_free (ns : Namespace) (style : NamingStyle) (base : String) (id : ObjectId) :
    (∃ k, ns.StopsAt (candidate style base id) k ∧
      ns.suggest style base id = candidate style base id k ∧
      k + 1 ≤ ns.listed.card + 1 ∧
      k + 1 ≤ ns.taken.card + 2 ∧
      ((Finset.range (k + 1)).image (candidate style base id)).card ≤ ns.taken.card + 1) ∧
    ns.isFree (ns.suggest style base id) = true ∧
    (ns.isFree (identified base id) = true → ns.suggest .fast base id = identified base id) := by
  obtain ⟨k, hstops, hsuggest⟩ := exists_stopsAt_suggest ns style base id
  refine ⟨⟨k, hstops, hsuggest, hstops.tries_le_listed, hstops.tries_le_taken,
    hstops.card_tried_le⟩, ?_, fun hfree => ?_⟩
  · rw [hsuggest]
    exact hstops.free
  · exact if_pos ⟨rfl, hfree⟩

/-- One name that an object has claimed, and one that code reserves. -/
def twoTaken : Namespace where
  claimed := (∅ : Std.ExtTreeMap String ObjectId).insert "light_1" ⟨1⟩
  reserved := ["light_2"]
  keywords := false

/-- A name that ends in a number and is taken is tried again behind its stem: there are four tries
for two names taken. -/
example : (List.range 4).map (candidate .pretty "light_2" ⟨3⟩) =
    ["light_2", "light_1", "light_2", "light_3"] ∧
    twoTaken.suggest .pretty "light_2" ⟨3⟩ = "light_3" := by decide +kernel

end ShaderLink.Namespace
