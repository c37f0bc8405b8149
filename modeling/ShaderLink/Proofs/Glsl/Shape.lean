import ShaderLink.Proofs.Glsl.Scan
import ShaderLink.Proofs.Glsl.Signature

/-!
# Printed types

The types of a function are compared as they are printed, as in `vec4(vec4, float)`. This is exact
because types are names: no name holds a parenthesis or a comma, so the printed text can be taken
apart again, and no name is empty, so a function without arguments is told from one with arguments
(`Glsl.shape_inj`).

All types that there are to compare are names (`Glsl.Produced`): those of signatures and of
prototypes are read as names, and those of chains are derived from those of functions.
-/

namespace ShaderLink

namespace Glsl

variable {result result' : String} {types types' : List String} {t : List Char}
  {ts us : List (List Char)}

/-! ### Taking printed types apart -/

/-- What is printed behind the first of some types. -/
def moreTypes (ts : List (List Char)) : List Char := ts.flatMap fun t => ',' :: ' ' :: t

theorem intercalate_eq_append_moreTypes (t : List Char) (ts : List (List Char)) :
    [',', ' '].intercalate (t :: ts) = t ++ moreTypes ts := by
  induction ts generalizing t with
  | nil => simp [moreTypes]
  | cons u ts ih =>
    rw [List.intercalate_cons_cons, ih]
    simp [moreTypes]

theorem stops_moreTypes (ts : List (List Char)) : Stops isNamePart (moreTypes ts) := by
  cases ts with
  | nil => exact stops_nil
  | cons t ts => exact stops_cons.2 (by decide)

theorem isNamePart_of_isName (h : isName t = true) : ∀ c ∈ t, isNamePart c = true := by
  obtain ⟨w, rfl⟩ : ∃ w : Word, w.text.toList = t :=
    ⟨⟨String.ofList t, by rwa [String.toList_ofList]⟩, String.toList_ofList⟩
  exact fun c hc => w.isNamePart_of_mem hc

/-- A name in front of something that does not go on with it can be told from what follows. -/
theorem append_inj_of_isName {t u r s : List Char} (ht : isName t = true) (hu : isName u = true)
    (hr : Stops isNamePart r) (hs : Stops isNamePart s) (h : t ++ r = u ++ s) : t = u ∧ r = s := by
  constructor
  · rw [← takeWhile_append (isNamePart_of_isName ht) hr, h,
      takeWhile_append (isNamePart_of_isName hu) hs]
  · rw [← dropWhile_append (isNamePart_of_isName ht) hr, h,
      dropWhile_append (isNamePart_of_isName hu) hs]

theorem moreTypes_inj (hts : ∀ t ∈ ts, isName t = true) (hus : ∀ u ∈ us, isName u = true)
    (h : moreTypes ts = moreTypes us) : ts = us := by
  induction ts generalizing us with
  | nil =>
    cases us with
    | nil => rfl
    | cons u us => cases h
  | cons t ts ih =>
    cases us with
    | nil => cases h
    | cons u us =>
      rw [List.forall_mem_cons] at hts hus
      have htext : t ++ moreTypes ts = u ++ moreTypes us := (List.cons.inj (List.cons.inj h).2).2
      obtain ⟨rfl, hrest⟩ :=
        append_inj_of_isName hts.1 hus.1 (stops_moreTypes ts) (stops_moreTypes us) htext
      rw [ih hts.2 hus.2 hrest]

theorem ne_nil_of_isName (h : isName t = true) : t ≠ [] := by
  rintro rfl
  cases h

/-- Joined names can be taken apart, and no name is empty. -/
theorem intercalate_inj (hts : ∀ t ∈ ts, isName t = true) (hus : ∀ u ∈ us, isName u = true)
    (h : [',', ' '].intercalate ts = [',', ' '].intercalate us) : ts = us := by
  have hempty : ∀ {t : List Char} {ts : List (List Char)}, isName t = true →
      [',', ' '].intercalate (t :: ts) ≠ [] := fun ht hnil => by
    rw [intercalate_eq_append_moreTypes] at hnil
    exact ne_nil_of_isName ht (List.append_eq_nil_iff.1 hnil).1
  cases ts with
  | nil =>
    cases us with
    | nil => rfl
    | cons u us => exact absurd h.symm (hempty (hus u List.mem_cons_self))
  | cons t ts =>
    cases us with
    | nil => exact absurd h (hempty (hts t List.mem_cons_self))
    | cons u us =>
      rw [List.forall_mem_cons] at hts hus
      rw [intercalate_eq_append_moreTypes, intercalate_eq_append_moreTypes] at h
      obtain ⟨rfl, hrest⟩ :=
        append_inj_of_isName hts.1 hus.1 (stops_moreTypes ts) (stops_moreTypes us) h
      rw [moreTypes_inj hts.2 hus.2 hrest]

theorem toList_shape (result : String) (types : List String) :
    (shape result types).toList =
      result.toList ++ '(' :: ([',', ' '].intercalate (types.map String.toList) ++ [')']) := by
  simp [shape, typeList, String.toList_intercalate]

/-- **Types that are names are the same if they print the same.** -/
theorem shape_inj (hresult : isName result.toList = true)
    (hresult' : isName result'.toList = true) (htypes : ∀ t ∈ types, isName t.toList = true)
    (htypes' : ∀ t ∈ types', isName t.toList = true) :
    shape result types = shape result' types' ↔ result = result' ∧ types = types' := by
  refine ⟨fun h => ?_, fun ⟨h, h'⟩ => by rw [h, h']⟩
  have hparenthesis : ∀ s : List Char, Stops isNamePart ('(' :: s) := fun s =>
    stops_cons.2 (by decide)
  have h := congrArg String.toList h
  rw [toList_shape, toList_shape] at h
  obtain ⟨hsame, h⟩ := append_inj_of_isName hresult hresult' (hparenthesis _) (hparenthesis _) h
  refine ⟨String.toList_injective hsame, ?_⟩
  have h := intercalate_inj (List.forall_mem_map.2 htypes) (List.forall_mem_map.2 htypes')
    (List.append_cancel_right (List.cons.inj h).2)
  exact List.map_injective_iff.2 (fun _ _ => String.toList_injective) h

theorem mem_shape_parenthesis (result : String) (types : List String) :
    '(' ∈ (shape result types).toList := by
  rw [toList_shape]
  exact List.mem_append_right _ List.mem_cons_self

end Glsl

/-! ### Types of prototypes and signatures -/

/-- A prototype whose types have names. -/
structure Prototype.Readable (p : Prototype) : Prop where
  result : Glsl.isName p.result.toList = true
  argumentTypes : ∀ t ∈ p.argumentTypes, Glsl.isName t.toList = true

theorem Glsl.Scan.only_argumentType : Only (fun t => isName t.toList = true) argumentType :=
  only_typeName.bind fun _ htype => (only_any _).bind fun _ _ => only_pure htype

theorem Glsl.Scan.only_prototype : Only Prototype.Readable prototype :=
  only_typeName.bind fun _ hresult => (only_any _).bind fun _ _ => (only_any _).bind fun _ _ =>
    (only_any _).bind fun _ _ => (only_parenthesized only_argumentType).bind fun _ htypes =>
      (only_any _).bind fun _ _ => (only_any _).bind fun _ _ => only_pure ⟨hresult, htypes⟩

theorem Prototype.readable_of_mem_findAll {code : List Char} {p : Prototype}
    (h : p ∈ findAll code) : p.Readable := by
  obtain ⟨line, -, hline⟩ := List.mem_filterMap.1 h
  exact Glsl.Scan.only_prototype.scan? hline

theorem Signature.Readable.types {s : Signature} (h : s.Readable) :
    ∀ t ∈ s.arguments.map (·.type), Glsl.isName t.toList = true :=
  List.forall_mem_map.2 fun a ha => (h.arguments a ha).1

/-- A signature and a prototype that print the same have the same types. -/
theorem Signature.shape_eq_iff {s : Signature} {p : Prototype} (hs : s.Readable)
    (hp : p.Readable) :
    s.shape = p.shape ↔ s.result = p.result ∧ s.arguments.map (·.type) = p.argumentTypes :=
  Glsl.shape_inj hs.result hp.result hs.types hp.argumentTypes

/-- **Types that code or chains have**: those of a signature that is read from any text, those of a
prototype that is read from any text, and those that are derived for a chain of any members in any
graph of a session. -/
inductive Glsl.Produced : String → List String → Prop where
  | signature {code : List Char} {s : Signature}
      (h : Glsl.scan? Glsl.Scan.signature code = some s) :
      Produced s.result (s.arguments.map (·.type))
  | prototype {code : List Char} {p : Prototype}
      (h : Glsl.scan? Glsl.Scan.prototype code = some p) : Produced p.result p.argumentTypes
  | chain {σ : Session} (hσ : σ.Reachable) (k : Nat) {members : List ObjectId}
      {types : List Argument × String} (h : (σ.graphs k).deriveTypes members = .ok types) :
      Produced types.2 (types.1.map (·.type))

theorem Glsl.Produced.isName {result : String} {types : List String}
    (h : Glsl.Produced result types) :
    Glsl.isName result.toList = true ∧ ∀ t ∈ types, Glsl.isName t.toList = true := by
  cases h with
  | signature h =>
    have hread := Scan.only_signature.scan? h
    exact ⟨hread.result, hread.types⟩
  | prototype h =>
    have hread := Scan.only_prototype.scan? h
    exact ⟨hread.result, hread.argumentTypes⟩
  | chain hσ k h =>
    have hread := (hσ.readable k).readable_of_deriveTypes h "" false
    exact ⟨hread.result, hread.types⟩

end ShaderLink
