import ShaderLink.Proofs.LastGiven
import ShaderLink.Proofs.Object.WellFormed

/-!
# Functions and their replacements

What is read from the code of a function is stored with it: template, placeholders and static names.
A function is **current** (`Snippet.Current`) if they are what its code has with all replacements
made, and only placeholders are bound. The signature is the one of the code without replacements.

Functions are current when they are made (`Snippet.current_of_ofCode`), and stay so whatever is done
to them: binding, unbinding and requiring leave alone what was read (`Snippet.Adjusted`), and
replacing reads it again (`Snippet.Current.replace`). Replacements are kept in the order in which
they were first given, each with the text given last, since giving one more puts it in place
(`Snippet.replace_cases`).
-/

namespace ShaderLink.Snippet

variable {s s' : Snippet} {find text : String} {lost : List ObjectId}

/-- **What is done to a function besides replacing**: something is bound to it or unbound, or other
objects are required. -/
inductive Adjusted : Snippet → Snippet → Prop where
  | bind {s s' : Snippet} {placeholder : String} {object : ObjectId}
      (h : s.bind placeholder object = .ok (some s')) : Adjusted s s'
  | unbind (s : Snippet) (placeholder : String) : Adjusted s (s.unbind placeholder)
  | requiring (s : Snippet) (requires : List ObjectId) : Adjusted s { s with requires }

/-- Only bindings and what is required differ. -/
theorem Adjusted.eq (h : s.Adjusted s') :
    s' = { s with bindings := s'.bindings, requires := s'.requires } := by
  cases h with
  | bind h =>
    obtain ⟨rfl, -, -⟩ := bind_eq_some h
    rfl
  | unbind placeholder => rfl
  | requiring requires => rfl

/-- What is bound was bound before, or a placeholder. -/
theorem Adjusted.bound (h : s.Adjusted s') {p : String} (hp : s'.bindings.contains p = true) :
    p ∈ s.placeholders ∨ s.bindings.contains p = true := by
  cases h with
  | @bind _ placeholder object h =>
    obtain ⟨rfl, hplaceholder, -⟩ := bind_eq_some h
    rw [Std.ExtTreeMap.contains_insert, Bool.or_eq_true] at hp
    refine hp.imp (fun heq => ?_) id
    obtain rfl : placeholder = p := by simpa using heq
    exact hplaceholder
  | unbind placeholder =>
    rw [Snippet.unbind, Std.ExtTreeMap.contains_erase, Bool.and_eq_true] at hp
    exact .inr hp.2
  | requiring requires => exact .inr hp

theorem setReplacement_eq_put (find text : String) (l : List (String × String)) :
    setReplacement find text l = put find text l := by
  induction l with
  | nil => rfl
  | cons p l ih => rw [setReplacement, put, ih]

/-- The names of the arguments of a signature, then those of the variables that code declares, each
once. -/
def namesIn (signature : Signature) (code : String) : List String :=
  (signature.arguments.map (·.name) ++
    (ProgramVariable.findAll code.toList).map (·.name)).eraseDups

theorem mem_namesIn {signature : Signature} {code n : String} :
    n ∈ namesIn signature code ↔ (∃ a ∈ signature.arguments, a.name = n) ∨
      ∃ v ∈ ProgramVariable.findAll code.toList, v.name = n := by
  simp [namesIn]

/-- **A function in which what was read is what its code has with all replacements made.** -/
structure Current (s : Snippet) : Prop where
  dedented : ∃ source, Text.dedent source = some s.code.toList
  signature : Signature.parse s.code = .ok s.signature
  template : s.template = Template.parse s.replacedCode
  placeholders : s.placeholders = s.template.placeholders.filter (!s.isOwnName ·)
  staticNames : s.staticNames = namesIn s.signature s.replacedCode
  bound : ∀ p, s.bindings.contains p = true → p ∈ s.placeholders
  nodup : (s.replacements.map (·.1)).Nodup

/-- A function that was just made has the dedented code and no replacements. -/
theorem current_of_ofCode {code : String} (h : ofCode code = .ok s) :
    Text.dedent code.toList = some s.code.toList ∧ s.replacements = [] ∧ s.Current := by
  obtain ⟨dedented, signature, hdedent, hparse, rfl⟩ := ofCode_eq_ok_iff.1 h
  have hcode : Text.dedent code.toList = some (String.ofList dedented).toList := by
    rw [String.toList_ofList]
    exact hdedent
  exact ⟨hcode, rfl, ⟨_, hcode⟩, hparse, rfl, rfl, rfl, by simp [ofSignature, read], List.nodup_nil⟩

/-- What is done besides replacing keeps a function current. -/
theorem Current.adjust (h : s.Current) (hadjusted : s.Adjusted s') : s'.Current := by
  have hbound : ∀ p, s'.bindings.contains p = true → p ∈ s.placeholders :=
    fun p hp => (hadjusted.bound hp).elim id (h.bound p)
  rw [hadjusted.eq]
  exact { h with bound := hbound }

/-- A replacement that is there already leaves the replacements as they are. -/
theorem put_of_replace_eq_none (h : s.replace find text = none) :
    put find text s.replacements = s.replacements := by
  unfold replace at h
  split at h
  · next hany =>
    obtain ⟨p, hp, htext⟩ := (Option.any_eq_true _ _).1 hany
    obtain rfl : p.2 = text := by simpa using htext
    exact put_of_find? hp
  · cases h

theorem getElem?_filter_mem (m : Std.ExtTreeMap String ObjectId) (l : List String) (p : String) :
    (m.filter fun q _ => q ∈ l)[p]? = if p ∈ l then m[p]? else none := by
  rw [Std.ExtTreeMap.getElem?_filter']
  cases m[p]? with
  | none => simp
  | some x => by_cases hp : p ∈ l <;> simp [hp]

/-- **Replacing** puts the replacement in place and keeps the bindings of the placeholders that are
still there. Code and signature stay what they were. -/
theorem replace_cases (h : s.replace find text = some (s', lost)) :
    s'.code = s.code ∧ s'.signature = s.signature ∧
      s'.replacements = put find text s.replacements ∧
      ∀ p, s'.bindings[p]? = if p ∈ s'.placeholders then s.bindings[p]? else none := by
  unfold replace at h
  split at h
  · cases h
  · cases h
    exact ⟨rfl, rfl, setReplacement_eq_put .., getElem?_filter_mem s.bindings _⟩

/-- Replacing reads everything again. -/
theorem Current.replace (h : s.Current) (hr : s.replace find text = some (s', lost)) :
    s'.Current := by
  have hbound := (replace_eq_some hr).1.bound
  obtain ⟨hcode, hsignature, hreplacements, -⟩ := replace_cases hr
  have hread : s'.template = Template.parse s'.replacedCode ∧ s'.staticNames =
      namesIn s'.signature s'.replacedCode := by
    unfold Snippet.replace at hr
    split at hr
    · cases hr
    · cases hr
      exact ⟨rfl, rfl⟩
  refine ⟨hcode ▸ h.dedented, ?_, hread.1, (replace_eq_some hr).1.placeholders_eq, hread.2, hbound,
    hreplacements ▸ nodup_keys_put h.nodup find text⟩
  rw [hcode, hsignature]
  exact h.signature

end ShaderLink.Snippet
