/-!
# Verbatim replacement

`Text.replace find put s` puts one text in the place of every occurrence of another. Occurrences
are taken from left to right and do not overlap. The empty text occurs before every character and
at the end.
-/

namespace ShaderLink.Text

/-- Replaces the occurrences of a text that is not empty. The number says how many characters
still belong to the occurrence that was just replaced. -/
def replaceFrom (find put : List Char) : Nat → List Char → List Char
  | _, [] => []
  | rest + 1, _ :: s => replaceFrom find put rest s
  | 0, c :: s =>
    if find.isPrefixOf (c :: s) then put ++ replaceFrom find put (find.length - 1) s
    else c :: replaceFrom find put 0 s

/-- The text `s` with `put` in place of every occurrence of `find`. -/
def replace (find put s : List Char) : List Char :=
  match find with
  | [] => put ++ s.flatMap fun c => c :: put
  | _ :: _ => replaceFrom find put 0 s

example : replace ['a', 'a'] ['b'] ['a', 'a', 'a', 'c', 'a', 'a'] = ['b', 'a', 'c', 'b'] := by
  decide
example : replace [] ['-'] ['x', 'y'] = ['-', 'x', '-', 'y', '-'] := by decide

/-- A text that does not hold the first character of `find` stays as it is. -/
theorem replaceFrom_of_not_mem {f : Char} {find put s : List Char} (h : f ∉ s) :
    replaceFrom (f :: find) put 0 s = s := by
  induction s with
  | nil => rfl
  | cons c s ih =>
    have hc : ¬ f = c := fun e => h (by simp [e])
    simp [replaceFrom, List.isPrefixOf, hc, ih (fun m => h (List.mem_cons_of_mem _ m))]

end ShaderLink.Text
