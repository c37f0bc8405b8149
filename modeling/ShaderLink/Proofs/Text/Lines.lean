import Mathlib.Data.List.Basic
import ShaderLink.Text.Lines

/-!
# Lines of texts that are put together

A text without line feeds is a single line (`lines_of_not_mem`). The line starts of a text that goes
on with another one are its own, each with what follows it, and then those of the other one
(`afterLineFeeds_append`); so line starts can be counted piece by piece. The text has one line start
more than the text below its first line (`lineSuffixes_line`).
-/

namespace ShaderLink.Text

variable {s t : List Char} {c : Char}

/-- A text that is not empty and has no line feeds is one line. -/
theorem lines_of_not_mem (hne : s ≠ []) (h : '\n' ∉ s) : lines s = [s] := by
  induction s with
  | nil => exact absurd rfl hne
  | cons c s ih =>
    obtain ⟨hc, hs⟩ := not_or.1 (mt List.mem_cons.2 h)
    -- the first line goes on, since neither the first nor the second character is a line feed
    have hsecond : ∀ u, c = '\r' → s = '\n' :: u → False := by
      rintro u - rfl
      exact hs List.mem_cons_self
    rw [lines.eq_4 c s (fun h => hc h.symm) hsecond]
    cases s with
    | nil => rfl
    | cons d s => rw [ih (List.cons_ne_nil d s) hs]

theorem afterLineFeeds_append (s t : List Char) :
    afterLineFeeds (s ++ t) = (afterLineFeeds s).map (· ++ t) ++ afterLineFeeds t := by
  induction s with
  | nil => rfl
  | cons c s ih =>
    rw [List.cons_append, afterLineFeeds, afterLineFeeds]
    split
    · rw [ih]
      rfl
    · exact ih

theorem afterLineFeeds_of_not_mem (h : '\n' ∉ s) : afterLineFeeds s = [] := by
  induction s with
  | nil => rfl
  | cons c s ih =>
    obtain ⟨hc, hs⟩ := not_or.1 (mt List.mem_cons.2 h)
    rw [afterLineFeeds, if_neg (Ne.symm hc), ih hs]

/-- The text behind a line feed is an end of the text. -/
theorem suffix_of_mem_afterLineFeeds (h : t ∈ afterLineFeeds s) : t <:+ s := by
  induction s with
  | nil => cases h
  | cons c s ih =>
    rw [afterLineFeeds] at h
    split at h
    · obtain rfl | h := List.mem_cons.1 h
      · exact List.suffix_cons c t
      · exact (ih h).trans (List.suffix_cons c s)
    · exact (ih h).trans (List.suffix_cons c s)

theorem lineSuffixes_line (h : '\n' ∉ s) (t : List Char) :
    lineSuffixes (s ++ '\n' :: t) = (s ++ '\n' :: t) :: lineSuffixes t := by
  rw [lineSuffixes, afterLineFeeds_append, afterLineFeeds_of_not_mem h, afterLineFeeds, if_pos rfl]
  rfl

end ShaderLink.Text
