import ShaderLink.Proofs.Text.Indentation

/-!
# Where texts are cut

A text is cut behind a number of bytes, and the cut is good unless it goes behind the end or through
a character (`dropBytes_eq_none_iff`). What a good cut leaves is an end of the text, and every end
of a text is left by one (`exists_dropBytes_iff`).

Lines start behind line feeds. These have one byte, so the cuts at line starts are always good
(`map_dropBytes_lineStarts`).

The common indentation is measured on one line and cut off all of them. Where blanks of different
widths meet it can go through a blank of another line, and there is no dedented text then
(`SplitsCharacter`, `dedent_eq_none_iff`). Nothing else can go wrong: the lines that are too short
for the cut are not cut. Blanks that all have the same width cannot be split, whatever that width is
(`not_splitsCharacter_of_width`).
-/

namespace ShaderLink.Text

variable {s t line : List Char} {c : Char} {n w : Nat}

/-! ### Good cuts -/

/-- The cut behind `n` bytes goes through a character of the text. -/
def CutsThrough (n : Nat) (s : List Char) : Prop :=
  ∃ front c back, s = front ++ c :: back ∧ byteLength front < n ∧ n < byteLength front + c.utf8Size

theorem CutsThrough.lt_byteLength (h : CutsThrough n s) : n < byteLength s := by
  obtain ⟨front, c, back, rfl, -, hlt⟩ := h
  rw [byteLength_append, byteLength_cons]
  omega

theorem not_cutsThrough_zero (s : List Char) : ¬ CutsThrough 0 s := by
  rintro ⟨front, c, back, -, hlt, -⟩
  exact Nat.not_lt_zero _ hlt

/-- A cut goes through the first character, or it goes through one of those behind it. -/
theorem cutsThrough_cons : CutsThrough n (c :: s) ↔
    0 < n ∧ n < c.utf8Size ∨ c.utf8Size ≤ n ∧ CutsThrough (n - c.utf8Size) s := by
  constructor
  · rintro ⟨front, d, back, hsplit, hlow, hhigh⟩
    cases front with
    | nil =>
      obtain ⟨rfl, -⟩ := List.cons.inj hsplit
      exact .inl ⟨hlow, by simpa [byteLength] using hhigh⟩
    | cons e front =>
      obtain ⟨rfl, rfl⟩ := List.cons.inj hsplit
      rw [byteLength_cons] at hlow hhigh
      exact .inr ⟨by omega, front, d, back, rfl, by omega, by omega⟩
  · rintro (⟨hlow, hhigh⟩ | ⟨hle, front, d, back, rfl, hlow, hhigh⟩)
    · exact ⟨[], c, s, rfl, hlow, by simpa [byteLength] using hhigh⟩
    · refine ⟨c :: front, d, back, rfl, ?_, ?_⟩ <;> rw [byteLength_cons] <;> omega

/-- **A cut is good** unless it goes behind the end of the text or through one of its characters. -/
theorem dropBytes_eq_none_iff : dropBytes n s = none ↔ byteLength s < n ∨ CutsThrough n s := by
  induction n, s using dropBytes.induct with
  | case1 s =>
    have hnot := not_cutsThrough_zero s
    simp [dropBytes, hnot]
  | case2 n =>
    have hempty : byteLength [] < n + 1 := Nat.succ_pos n
    simp [dropBytes, hempty]
  | case3 n c s hle ih =>
    -- the first character is in front of the cut, which goes on in the rest of the text
    rw [dropBytes, if_pos hle, ih, cutsThrough_cons, byteLength_cons]
    have hshort : byteLength s < n + 1 - c.utf8Size ↔ c.utf8Size + byteLength s < n + 1 := by omega
    have hfirst : ¬ (0 < n + 1 ∧ n + 1 < c.utf8Size) := by omega
    rw [hshort, or_iff_right hfirst, and_iff_right hle]
  | case4 n c s hlt =>
    -- the cut goes through the first character
    rw [dropBytes, if_neg hlt, cutsThrough_cons]
    have hfirst : 0 < n + 1 ∧ n + 1 < c.utf8Size := ⟨Nat.succ_pos n, Nat.lt_of_not_le hlt⟩
    simp [hfirst]

/-- **What a cut leaves** is an end of the text. -/
theorem exists_dropBytes_iff : (∃ n, dropBytes n s = some t) ↔ t <:+ s := by
  constructor
  · rintro ⟨n, h⟩
    obtain ⟨u, rfl, -⟩ := dropBytes_eq_some h
    exact List.suffix_append u t
  · rintro ⟨u, rfl⟩
    exact ⟨byteLength u, dropBytes_append u t⟩

/-! ### Line starts -/

/-- The byte offsets of the line feeds of a text that starts behind `n` bytes. -/
def feedOffsets : Nat → List Char → List Nat
  | _, [] => []
  | n, c :: s => (if c = '\n' then [n] else []) ++ feedOffsets (n + c.utf8Size) s

/-- The byte offsets at which lines start: the beginning, and one byte behind every line feed. -/
def lineStarts (s : List Char) : List Nat := 0 :: (feedOffsets 0 s).map (· + 1)

theorem map_dropBytes_feedOffsets (front s : List Char) :
    (feedOffsets (byteLength front) s).map (fun n => dropBytes (n + 1) (front ++ s)) =
      (afterLineFeeds s).map some := by
  induction s generalizing front with
  | nil => rfl
  | cons c s ih =>
    -- the first character joins the text in front
    have hbytes : byteLength (front ++ [c]) = byteLength front + c.utf8Size := byteLength_append _ _
    have htext : front ++ c :: s = (front ++ [c]) ++ s := (List.append_cons front c s)
    rw [feedOffsets, afterLineFeeds, List.map_append, htext, ← hbytes, ih (front ++ [c])]
    by_cases hc : c = '\n'
    · subst hc
      have hcut : dropBytes (byteLength front + 1) ((front ++ ['\n']) ++ s) = some s := by
        rw [← dropBytes_append (front ++ ['\n']) s, hbytes]
        rfl
      rw [if_pos rfl, if_pos rfl, List.map_singleton, hcut]
      rfl
    · rw [if_neg hc, if_neg hc]
      rfl

/-- **The cuts at line starts are good**, and leave the text from there on. -/
theorem map_dropBytes_lineStarts (s : List Char) :
    (lineStarts s).map (dropBytes · s) = (lineSuffixes s).map some := by
  rw [lineStarts, lineSuffixes, List.map_cons, List.map_cons, List.map_map]
  exact congrArg₂ List.cons (dropBytes_append [] s) (map_dropBytes_feedOffsets [] s)

/-! ### Cutting off the indentation -/

/-- Lines that are too short for the cut are not cut, so only characters can be in the way. -/
theorem unindent_eq_none_iff : unindent n line = none ↔ CutsThrough n line := by
  unfold unindent
  split
  · next hle => rw [dropBytes_eq_none_iff, or_iff_right (Nat.not_lt.2 hle)]
  · next hlt => exact ⟨nofun, fun h => absurd h.lt_byteLength.le hlt⟩

theorem mapM_eq_none_iff {α β : Type} {f : α → Option β} {as : List α} :
    as.mapM f = none ↔ ∃ a ∈ as, f a = none := by
  induction as with
  | nil => exact ⟨nofun, fun ⟨a, ha, _⟩ => absurd ha List.not_mem_nil⟩
  | cons a as ih =>
    rw [List.mapM_cons]
    cases ha : f a with
    | none => simp [ha]
    | some b =>
      cases has : as.mapM f with
      | none => simp [ha, ih.1 has]
      | some bs =>
        have hnot : ¬ ∃ a ∈ as, f a = none := fun h => by
          rw [ih.2 h] at has
          cases has
        simpa [ha] using hnot

/-- The common indentation of code goes through a character of one of the lines that it is cut off:
those from the first to the last that is not blank. -/
def SplitsCharacter (code : List Char) : Prop :=
  ∃ line ∈ innerLines (lines code), CutsThrough (commonIndentation (innerLines (lines code))) line

/-- **There is a dedented text** unless the common indentation goes through a character. -/
theorem dedent_eq_none_iff : dedent s = none ↔ SplitsCharacter s := by
  have hmap : dedent s = ((innerLines (lines s)).mapM
      (unindent (commonIndentation (innerLines (lines s))))).map ['\n'].intercalate := by
    rw [dedent, Option.map_eq_bind]
    rfl
  rw [hmap, Option.map_eq_none_iff, mapM_eq_none_iff]
  exact exists_congr fun line => and_congr_right fun _ => unindent_eq_none_iff

/-! ### Blanks of one width -/

/-- No cut behind a number of whole characters goes through one. -/
theorem not_cutsThrough_of_width (h : ∀ c ∈ s, c.utf8Size = w) (k : Nat) :
    ¬ CutsThrough (k * w) s := by
  rintro ⟨front, c, back, rfl, hlow, hhigh⟩
  have hfront : byteLength front = front.length * w :=
    byteLength_of_width fun d hd => h d (List.mem_append_left _ hd)
  have hc : c.utf8Size = w := h c (List.mem_append_right _ List.mem_cons_self)
  rw [hfront] at hlow hhigh
  rw [hc, ← Nat.succ_mul] at hhigh
  -- the cut would be behind more than the characters in front, and less than one more
  have hmore : front.length < k := Nat.lt_of_mul_lt_mul_right hlow
  have hless : k < front.length + 1 := Nat.lt_of_mul_lt_mul_right hhigh
  omega

theorem CutsThrough.of_append (h : CutsThrough n (s ++ t)) (hn : n ≤ byteLength s) :
    CutsThrough n s := by
  obtain ⟨front, c, back, hsplit, hlow, hhigh⟩ := h
  obtain ⟨u, rfl, -⟩ | ⟨u, rfl, hback⟩ := List.append_eq_append_iff.1 hsplit
  · -- the character would be behind the cut
    rw [byteLength_append] at hlow
    omega
  · cases u with
    | nil =>
      rw [List.append_nil] at hn
      omega
    | cons d u =>
      obtain ⟨rfl, -⟩ := List.cons.inj hback
      exact ⟨front, c, u, rfl, hlow, hhigh⟩

/-- The common indentation goes through nothing but blanks that a line starts with. -/
theorem CutsThrough.takeWhile_isBlank (h : CutsThrough n line)
    (hn : isBlankLine line = false → n ≤ indentation line) :
    CutsThrough n (line.takeWhile isBlank) := by
  cases hblank : isBlankLine line with
  | true =>
    rwa [List.takeWhile_eq_self_iff.2 (List.all_eq_true.1 hblank)]
  | false =>
    rw [← List.takeWhile_append_dropWhile (p := isBlank) (l := line)] at h
    exact h.of_append (hn hblank)

/-- **Blanks of one width are not split.** -/
theorem not_splitsCharacter_of_width
    (h : ∀ line ∈ lines s, ∀ c ∈ line.takeWhile isBlank, c.utf8Size = w) : ¬ SplitsCharacter s := by
  rintro ⟨line, hline, hcut⟩
  have hmargin : ∀ m ∈ innerLines (lines s), ∀ c ∈ m.takeWhile isBlank, c.utf8Size = w :=
    fun m hm => h m (mem_of_mem_innerLines hm)
  -- the common indentation is that of some line, so it is a number of whole blanks
  obtain ⟨l, hl, hink⟩ := (inkAtEnds_innerLines (lines s)).exists_mem (List.ne_nil_of_mem hline)
  obtain ⟨m, hm, -, hindentation⟩ := exists_indentation_eq hl hink
  have hwidth : commonIndentation (innerLines (lines s)) = (m.takeWhile isBlank).length * w := by
    rw [← hindentation, indentation, byteLength_of_width (hmargin m hm)]
  have hblanks := hcut.takeWhile_isBlank fun hblank => commonIndentation_le hline hblank
  rw [hwidth] at hblanks
  exact not_cutsThrough_of_width (hmargin line hline) _ hblanks

end ShaderLink.Text
