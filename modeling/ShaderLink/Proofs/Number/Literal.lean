import Mathlib.Data.List.Basic
import ShaderLink.Number.Single

/-!
# Numbers as shader code writes them

Shader code has literals for integers (`Glsl.IsIntegerLiteral`) and for floating-point numbers
(`Glsl.IsFloatLiteral`): the latter have a fraction, an exponent or both, and so can be told from the
former. It has no literals for infinity and for what is not a number.

Every decimal is written as such a literal, whatever the layout (`Layout.isUnsignedFloat_write`). So
is a number of 32 bits just if it is finite (`Single.isFloatLiteral_write_iff`); the others are
written as words (`Single.write_of_not_finite`).
-/

namespace ShaderLink

namespace Glsl

/-- Nothing, or a minus sign. -/
def IsSign (s : List Char) : Prop := s = [] ∨ s = ['-']

/-- **An integer**: digits, with a sign in front if it is negative. -/
def IsIntegerLiteral (s : List Char) : Prop :=
  ∃ sign digits, s = sign ++ digits ∧ IsSign sign ∧ isDigits digits = true

/-- Nothing, or digits behind a point. -/
def IsFraction (s : List Char) : Prop := s = [] ∨ ∃ digits, s = '.' :: digits ∧ isDigits digits = true

/-- Nothing, or an integer behind the letter `e`. -/
def IsExponent (s : List Char) : Prop := s = [] ∨ ∃ power, s = 'e' :: power ∧ IsIntegerLiteral power

/-- Digits with a fraction, an exponent or both. -/
def IsUnsignedFloat (s : List Char) : Prop :=
  ∃ whole fraction exponent, s = whole ++ fraction ++ exponent ∧ isDigits whole = true ∧
    IsFraction fraction ∧ IsExponent exponent ∧ ¬ (fraction = [] ∧ exponent = [])

/-- **A floating-point number**: digits with a fraction, an exponent or both, with a sign in front if
it is negative. -/
def IsFloatLiteral (s : List Char) : Prop :=
  ∃ sign number, s = sign ++ number ∧ IsSign sign ∧ IsUnsignedFloat number

/-- There is a digit in every literal. -/
theorem IsFloatLiteral.any_isDigit {s : List Char} (h : IsFloatLiteral s) :
    s.any Char.isDigit = true := by
  obtain ⟨sign, _, rfl, -, whole, fraction, exponent, rfl, hwhole, -⟩ := h
  cases whole with
  | nil => cases hwhole
  | cons c whole =>
    rw [isDigits, Bool.and_eq_true, List.all_cons, Bool.and_eq_true] at hwhole
    exact List.any_eq_true.2 ⟨c, by simp, hwhole.2.1⟩

end Glsl

/-! ### Digits -/

section Digits

variable {s t : List Char}

theorem isDigits_iff : isDigits s = true ↔ s ≠ [] ∧ ∀ c ∈ s, c.isDigit = true := by
  simp [isDigits, List.all_eq_true]

theorem isDigits_append_left (hs : isDigits s = true) (ht : ∀ c ∈ t, c.isDigit = true) :
    isDigits (s ++ t) = true := by
  obtain ⟨hne, hs⟩ := isDigits_iff.1 hs
  exact isDigits_iff.2 ⟨List.append_ne_nil_of_left_ne_nil hne t, List.forall_mem_append.2 ⟨hs, ht⟩⟩

theorem isDigits_append_right (hs : ∀ c ∈ s, c.isDigit = true) (ht : isDigits t = true) :
    isDigits (s ++ t) = true := by
  obtain ⟨hne, ht⟩ := isDigits_iff.1 ht
  exact isDigits_iff.2
    ⟨List.append_ne_nil_of_right_ne_nil s hne, List.forall_mem_append.2 ⟨hs, ht⟩⟩

theorem isDigits_toDigits (n : Nat) : isDigits (Nat.toDigits 10 n) = true :=
  isDigits_iff.2 ⟨Nat.toDigits_ne_nil, fun _ hc =>
    Nat.isDigit_of_mem_toDigits (by decide) (by decide) hc⟩

theorem isDigits_take {n : Nat} (hs : isDigits s = true) (hn : n ≠ 0) :
    isDigits (s.take n) = true := by
  obtain ⟨hne, hs⟩ := isDigits_iff.1 hs
  exact isDigits_iff.2 ⟨by simp [List.take_eq_nil_iff, hne, hn], fun c hc =>
    hs c (List.mem_of_mem_take hc)⟩

/-- The digits that are left are digits if there are any. -/
theorem isDigits_drop {n : Nat} (hs : isDigits s = true) (hne : s.drop n ≠ []) :
    isDigits (s.drop n) = true :=
  isDigits_iff.2 ⟨hne, fun c hc => (isDigits_iff.1 hs).2 c (List.mem_of_mem_drop hc)⟩

theorem isIntegerLiteral_toString (n : Int) : Glsl.IsIntegerLiteral (toString n).toList := by
  cases n with
  | ofNat n =>
    refine ⟨[], Nat.toDigits 10 n, ?_, .inl rfl, isDigits_toDigits n⟩
    exact Nat.toList_repr
  | negSucc n =>
    refine ⟨['-'], Nat.toDigits 10 (n + 1), ?_, .inr rfl, isDigits_toDigits (n + 1)⟩
    show ("-" ++ Nat.repr (n + 1)).toList = _
    rw [String.toList_append, Nat.toList_repr]
    rfl

end Digits

/-! ### Layouts -/

namespace Layout

open Glsl

variable {digits : List Char}

theorem isDigit_of_mem_zeros {n : Nat} : ∀ c ∈ zeros n, c.isDigit = true := fun c hc => by
  rw [List.eq_of_mem_replicate hc]
  decide

/-- A point has a digit on either side. -/
theorem isUnsignedFloat_positional (h : isDigits digits = true) (order : Int) :
    IsUnsignedFloat (positional digits order) := by
  unfold positional
  split
  · refine ⟨['0'], '.' :: (zeros (-order - 1).toNat ++ digits), [], by simp, by decide, ?_, .inl rfl,
      by simp⟩
    exact .inr ⟨_, rfl, isDigits_append_right isDigit_of_mem_zeros h⟩
  · have hwhole : isDigits (digits.take (order.toNat + 1) ++
        zeros (order.toNat + 1 - digits.length)) = true :=
      isDigits_append_left (isDigits_take h (Nat.succ_ne_zero _)) isDigit_of_mem_zeros
    refine ⟨_, '.' :: (if (digits.drop (order.toNat + 1)).isEmpty then ['0']
      else digits.drop (order.toNat + 1)), [], by simp, hwhole, .inr ⟨_, rfl, ?_⟩, .inl rfl, by simp⟩
    split
    · decide
    · next hne => exact isDigits_drop h (by simpa using hne)

theorem isUnsignedFloat_scientific (h : isDigits digits = true) (order : Int) :
    IsUnsignedFloat (scientific digits order) := by
  refine ⟨digits.take 1, if digits.length ≤ 1 then [] else '.' :: digits.drop 1,
    'e' :: (toString order).toList, rfl, isDigits_take h Nat.one_ne_zero, ?_,
    .inr ⟨_, rfl, isIntegerLiteral_toString order⟩, by simp⟩
  split
  · exact .inl rfl
  · next hmore =>
    refine .inr ⟨_, rfl, isDigits_drop h fun hnil => hmore ?_⟩
    exact List.drop_eq_nil_iff.1 hnil

/-- **Every decimal is written as a literal.** -/
theorem isUnsignedFloat_write (l : Layout) (d : Decimal) : IsUnsignedFloat (l.write d) := by
  unfold write
  dsimp only
  split
  · exact ⟨['0'], ['.', '0'], [], rfl, by decide, .inr ⟨['0'], rfl, by decide⟩, .inl rfl, by simp⟩
  · split
    · exact isUnsignedFloat_positional (isDigits_toDigits _) _
    · exact isUnsignedFloat_scientific (isDigits_toDigits _) _

end Layout

/-! ### Numbers of 32 bits -/

namespace Single

variable {x : Single}

/-- Neither infinity nor anything that is not a number. -/
def Finite : Single → Prop
  | nan => False
  | number _ rank => rank.val ≠ BinaryFormat.single.top

instance : (x : Single) → Decidable x.Finite
  | nan => inferInstanceAs (Decidable False)
  | number _ rank => inferInstanceAs (Decidable (rank.val ≠ BinaryFormat.single.top))

theorem isFloatLiteral_write (h : x.Finite) (l : Layout) : Glsl.IsFloatLiteral (x.write l) := by
  cases x with
  | nan => cases h
  | number negative rank =>
    refine ⟨if negative then ['-'] else [], _, rfl, ?_, ?_⟩
    · cases negative
      · exact .inl rfl
      · exact .inr rfl
    · rw [if_neg h]
      split <;> exact l.isUnsignedFloat_write _

/-- **What is not finite is written as a word.** -/
theorem write_of_not_finite (h : ¬ x.Finite) (l : Layout) :
    x.write l = "NaN".toList ∨ x.write l = "inf".toList ∨ x.write l = "-inf".toList := by
  cases x with
  | nan => exact .inl rfl
  | number negative rank =>
    have htop : rank.val = BinaryFormat.single.top := not_not.1 h
    rw [write, if_pos htop]
    cases negative
    · exact .inr (.inl rfl)
    · exact .inr (.inr rfl)

/-- **A number is written as a literal just if it is finite.** -/
theorem isFloatLiteral_write_iff (l : Layout) : Glsl.IsFloatLiteral (x.write l) ↔ x.Finite := by
  refine ⟨fun hliteral => ?_, fun h => isFloatLiteral_write h l⟩
  by_contra h
  -- there are no digits in the words
  have hdigit := hliteral.any_isDigit
  obtain hword | hword | hword := write_of_not_finite h l <;> rw [hword] at hdigit <;>
    exact absurd hdigit (by decide)

end Single

end ShaderLink
