import Mathlib.Data.List.TakeWhile
import TestMeasures.Text.Blank

/-!
# Texts without blanks at their ends, and texts in parts

Blanks are removed at the ends of a text and nowhere else (`trim_chars_around`, `exists_trim_chars`), and a text is
cut at every separator and nowhere else (`split_chars_at`, `intercalate_split_chars`).
-/

namespace TestMeasures

section ends

variable {p : Char → Bool} {front chars back : List Char}

/-- Nothing is dropped from characters whose last one stays. -/
theorem drop_trailing_eq_self (h : ∀ c ∈ chars.getLast?, p c = false) :
    Text.dropTrailing p chars = chars := by
  unfold Text.dropTrailing
  rw [List.getLast?_eq_head?_reverse] at h
  cases hreverse : chars.reverse with
  | nil =>
      rw [List.reverse_eq_nil_iff.mp hreverse]
      rfl
  | cons c others =>
      rw [hreverse] at h
      rw [List.dropWhile_cons_of_neg (by simp [h c rfl]), ← hreverse, List.reverse_reverse]

/-- Dropping at the end takes all that is dropped there. -/
theorem drop_trailing_append (hback : ∀ c ∈ back, p c = true) (chars : List Char) :
    Text.dropTrailing p (chars ++ back) = Text.dropTrailing p chars := by
  unfold Text.dropTrailing
  rw [List.reverse_append, List.dropWhile_append_of_pos fun c hc => hback c (List.mem_reverse.mp hc)]

/-- Blanks around a text without blanks are removed. -/
theorem trim_chars_around (hfront : ∀ c ∈ front, Text.isBlank c = true)
    (hchars : ∀ c ∈ chars, Text.isBlank c = false) (hback : ∀ c ∈ back, Text.isBlank c = true) :
    Text.trimChars (front ++ (chars ++ back)) = chars := by
  unfold Text.trimChars
  rw [List.dropWhile_append_of_pos hfront]
  cases chars with
  | nil =>
      rw [List.nil_append, List.dropWhile_eq_nil_iff.mpr hback]
      rfl
  | cons c more =>
      rw [List.cons_append, List.dropWhile_cons_of_neg (by simp [hchars c List.mem_cons_self]), ← List.cons_append,
        drop_trailing_append hback, drop_trailing_eq_self fun c hc => hchars c (List.mem_of_getLast? hc)]

/-- A text without blanks has none at its ends. -/
theorem trim_chars_of_no_blank (h : ∀ c ∈ chars, Text.isBlank c = false) : Text.trimChars chars = chars := by
  have haround := @trim_chars_around [] chars [] nofun h nofun
  rwa [List.nil_append, List.append_nil] at haround

/-- What is removed around a text are blanks. -/
theorem exists_trim_chars (chars : List Char) : ∃ front back, chars = front ++ (Text.trimChars chars ++ back) ∧
    (∀ c ∈ front, Text.isBlank c = true) ∧ ∀ c ∈ back, Text.isBlank c = true := by
  refine ⟨chars.takeWhile Text.isBlank, ((chars.dropWhile Text.isBlank).reverse.takeWhile Text.isBlank).reverse, ?_,
    fun c hc => List.mem_takeWhile_imp hc, fun c hc => List.mem_takeWhile_imp (List.mem_reverse.mp hc)⟩
  unfold Text.trimChars Text.dropTrailing
  rw [← List.reverse_append, List.takeWhile_append_dropWhile, List.reverse_reverse, List.takeWhile_append_dropWhile]

end ends

section parts

/-- A text without a separator is one part. -/
theorem split_chars_of_not_mem {separator : Char} {chars : List Char} (h : separator ∉ chars) :
    Text.splitChars separator chars = [chars] := by
  induction chars with
  | nil => rfl
  | cons c chars ih =>
      obtain ⟨hc, hchars⟩ : separator ≠ c ∧ separator ∉ chars := by simpa using h
      rw [Text.splitChars, if_neg hc.symm, ih hchars]

/-- A cut at a separator leaves what is in front of it whole. -/
theorem split_chars_at {separator : Char} {part : List Char} (h : separator ∉ part) (rest : List Char) :
    Text.splitChars separator (part ++ separator :: rest) = part :: Text.splitChars separator rest := by
  induction part with
  | nil => rw [List.nil_append, Text.splitChars, if_pos rfl]
  | cons c part ih =>
      obtain ⟨hc, hpart⟩ : separator ≠ c ∧ separator ∉ part := by simpa using h
      rw [List.cons_append, Text.splitChars, if_neg hc.symm, ih hpart]

/-- Splitting leaves at least one part. -/
theorem split_chars_ne_nil (separator : Char) (chars : List Char) : Text.splitChars separator chars ≠ [] := by
  cases chars with
  | nil => exact List.cons_ne_nil _ _
  | cons c chars =>
      unfold Text.splitChars
      split
      · exact List.cons_ne_nil _ _
      · split <;> exact List.cons_ne_nil _ _

/-- The parts that a text is cut into make it up, with the separator between them. -/
theorem intercalate_split_chars (separator : Char) (chars : List Char) :
    List.intercalate [separator] (Text.splitChars separator chars) = chars := by
  induction chars with
  | nil => rfl
  | cons c chars ih =>
      obtain ⟨part, parts, hparts⟩ := List.exists_cons_of_ne_nil (split_chars_ne_nil separator chars)
      rw [hparts] at ih
      rw [Text.splitChars, hparts]
      split
      case isTrue heq =>
        rw [List.intercalate_cons_cons, ih, heq]
        rfl
      case isFalse =>
        show List.intercalate [separator] ((c :: part) :: parts) = c :: chars
        rw [← ih]
        cases parts with
        | nil => simp
        | cons => simp [List.intercalate_cons_cons]

end parts

end TestMeasures
