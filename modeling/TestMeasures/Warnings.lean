/-!
# Warnings for the reader of an analysis

Texts in the order they were first given; a text that is there already is not added again.
-/

namespace TestMeasures

/-- A new text behind distinct ones leaves them distinct. -/
theorem Warnings.distinct_concat {texts : List String} (h : texts.Nodup) {text : String} (hnew : text ∉ texts) :
    (texts ++ [text]).Nodup := by
  refine List.nodup_append.mpr ⟨h, List.pairwise_singleton _ text, fun held hheld added hadded heq => ?_⟩
  exact hnew (List.mem_singleton.mp hadded ▸ heq ▸ hheld)

/-- Distinct warning texts, oldest first. -/
@[ext]
structure Warnings where
  texts : List String
  distinct : texts.Nodup
deriving Repr, DecidableEq

namespace Warnings

/-- No warnings. -/
def empty : Warnings := ⟨[], List.nodup_nil⟩

instance : Inhabited Warnings := ⟨empty⟩

/-- Adds a text unless it is there. -/
def add (warnings : Warnings) (text : String) : Warnings :=
  if h : text ∈ warnings.texts then warnings
  else ⟨warnings.texts ++ [text], distinct_concat warnings.distinct h⟩

/-- The texts behind an addition. -/
theorem texts_add (warnings : Warnings) (text : String) :
    (warnings.add text).texts =
      if text ∈ warnings.texts then warnings.texts else warnings.texts ++ [text] := by
  unfold add
  split <;> rfl

/-- The number of texts. -/
def size (warnings : Warnings) : Nat :=
  warnings.texts.length

/-- Whether there is no text. -/
def isEmpty (warnings : Warnings) : Bool :=
  warnings.texts.isEmpty

end Warnings

end TestMeasures
