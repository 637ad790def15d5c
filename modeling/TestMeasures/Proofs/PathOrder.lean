import Mathlib.Data.List.Basic
import TestMeasures.Measure.Store
import TestMeasures.Results.Table

/-!
# The order of paths and of table keys

`Path.order` compares keys that the components of a path determine. `Path.order_eq_iff` says that it
answers `eq` exactly for two spellings of the same components, and `ResultKey.order_file_eq_iff` says the
same of the keys of files. `Component.same_equivalence` is what blocks of measures are told apart by.
-/

namespace TestMeasures

namespace Path

/-- The rank of a component tells which one it is. -/
theorem Component.rank_injective : Function.Injective Component.rank := by
  intro a b h
  cases a with
  | name text =>
      cases b with
      | name other =>
          have hchars : text.toList.map Char.toNat = other.toList.map Char.toNat := by
            simpa [Component.rank] using h
          have hinj : Function.Injective Char.toNat := fun _ _ => Char.toNat_inj.mp
          rw [String.toList_injective (List.map_injective_iff.mpr hinj hchars)]
      | root | current | parent => simp [Component.rank] at h
  | root | current | parent => cases b <;> first | rfl | simp [Component.rank] at h

/-- Sort keys agree exactly when components do. -/
theorem sort_key_eq_iff {a b : Path} : a.sortKey = b.sortKey ↔ a.components = b.components :=
  ⟨fun h => List.map_injective_iff.mpr Component.rank_injective h, congrArg _⟩

/-- Two paths have the same place in the order exactly when their components agree. -/
theorem order_eq_iff {a b : Path} : a.order b = .eq ↔ a.components = b.components := by
  rw [order, Std.LawfulEqCmp.compare_eq_iff_eq, sort_key_eq_iff]

/-- Being the same path is having the same components. -/
theorem same_iff {a b : Path} : a.same b = true ↔ a.components = b.components := by
  rw [same, beq_iff_eq]

end Path

namespace ResultKey

/-- A key has the same place in the order as itself. -/
@[simp]
theorem order_self (key : ResultKey) : key.order key = .eq := Std.ReflCmp.compare_self

/-- Two file keys have the same place exactly when their paths have the same components. -/
theorem order_file_eq_iff {a b : Path} :
    (file a).order (file b) = .eq ↔ a.components = b.components :=
  Path.order_eq_iff

end ResultKey

namespace Component

/-- Two file components are the same exactly when their paths have the same components. -/
theorem same_file_iff {a b : Path} :
    (file a).same (file b) = true ↔ a.components = b.components :=
  Path.same_iff

/-- Being the same component is an equivalence. -/
theorem same_equivalence : Equivalence fun a b : Component => a.same b = true where
  refl a := by cases a <;> simp [same, Path.same]
  symm {a b} h := by
    cases a <;> cases b <;> simp only [same, Path.same, beq_iff_eq, Bool.false_eq_true] at h ⊢ <;>
      exact h.symm
  trans {a b c} hab hbc := by
    cases a <;> cases b <;> cases c <;>
      simp only [same, Path.same, beq_iff_eq, Bool.false_eq_true] at hab hbc ⊢ <;>
      exact hab.trans hbc

end Component

end TestMeasures
