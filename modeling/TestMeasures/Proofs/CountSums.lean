import Mathlib.Algebra.BigOperators.Group.List.Basic
import TestMeasures.Results.Counts

/-!
# Sums of counts

Counts that stop at their limit are a commutative monoid, and so are accumulated counts, field by field.
Sums of counts therefore depend neither on the order nor on the grouping of their items.
-/

namespace TestMeasures

namespace Count

/-- Counts can be added in either order. -/
theorem add_comm (a b : Count) : a + b = b + a := by
  ext
  simp only [val_add, Nat.add_comm]

/-- Counts can be added in any grouping. -/
theorem add_assoc (a b c : Count) : a + b + c = a + (b + c) := by
  ext
  -- Whichever sum stops at the limit first, both sides come to the smaller of the limit and the true sum.
  simp only [val_add]
  omega

/-- Zero adds nothing to a count. -/
theorem zero_add (a : Count) : 0 + a = a := by
  ext
  -- Only the bound that a count carries keeps the sum from being cut.
  have hle := a.le_limit
  simp only [val_add, val_zero]
  omega

instance : AddCommMonoid Count where
  add_assoc := add_assoc
  zero_add := zero_add
  add_zero a := (add_comm a 0).trans (zero_add a)
  add_comm := add_comm
  nsmul := nsmulRec

/-- Counting `n` times one item gives the count nearest to `n`. -/
theorem sum_replicate_one (n : Nat) : (List.replicate n (1 : Count)).sum = clamp n := by
  induction n with
  | zero => rfl
  | succ n ih =>
      ext
      rw [List.replicate_succ, List.sum_cons, ih]
      simp only [val_add, val_one, clamp, limit]
      omega

end Count

namespace Counts

/-- Optional times are added as optional counts, a missing one being neutral. -/
theorem add_time_eq_merge (a b : Option Count) : addTime a b = Option.merge (· + ·) a b := by
  cases a with
  | none =>
      cases b with
      | none => rfl
      | some time => exact congrArg some (Count.zero_add time)
  | some time =>
      cases b with
      | none => exact congrArg some (add_zero time)
      | some other => rfl

/-- Counts of tests are equal when their fields are. -/
@[ext]
theorem ext {a b : Counts} (htests : a.tests = b.tests) (hskipped : a.skipped = b.skipped)
    (hfailures : a.failures = b.failures) (herrors : a.errors = b.errors)
    (htime : a.time = b.time) : a = b := by
  cases a
  cases b
  simp_all

/-- The tests of a sum are added up. -/
@[simp]
theorem tests_add (a b : Counts) : (a + b).tests = a.tests + b.tests := rfl

/-- The skipped tests of a sum are added up. -/
@[simp]
theorem skipped_add (a b : Counts) : (a + b).skipped = a.skipped + b.skipped := rfl

/-- The failures of a sum are added up. -/
@[simp]
theorem failures_add (a b : Counts) : (a + b).failures = a.failures + b.failures := rfl

/-- The errors of a sum are added up. -/
@[simp]
theorem errors_add (a b : Counts) : (a + b).errors = a.errors + b.errors := rfl

/-- The time of a sum is the sum of the times that there are. -/
@[simp]
theorem time_add (a b : Counts) : (a + b).time = Option.merge (· + ·) a.time b.time :=
  add_time_eq_merge a.time b.time

instance : Zero Counts := ⟨empty⟩

/-- Counts of tests can be added in either order. -/
theorem add_comm (a b : Counts) : a + b = b + a := by
  ext1 <;> simp only [tests_add, skipped_add, failures_add, errors_add, time_add]
  case htime => exact @Std.Commutative.comm _ (Option.merge (· + ·)) _ a.time b.time
  all_goals exact Count.add_comm _ _

/-- Counts of tests can be added in any grouping. -/
theorem add_assoc (a b c : Counts) : a + b + c = a + (b + c) := by
  ext1 <;> simp only [tests_add, skipped_add, failures_add, errors_add, time_add]
  case htime =>
    exact @Std.Associative.assoc _ (Option.merge (· + ·)) _ a.time b.time c.time
  all_goals exact Count.add_assoc _ _ _

/-- Counts of nothing add nothing. -/
theorem zero_add (a : Counts) : 0 + a = a := by
  ext1
  case htime =>
    rw [time_add]
    cases a.time <;> rfl
  all_goals exact Count.zero_add _

instance : AddCommMonoid Counts where
  add_assoc := add_assoc
  zero_add := zero_add
  add_zero a := (add_comm a 0).trans (zero_add a)
  add_comm := add_comm
  nsmul := nsmulRec

/-- Adding up counts from the left is their sum in the monoid. -/
theorem sum_eq (items : List Counts) : sum items = items.sum :=
  List.sum_eq_foldl.symm

end Counts

end TestMeasures
