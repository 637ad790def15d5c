/-!
# Counts that stop at their limit

A count is a natural number below 2⁶⁴. Adding two counts keeps the largest count once the exact sum
leaves the range, so addition is commutative and associative and never wraps.
-/

namespace TestMeasures

/-- A natural number of at most sixty-four bits. -/
structure Count where
  val : Nat
  le_limit : val ≤ 0xFFFFFFFFFFFFFFFF
deriving Repr, DecidableEq

namespace Count

/-- The largest count. -/
def limit : Nat := 0xFFFFFFFFFFFFFFFF

/-- The count nearest to a natural number from below. -/
def clamp (n : Nat) : Count :=
  ⟨min n limit, Nat.min_le_right _ _⟩

/-- The count equal to a natural number, if it is in range. -/
def ofNat? (n : Nat) : Option Count :=
  if h : n ≤ limit then some ⟨n, h⟩ else none

instance : Zero Count := ⟨⟨0, Nat.zero_le _⟩⟩

instance : One Count := ⟨⟨1, by decide⟩⟩

instance : Inhabited Count := ⟨0⟩

/-- The sum, or the largest count when the sum is larger. -/
protected def add (a b : Count) : Count :=
  clamp (a.val + b.val)

instance : Add Count := ⟨Count.add⟩

instance : ToString Count := ⟨fun count => toString count.val⟩

/-- Counts with the same value are equal. -/
@[ext]
theorem ext {a b : Count} (h : a.val = b.val) : a = b := by
  cases a; cases b; cases h; rfl

/-- Adding stops at the largest count. -/
@[simp]
theorem val_add (a b : Count) : (a + b).val = min (a.val + b.val) 0xFFFFFFFFFFFFFFFF := rfl

/-- The count zero has the value zero. -/
@[simp]
theorem val_zero : (0 : Count).val = 0 := rfl

/-- The count one has the value one. -/
@[simp]
theorem val_one : (1 : Count).val = 1 := rfl

end Count

end TestMeasures
