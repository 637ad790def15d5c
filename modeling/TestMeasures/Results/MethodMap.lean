import TestMeasures.Path

/-!
# Which file defines a test method

The map goes from qualified method names to source files. Later entries replace earlier ones of the
same name.
-/

namespace TestMeasures

namespace MethodMap

/-- Sets the file of a name in a list of entries. -/
def put (name : String) (file : Path) : List (String × Path) → List (String × Path)
  | [] => [(name, file)]
  | (n, f) :: rest => if n = name then (name, file) :: rest else (n, f) :: put name file rest

/-- A name that is set stays where it is among the names, or comes last. -/
theorem names_put (name : String) (file : Path) (entries : List (String × Path)) :
    (put name file entries).map Prod.fst =
      if name ∈ entries.map Prod.fst then entries.map Prod.fst else entries.map Prod.fst ++ [name] := by
  induction entries with
  | nil => rfl
  | cons entry rest ih =>
      unfold put
      by_cases h : entry.1 = name
      · simp [h]
      · rw [if_neg h, List.map_cons, ih]
        by_cases hrest : name ∈ rest.map Prod.fst
        · simp [hrest]
        · simp [hrest, Ne.symm h]

/-- Setting the file of a name leaves each name once. -/
theorem put_distinct {entries : List (String × Path)} (h : (entries.map Prod.fst).Nodup) (name : String)
    (file : Path) : ((put name file entries).map Prod.fst).Nodup := by
  rw [names_put]
  split
  case isTrue => exact h
  case isFalse hnew =>
    refine List.nodup_append.mpr ⟨h, List.pairwise_singleton _ name, fun held hheld added hadded heq => ?_⟩
    exact hnew (List.mem_singleton.mp hadded ▸ heq ▸ hheld)

end MethodMap

/-- A finite map from qualified method names to source files; each name occurs once. -/
structure MethodMap where
  entries : List (String × Path)
  distinct : (entries.map Prod.fst).Nodup
deriving Repr, DecidableEq

namespace MethodMap

/-- The map without entries. -/
def empty : MethodMap := ⟨[], List.nodup_nil⟩

instance : Inhabited MethodMap := ⟨empty⟩

/-- Sets the file of a name. -/
def insert (map : MethodMap) (name : String) (file : Path) : MethodMap :=
  ⟨put name file map.entries, put_distinct map.distinct name file⟩

/-- The map that a list of pairs describes; the last pair of a name decides. -/
def ofList (pairs : List (String × Path)) : MethodMap :=
  pairs.foldl (fun map pair => map.insert pair.1 pair.2) empty

/-- The file that defines a method, if it is known. -/
def get? (map : MethodMap) (name : String) : Option Path :=
  (map.entries.find? fun entry => entry.1 == name).map Prod.snd

/-- The number of known methods. -/
def size (map : MethodMap) : Nat :=
  map.entries.length

/-- Whether no method is known. -/
def isEmpty (map : MethodMap) : Bool :=
  map.entries.isEmpty

end MethodMap

end TestMeasures
