import SimpleCache.Library.BucketMap

/-!
# A bucket map that can be run

The simplest implementation: a key goes to the end of the buckets unless it is
there already, and nothing is ever moved.
-/

namespace SimpleCache

namespace BucketList

variable {Key Value : Type} [DecidableEq Key]

/-- Buckets in which no key occurs twice. -/
def Cells (Key Value : Type) : Type :=
  { cells : List (Option (Key × Value)) //
    (cells.filterMap (Option.map Prod.fst)).Nodup }

/-- Replace the value of a key where it stands. -/
def replace (key : Key) (value : Value) :
    List (Option (Key × Value)) → List (Option (Key × Value))
  | [] => []
  | bucket :: cells =>
      (match bucket with
        | some cell => if cell.1 = key then some (key, value) else some cell
        | none => none) :: replace key value cells

def putCells (cells : List (Option (Key × Value))) (key : Key)
    (value : Value) : List (Option (Key × Value)) :=
  if key ∈ cells.filterMap (Option.map Prod.fst) then replace key value cells
  else cells ++ [some (key, value)]

theorem keys_replace (key : Key) (value : Value)
    (cells : List (Option (Key × Value))) :
    (replace key value cells).filterMap (Option.map Prod.fst) =
      cells.filterMap (Option.map Prod.fst) := by
  induction cells with
  | nil => rfl
  | cons bucket cells ih =>
      cases bucket with
      | none => simpa [replace] using ih
      | some cell =>
          by_cases same : cell.1 = key
          · simp [replace, same, ih]
          · simp [replace, same, ih]

theorem keys_putCells {cells : List (Option (Key × Value))} {key : Key}
    {value : Value}
    (nodup : (cells.filterMap (Option.map Prod.fst)).Nodup) :
    ((putCells cells key value).filterMap (Option.map Prod.fst)).Nodup := by
  unfold putCells
  split
  · rw [keys_replace]
    exact nodup
  · next fresh =>
      rw [List.filterMap_append, List.nodup_append]
      refine ⟨nodup, by simp, fun other member last lastMem equal => ?_⟩
      obtain rfl : last = key := by simpa using lastMem
      exact fresh (equal ▸ member)

theorem mem_replace {cells : List (Option (Key × Value))} {key : Key}
    {value : Value} {cell : Key × Value} :
    some cell ∈ replace key value cells ↔
      (cell = (key, value) ∧ key ∈ cells.filterMap (Option.map Prod.fst)) ∨
        (cell.1 ≠ key ∧ some cell ∈ cells) := by
  induction cells with
  | nil => simp [replace]
  | cons bucket cells ih =>
      cases bucket with
      | none => simpa [replace] using ih
      | some first =>
          by_cases same : first.1 = key
          · simp only [replace, same, if_true, List.mem_cons, ih,
              Option.some.injEq, List.filterMap_cons, Option.map_some]
            constructor
            · rintro (rfl | ⟨rfl, member⟩ | ⟨different, member⟩)
              · exact Or.inl ⟨rfl, Or.inl trivial⟩
              · exact Or.inl ⟨rfl, Or.inr member⟩
              · exact Or.inr ⟨different, Or.inr member⟩
            · rintro (⟨rfl, -⟩ | ⟨different, rfl | member⟩)
              · exact Or.inl rfl
              · exact absurd same different
              · exact Or.inr (Or.inr ⟨different, member⟩)
          · simp only [replace, same, if_false, List.mem_cons, ih,
              Option.some.injEq, List.filterMap_cons, Option.map_some]
            constructor
            · rintro (rfl | ⟨rfl, member⟩ | ⟨different, member⟩)
              · exact Or.inr ⟨same, Or.inl rfl⟩
              · exact Or.inl ⟨rfl, Or.inr member⟩
              · exact Or.inr ⟨different, Or.inr member⟩
            · rintro (⟨rfl, equal | member⟩ | ⟨different, rfl | member⟩)
              · exact absurd equal.symm same
              · exact Or.inr (Or.inl ⟨rfl, member⟩)
              · exact Or.inl rfl
              · exact Or.inr (Or.inr ⟨different, member⟩)

theorem mem_putCells {cells : List (Option (Key × Value))} {key : Key}
    {value : Value} {cell : Key × Value} :
    some cell ∈ putCells cells key value ↔
      cell = (key, value) ∨ (cell.1 ≠ key ∧ some cell ∈ cells) := by
  unfold putCells
  split
  · next present =>
      rw [mem_replace]
      simp [present]
  · next absent =>
      rw [List.mem_append]
      constructor
      · rintro (member | last)
        · refine Or.inr ⟨fun same => absent ?_, member⟩
          rw [← same]
          exact List.mem_filterMap.mpr ⟨some cell, member, rfl⟩
        · exact Or.inl (by simpa using last)
      · rintro (rfl | ⟨-, member⟩)
        · exact Or.inr (by simp)
        · exact Or.inl member

omit [DecidableEq Key] in
theorem keys_set_none {cells : List (Option (Key × Value))} (index : Nat)
    (nodup : (cells.filterMap (Option.map Prod.fst)).Nodup) :
    ((cells.set index none).filterMap (Option.map Prod.fst)).Nodup := by
  refine nodup.sublist ?_
  clear nodup
  induction cells generalizing index with
  | nil => simp
  | cons bucket cells ih =>
      cases index with
      | zero => cases bucket <;> simp
      | succ index => cases bucket <;> simpa using ih index

end BucketList

/-- The bucket list as a bucket map. -/
def bucketList (Key Value : Type) [DecidableEq Key] : BucketMap Key Value where
  Map := BucketList.Cells Key Value
  empty := ⟨[], by simp⟩
  buckets := Subtype.val
  put := fun map key value =>
    ⟨BucketList.putCells map.val key value, BucketList.keys_putCells map.property⟩
  del := fun map index =>
    ⟨map.val.set index none, BucketList.keys_set_none index map.property⟩
  buckets_empty := rfl
  buckets_del := fun _ _ => rfl
  keys_nodup := fun map => map.property
  mem_put := fun _ _ _ _ => BucketList.mem_putCells

end SimpleCache
