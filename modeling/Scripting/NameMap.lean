/-!
# Maps from names

A map holds one entry for each of its names, in rising order of the names.
-/

namespace Scripting

/-- A finite map from names to values. -/
structure NameMap (α : Type) where
  /-- The entries, their names in rising order. -/
  toList : List (String × α)
  /-- The order is strict, so no name has two entries. -/
  sorted : toList.Pairwise (·.1 < ·.1)

namespace NameMap

variable {α : Type}

/-- Puts an entry into a rising list, in place of an entry of the same name. -/
def insertSorted (name : String) (value : α) : List (String × α) → List (String × α)
  | [] => [(name, value)]
  | first :: rest =>
    if name < first.1 then (name, value) :: first :: rest
    else if name = first.1 then (name, value) :: rest
    else first :: insertSorted name value rest

theorem mem_insertSorted {name : String} {value : α} {x : String × α}
    {entries : List (String × α)} (h : x ∈ insertSorted name value entries) :
    x = (name, value) ∨ x ∈ entries := by
  induction entries with
  | nil => exact .inl (List.mem_singleton.1 h)
  | cons first rest ih =>
    simp only [insertSorted] at h
    split at h
    · exact List.mem_cons.1 h
    · split at h
      · exact (List.mem_cons.1 h).imp_right (List.mem_cons_of_mem _)
      · rcases List.mem_cons.1 h with h | h
        · exact .inr (h ▸ List.mem_cons_self)
        · exact (ih h).imp_right (List.mem_cons_of_mem _)

theorem sorted_insertSorted (name : String) (value : α) {entries : List (String × α)}
    (h : entries.Pairwise (·.1 < ·.1)) : (insertSorted name value entries).Pairwise (·.1 < ·.1) := by
  induction entries with
  | nil => simp [insertSorted]
  | cons first rest ih =>
    obtain ⟨below, tail⟩ := List.pairwise_cons.1 h
    simp only [insertSorted]
    split
    · next lt =>
      refine List.pairwise_cons.2 ⟨fun x hx => ?_, h⟩
      rcases List.mem_cons.1 hx with rfl | hx
      · exact lt
      · exact String.lt_trans lt (below x hx)
    · split
      · next e => exact List.pairwise_cons.2 ⟨fun x hx => e ▸ below x hx, tail⟩
      · next notLt ne =>
        refine List.pairwise_cons.2 ⟨fun x hx => ?_, ih tail⟩
        rcases mem_insertSorted hx with rfl | hx
        · exact Std.lt_of_le_of_ne (String.not_lt.1 notLt) (Ne.symm ne)
        · exact below x hx

/-- The map without entries. -/
def empty : NameMap α := ⟨[], .nil⟩

instance : EmptyCollection (NameMap α) := ⟨empty⟩

instance : Inhabited (NameMap α) := ⟨∅⟩

/-- The value of a name. -/
def get? (map : NameMap α) (name : String) : Option α :=
  (map.toList.find? (·.1 = name)).map Prod.snd

/-- Has the map an entry for the name? -/
def contains (map : NameMap α) (name : String) : Bool :=
  (map.get? name).isSome

/-- The map with an entry more, or with another value for a name that it has. -/
def insert (map : NameMap α) (name : String) (value : α) : NameMap α :=
  ⟨insertSorted name value map.toList, sorted_insertSorted name value map.sorted⟩

/-- The names of the map, in rising order. -/
def names (map : NameMap α) : List String :=
  map.toList.map Prod.fst

theorem find?_insertSorted (name : String) (value : α) (x : String)
    (entries : List (String × α)) :
    (insertSorted name value entries).find? (·.1 = x) =
      if name = x then some (name, value) else entries.find? (·.1 = x) := by
  induction entries with
  | nil => by_cases h : name = x <;> simp [insertSorted, h]
  | cons first rest ih =>
    simp only [insertSorted]
    split
    · by_cases h : name = x <;> simp [List.find?_cons, h]
    · split
      · next e => by_cases h : name = x <;> simp_all
      · next ne =>
        by_cases h : first.1 = x
        · have : name ≠ x := fun e => ne (e.trans h.symm)
          simp [h, this]
        · simp [h, ih]

@[simp] theorem get?_empty (name : String) : (∅ : NameMap α).get? name = none := rfl

theorem isSome_get?_of_mem {map : NameMap α} {name : String} (h : name ∈ map.names) :
    (map.get? name).isSome := by
  obtain ⟨entry, hentry, rfl⟩ := List.mem_map.1 h
  unfold get?
  rw [Option.isSome_map, List.find?_isSome]
  exact ⟨entry, hentry, by simp⟩

theorem get?_insert (map : NameMap α) (name : String) (value : α) (x : String) :
    (map.insert name value).get? x = if name = x then some value else map.get? x := by
  simp only [get?, insert, find?_insertSorted]
  split <;> rfl

@[simp] theorem get?_insert_self (map : NameMap α) (name : String) (value : α) :
    (map.insert name value).get? name = some value := by
  rw [get?_insert, if_pos rfl]

theorem get?_insert_of_ne (map : NameMap α) {name x : String} (value : α) (h : name ≠ x) :
    (map.insert name value).get? x = map.get? x := by
  rw [get?_insert, if_neg h]

end NameMap

end Scripting
