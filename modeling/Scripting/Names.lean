/-!
# Sets of names

A set of names is the rising list of its members, so two sets with the same members are equal and
are listed alike. Names are ordered by their code points.
-/

namespace Scripting

/-- A finite set of names. -/
structure Names where
  /-- The members in rising order. -/
  toList : List String
  /-- The order is strict, so no member is listed twice. -/
  sorted : toList.Pairwise (· < ·)

namespace Names

/-- Adds a name to a rising list, at its place. -/
def insertSorted (name : String) : List String → List String
  | [] => [name]
  | first :: rest =>
    if name < first then name :: first :: rest
    else if name = first then first :: rest
    else first :: insertSorted name rest

theorem mem_insertSorted {name x : String} {names : List String} :
    x ∈ insertSorted name names ↔ x = name ∨ x ∈ names := by
  induction names with
  | nil => simp [insertSorted]
  | cons first rest ih =>
    simp only [insertSorted]
    split
    · simp
    · split
      · next h => subst h; simp
      · simp only [List.mem_cons, ih]
        constructor
        · rintro (h | h | h) <;> simp [h]
        · rintro (h | h | h) <;> simp [h]

theorem sorted_insertSorted (name : String) {names : List String}
    (h : names.Pairwise (· < ·)) : (insertSorted name names).Pairwise (· < ·) := by
  induction names with
  | nil => simp [insertSorted]
  | cons first rest ih =>
    obtain ⟨below, tail⟩ := List.pairwise_cons.1 h
    simp only [insertSorted]
    split
    · next lt =>
      refine List.pairwise_cons.2 ⟨fun x hx => ?_, h⟩
      rcases List.mem_cons.1 hx with rfl | hx
      · exact lt
      · exact String.lt_trans lt (below x hx)
    · split
      · exact h
      · next notLt ne =>
        refine List.pairwise_cons.2 ⟨fun x hx => ?_, ih tail⟩
        rcases mem_insertSorted.1 hx with rfl | hx
        · exact Std.lt_of_le_of_ne (String.not_lt.1 notLt) (Ne.symm ne)
        · exact below x hx

instance : Membership String Names := ⟨fun names name => name ∈ names.toList⟩

instance (name : String) (names : Names) : Decidable (name ∈ names) :=
  inferInstanceAs (Decidable (name ∈ names.toList))

theorem mem_toList {name : String} {names : Names} : name ∈ names.toList ↔ name ∈ names :=
  Iff.rfl

/-- The set without members. -/
def empty : Names := ⟨[], .nil⟩

instance : EmptyCollection Names := ⟨empty⟩

/-- The set with one more member. -/
def insert (names : Names) (name : String) : Names :=
  ⟨insertSorted name names.toList, sorted_insertSorted name names.sorted⟩

/-- The set of the names in a list. -/
def ofList (names : List String) : Names :=
  names.foldl insert empty

/-- The members of either set. -/
def union (a b : Names) : Names :=
  b.toList.foldl insert a

instance : Union Names := ⟨union⟩

/-- The members that pass a test. -/
def filter (p : String → Bool) (names : Names) : Names :=
  ⟨names.toList.filter p, names.sorted.filter p⟩

/-- The members of the first set that are not in the second. -/
def diff (a b : Names) : Names :=
  a.filter fun name => !decide (name ∈ b)

instance : SDiff Names := ⟨diff⟩

@[simp] theorem not_mem_empty {name : String} : name ∉ (∅ : Names) :=
  List.not_mem_nil

@[simp] theorem mem_insert {name x : String} {names : Names} :
    x ∈ names.insert name ↔ x = name ∨ x ∈ names :=
  mem_insertSorted

theorem mem_foldl_insert {x : String} {added : List String} {names : Names} :
    x ∈ added.foldl insert names ↔ x ∈ names ∨ x ∈ added := by
  induction added generalizing names with
  | nil => simp
  | cons first rest ih =>
    rw [List.foldl_cons, ih, mem_insert, List.mem_cons]
    constructor
    · rintro ((h | h) | h) <;> simp [h]
    · rintro (h | h | h) <;> simp [h]

@[simp] theorem mem_union {x : String} {a b : Names} : x ∈ a ∪ b ↔ x ∈ a ∨ x ∈ b :=
  mem_foldl_insert

@[simp] theorem mem_ofList {x : String} {names : List String} : x ∈ ofList names ↔ x ∈ names := by
  simp only [ofList, mem_foldl_insert]
  exact ⟨fun h => h.elim (fun h => absurd h List.not_mem_nil) id, .inr⟩

@[simp] theorem mem_filter {x : String} {p : String → Bool} {names : Names} :
    x ∈ names.filter p ↔ x ∈ names ∧ p x = true :=
  List.mem_filter

@[simp] theorem mem_sdiff {x : String} {a b : Names} : x ∈ a \ b ↔ x ∈ a ∧ x ∉ b := by
  show x ∈ a.filter _ ↔ _
  simp

/-- Sets with the same members are equal. -/
theorem ext {a b : Names} (h : ∀ x, x ∈ a ↔ x ∈ b) : a = b := by
  have key : ∀ {l m : List String}, l.Pairwise (· < ·) → m.Pairwise (· < ·) →
      (∀ x, x ∈ l ↔ x ∈ m) → l = m := by
    intro l
    induction l with
    | nil =>
      intro m _ _ same
      cases m with
      | nil => rfl
      | cons y ys => exact absurd ((same y).2 List.mem_cons_self) List.not_mem_nil
    | cons x xs ih =>
      intro m hl hm same
      cases m with
      | nil => exact absurd ((same x).1 List.mem_cons_self) List.not_mem_nil
      | cons y ys =>
        obtain ⟨belowX, sortedX⟩ := List.pairwise_cons.1 hl
        obtain ⟨belowY, sortedY⟩ := List.pairwise_cons.1 hm
        have heads : x = y := by
          rcases List.mem_cons.1 ((same x).1 List.mem_cons_self) with e | hx
          · exact e
          · rcases List.mem_cons.1 ((same y).2 List.mem_cons_self) with e | hy
            · exact e.symm
            · exact absurd (String.lt_trans (belowY x hx) (belowX y hy)) (String.lt_irrefl _)
        subst heads
        congr 1
        refine ih sortedX sortedY fun z => ?_
        constructor
        · intro hz
          rcases List.mem_cons.1 ((same z).1 (List.mem_cons_of_mem _ hz)) with e | hz'
          · exact absurd (e ▸ belowX z hz) (String.lt_irrefl _)
          · exact hz'
        · intro hz
          rcases List.mem_cons.1 ((same z).2 (List.mem_cons_of_mem _ hz)) with e | hz'
          · exact absurd (e ▸ belowY z hz) (String.lt_irrefl _)
          · exact hz'
  cases a with
  | mk l hl =>
    cases b with
    | mk m hm =>
      cases key hl hm h
      rfl

end Names

end Scripting
