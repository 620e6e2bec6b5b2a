import Scripting.Proofs.Safety

/-!
# Proofs: writes in a row

`setAll` gives values to names one after the other. If every cell has one name only,
a write to one name changes no other name's value: `checkAll` foretells exactly what `setAll` does,
and what each name holds in the end is the last value given to it.
-/

namespace Scripting

namespace Store

/-- Gives values to names in order, up to the first that cannot be given. -/
def setAll (s : Store) (scope : Scope) : List (String × Value) → Except ScopeFault Store
  | [] => .ok s
  | (x, v) :: rest => do
    let s ← s.set scope x v
    s.setAll scope rest

/-- The fault of a write of a value of another type. -/
def TypeMismatch (fault : ScopeFault) : Prop :=
  ∃ name old new, fault = .typeMismatch name old new

variable {s s' : Store} {scope : Scope} {x y : String} {v : Value} {ws : List (String × Value)}
  {fault : ScopeFault}

/-! ## One write -/

theorem typeMismatch_of_checkType {current : Value} (h : checkType x current v = .error fault) :
    TypeMismatch fault := by
  unfold checkType at h
  split at h
  · cases h
  · cases h
    exact ⟨_, _, _, rfl⟩

theorem typeMismatch_of_checkSet (h : s.checkSet scope x v = .error fault) :
    TypeMismatch fault := by
  unfold checkSet at h
  split at h
  · exact typeMismatch_of_checkType h
  · cases h

theorem set_of_checkSet (h : s.checkSet scope x v = .ok ()) :
    s.set scope x v = .ok (s.put scope x v) := by
  unfold set
  rw [h]
  rfl

theorem set_of_error (h : s.checkSet scope x v = .error fault) :
    s.set scope x v = .error fault := by
  unfold set
  rw [h]
  rfl

theorem set_eq_ok (h : s.set scope x v = .ok s') : s' = s.put scope x v := by
  obtain ⟨-, -, h⟩ := bind_eq_ok_iff.1 h
  exact (Except.ok.inj h).symm

/-- The frame of the scope after a write: the name keeps its cell or gets the next new one. -/
theorem ownCell?_put (hframe : scope.frame < s.frames.size) (x : String) (v : Value) (y : String) :
    (s.put scope x v).ownCell? scope y =
      if x = y then some ((s.ownCell? scope x).getD s.cells.size) else s.ownCell? scope y := by
  cases hown : s.ownCell? scope x with
  | some cell =>
    unfold ownCell?
    rw [put_of_some hown, bindings_write]
    split
    · next e => exact e ▸ hown
    · rfl
  | none =>
    unfold ownCell?
    rw [bindings_put_of_none hframe hown, if_pos rfl, NameMap.get?_insert]
    rfl

/-- The written name holds the value. -/
theorem read_put_self (h : s.Distinct) (hframe : scope.frame < s.frames.size) (x : String)
    (v : Value) : ∃ cell, (s.put scope x v).ownCell? scope x = some cell ∧
      (s.put scope x v).read cell = v := by
  refine ⟨_, (ownCell?_put hframe x v x).trans (if_pos rfl), ?_⟩
  rw [read_put (fun _ _ => h.cells), if_pos]
  cases hown : s.ownCell? scope x with
  | some cell => exact Or.inl rfl
  | none => exact Or.inr ⟨rfl, rfl⟩

/-- A cell that the written name does not have afterwards is as before. -/
theorem read_put_of_ne (h : s.Distinct) (hframe : scope.frame < s.frames.size) {cell : CellId}
    (hcell : (s.put scope x v).ownCell? scope x ≠ some cell) :
    (s.put scope x v).read cell = s.read cell := by
  rw [ownCell?_put hframe, if_pos rfl] at hcell
  rw [read_put (fun _ _ => h.cells), if_neg]
  rintro (hown | ⟨hown, rfl⟩)
  · exact hcell (by rw [hown]; rfl)
  · exact hcell (by rw [hown]; rfl)

/-- Names of one scope have different cells. -/
theorem Distinct.ne_cell (h : s.Distinct) (hne : x ≠ y) {cell : CellId}
    (hx : s.ownCell? scope x = some cell) : s.ownCell? scope y ≠ some cell :=
  fun hy => hne (h.named ⟨scope.frame, hx⟩ ⟨scope.frame, hy⟩)

/-- A write to one name leaves the checks of all others as they were. -/
theorem checkSet_put_of_ne (h : s.Distinct) (hframe : scope.frame < s.frames.size) (hne : x ≠ y)
    (w : Value) :
    (s.put scope x v).checkSet scope y w = s.checkSet scope y w := by
  have hown : (s.put scope x v).ownCell? scope y = s.ownCell? scope y := by
    rw [ownCell?_put hframe, if_neg hne]
  unfold checkSet
  rw [hown]
  cases hy : s.ownCell? scope y with
  | none => rfl
  | some cell =>
    have hput : (s.put scope x v).ownCell? scope x ≠ some cell :=
      (h.put hframe x v).ne_cell (Ne.symm hne) (hown.trans hy)
    simp only [read_put_of_ne h hframe hput]

/-! ## Writes foretold -/

/-- `s` came from `before` by writes, of which `pending` holds the last one to each name. -/
structure Pending (before s : Store) (scope : Scope) (pending : NameMap Value) : Prop where
  written : ∀ {x v}, pending.get? x = some v →
    ∃ cell, s.ownCell? scope x = some cell ∧ s.read cell = v
  others : ∀ {x}, pending.get? x = none → ∀ v, s.checkSet scope x v = before.checkSet scope x v

theorem Pending.start : Pending s s scope ∅ :=
  ⟨fun h => absurd h (by simp), fun _ _ => rfl⟩

theorem Pending.put {before : Store} {pending : NameMap Value}
    (hp : Pending before s scope pending) (h : s.Distinct) (hframe : scope.frame < s.frames.size) :
    Pending before (s.put scope x v) scope (pending.insert x v) := by
  refine ⟨fun {y w} hw => ?_, fun {y} hy w => ?_⟩
  · rw [NameMap.get?_insert] at hw
    split at hw
    · next e =>
      cases hw
      exact e ▸ read_put_self h hframe x v
    · next hne =>
      obtain ⟨cell, hown, hread⟩ := hp.written hw
      have hown' : (s.put scope x v).ownCell? scope y = some cell := by
        rw [ownCell?_put hframe, if_neg hne, hown]
      refine ⟨cell, hown', ?_⟩
      rw [read_put_of_ne h hframe ((h.put hframe x v).ne_cell (Ne.symm hne) hown'), hread]
  · rw [NameMap.get?_insert] at hy
    split at hy
    · cases hy
    · next hne => rw [checkSet_put_of_ne h hframe hne, hp.others hy]

/-- What a pending write, or else the store before all writes, says of the next write is what the
store now says of it. -/
theorem Pending.check {before : Store} {pending : NameMap Value}
    (hp : Pending before s scope pending) (x : String) (v : Value) :
    (match pending.get? x with
      | some current => checkType x current v
      | none => before.checkSet scope x v) = s.checkSet scope x v := by
  cases hx : pending.get? x with
  | none => exact (hp.others hx v).symm
  | some current =>
    obtain ⟨cell, hown, hread⟩ := hp.written hx
    unfold checkSet
    rw [hown]
    simp only [hread]

theorem checkWrites_cons (before : Store) (scope : Scope) (pending : NameMap Value) (x : String)
    (v : Value) (ws : List (String × Value)) :
    before.checkWrites scope pending ((x, v) :: ws) =
      (match pending.get? x with
        | some current => checkType x current v
        | none => before.checkSet scope x v) >>=
      fun _ => before.checkWrites scope (pending.insert x v) ws := by
  rw [checkWrites]
  cases pending.get? x <;> rfl

theorem checkWrites_eq {before : Store} {pending : NameMap Value}
    (hp : Pending before s scope pending) (h : s.Distinct)
    (hframe : scope.frame < s.frames.size) :
    before.checkWrites scope pending ws = (s.setAll scope ws).map fun _ => () := by
  -- The pending values keep foretelling the store that the writes so far have made.
  induction ws generalizing s pending with
  | nil => rfl
  | cons w ws ih =>
    obtain ⟨x, v⟩ := w
    have he : s.Extends (fun _ => True) (s.put scope x v) :=
      extends_put hframe v fun _ => trivial
    rw [checkWrites_cons, hp.check x v, setAll]
    cases hcheck : s.checkSet scope x v with
    | error fault =>
      rw [set_of_error hcheck]
      rfl
    | ok =>
      rw [set_of_checkSet hcheck]
      exact ih (hp.put h hframe) (h.put hframe x v) (Nat.lt_of_lt_of_le hframe he.frames)

theorem typeMismatch_of_checkWrites {pending : NameMap Value}
    (h : s.checkWrites scope pending ws = .error fault) : TypeMismatch fault := by
  induction ws generalizing pending with
  | nil => cases h
  | cons w ws ih =>
    obtain ⟨x, v⟩ := w
    rw [checkWrites_cons] at h
    rcases bind_eq_error_iff.1 h with h | ⟨_, _, h⟩
    · split at h
      · exact typeMismatch_of_checkType h
      · exact typeMismatch_of_checkSet h
    · exact ih h

/-- The check of writes says exactly whether they can be made one after the other, and which fault
the first has that cannot. -/
theorem checkAll_eq (h : s.Distinct) (hframe : scope.frame < s.frames.size)
    (ws : List (String × Value)) :
    s.checkAll scope ws = (s.setAll scope ws).map fun _ => () :=
  checkWrites_eq .start h hframe

/-! ## What writes do -/

theorem typeMismatch_of_set (h : s.set scope x v = .error fault) : TypeMismatch fault := by
  rcases bind_eq_error_iff.1 h with h | ⟨_, _, h⟩
  · exact typeMismatch_of_checkSet h
  · cases h

theorem typeMismatch_of_setAll (h : s.setAll scope ws = .error fault) : TypeMismatch fault := by
  induction ws generalizing s with
  | nil => cases h
  | cons w ws ih =>
    obtain ⟨x, v⟩ := w
    rcases bind_eq_error_iff.1 h with h | ⟨_, _, h⟩
    · exact typeMismatch_of_set h
    · exact ih h

/-- The store after writes, name by name and cell by cell. -/
structure Written (s s' : Store) (scope : Scope) (ws : List (String × Value)) : Prop where
  /-- Every name is bound in the frame of the scope. -/
  bound : ∀ w ∈ ws, s'.contains scope w.1 = true
  /-- A name holds the last value given to it. -/
  last : ∀ before x v after, ws = before ++ (x, v) :: after → (∀ w ∈ after, w.1 ≠ x) →
    ∃ cell, s'.ownCell? scope x = some cell ∧ s'.read cell = v
  /-- A cell that none of the names has is as before. -/
  others : ∀ cell, (∀ w ∈ ws, s'.ownCell? scope w.1 ≠ some cell) → s'.read cell = s.read cell

theorem written_of_setAll (h : s.Distinct) (hframe : scope.frame < s.frames.size)
    (hset : s.setAll scope ws = .ok s') :
    s'.Distinct ∧ s.Extends (fun frame => frame = scope.frame) s' ∧ Written s s' scope ws := by
  induction ws generalizing s with
  | nil =>
    cases hset
    refine ⟨h, .refl _ _, nofun, fun before x v after e => ?_, fun _ _ => rfl⟩
    simp at e
  | cons w ws ih =>
    obtain ⟨x, v⟩ := w
    unfold setAll at hset
    obtain ⟨s₁, hs₁, hset⟩ := bind_eq_ok_iff.1 hset
    have he : s.Extends (fun frame => frame = scope.frame) (s.put scope x v) :=
      extends_put hframe v fun _ => rfl
    rw [set_eq_ok hs₁] at hset
    obtain ⟨hs', he', hw'⟩ := ih (h.put hframe x v) (Nat.lt_of_lt_of_le hframe he.frames) hset
    refine ⟨hs', he.trans he', fun w hw => ?_, fun before y u after e hafter => ?_,
      fun cell hcell => ?_⟩
    · rcases List.mem_cons.1 hw with rfl | hw
      · exact contains_of_extends (contains_put hframe x v) he'
      · exact hw'.bound w hw
    · cases before with
      | nil =>
        -- The first write is the last to its name, and the others go to other cells.
        cases e
        obtain ⟨cell, hown, hread⟩ := read_put_self h hframe x v
        have hown' : s'.ownCell? scope x = some cell := he'.kept hown
        refine ⟨cell, hown', ?_⟩
        rw [hw'.others cell fun w hw => hs'.ne_cell (Ne.symm (hafter w hw)) hown', hread]
      | cons _ before =>
        cases e
        exact hw'.last before y u after rfl hafter
    · rw [hw'.others cell fun w hw => hcell w (List.mem_cons_of_mem _ hw)]
      refine read_put_of_ne h hframe fun hown => ?_
      exact hcell (x, v) List.mem_cons_self (he'.kept hown)

end Store

namespace Eval

variable {s s' : State} {scope : Scope} {position : Position} {ws : List (String × Value)}
  {e : Stop RuntimeError}

theorem assignName_of_ok {x : String} {v : Value} (h : s.store.checkSet scope x v = .ok ()) :
    assignName scope position x v s = .ok () { s with store := s.store.put scope x v } :=
  bind_ok (inspect_of_ok h)

/-- A write that is made passed its check. -/
theorem ok_of_assignName {x : String} {v : Value}
    (h : assignName scope position x v s = .ok () s') :
    s.store.checkSet scope x v = .ok () ∧ s' = { s with store := s.store.put scope x v } := by
  cases hcheck : s.store.checkSet scope x v with
  | ok =>
    rw [assignName_of_ok hcheck] at h
    cases h
    exact ⟨rfl, rfl⟩
  | error fault =>
    have hrefused : assignName scope position x v s = .error (.error ⟨.scope fault, position⟩) s :=
      bind_error (inspect_of_error hcheck)
    cases hrefused.symm.trans h

/-- A write that is refused changes nothing. -/
theorem error_of_assignName {x : String} {v : Value}
    (h : assignName scope position x v s = .error e s') :
    s' = s ∧ ∃ fault, s.store.checkSet scope x v = .error fault ∧
      e = .error ⟨.scope fault, position⟩ := by
  rcases error_of_bind h with h | ⟨_, _, _, h⟩
  · exact error_of_inspect h
  · cases h

theorem assignNames_of_setAll {store : Store} (h : s.store.setAll scope ws = .ok store) :
    assignNames scope position ws s = .ok () { s with store := store } := by
  induction ws generalizing s with
  | nil =>
    cases h
    rfl
  | cons w ws ih =>
    obtain ⟨x, v⟩ := w
    unfold Store.setAll at h
    cases hcheck : s.store.checkSet scope x v with
    | error fault =>
      rw [Store.set_of_error hcheck] at h
      cases h
    | ok =>
      rw [Store.set_of_checkSet hcheck] at h
      exact (bind_ok (assignName_of_ok hcheck)).trans (ih h)

/-- Writes fail only for the type of a value. -/
theorem error_of_assignNames (h : assignNames scope position ws s = .error e s') :
    ∃ fault, Store.TypeMismatch fault ∧ e = .error ⟨.scope fault, position⟩ := by
  induction ws generalizing s with
  | nil => cases h
  | cons w ws ih =>
    obtain ⟨x, v⟩ := w
    rcases error_of_bind h with h | ⟨_, s₁, _, h⟩
    · obtain ⟨-, fault, hcheck, he⟩ := error_of_assignName h
      exact ⟨fault, Store.typeMismatch_of_checkSet hcheck, he⟩
    · exact ih h

theorem error_of_assignAll (h : assignAll scope position ws s = .error e s') :
    ∃ fault, Store.TypeMismatch fault ∧ e = .error ⟨.scope fault, position⟩ := by
  rcases error_of_bind h with h | ⟨_, s₁, _, h⟩
  · obtain ⟨-, fault, hcheck, he⟩ := error_of_inspect h
    exact ⟨fault, Store.typeMismatch_of_checkWrites hcheck, he⟩
  · exact error_of_assignNames h

/-- Writes that are checked first are all made, or none is. -/
theorem assignAll_eq (h : s.store.Distinct) (hframe : scope.frame < s.store.frames.size)
    (ws : List (String × Value)) :
    assignAll scope position ws s =
      match s.store.setAll scope ws with
      | .ok store => .ok () { s with store := store }
      | .error fault => .error (.error ⟨.scope fault, position⟩) s := by
  have hcheck := Store.checkAll_eq h hframe ws
  unfold assignAll
  cases hset : s.store.setAll scope ws with
  | ok store =>
    rw [hset] at hcheck
    rw [bind_ok (inspect_of_ok hcheck)]
    exact assignNames_of_setAll hset
  | error fault =>
    rw [hset] at hcheck
    exact bind_error (inspect_of_error hcheck)

end Eval

end Scripting
