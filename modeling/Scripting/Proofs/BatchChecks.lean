import Scripting.Proofs.Writes

/-!
# Proofs: what the check of a batch foretells

`checkAll` goes by names, `setAll` by cells. To the check two names are two variables, so it misses
that a write to one gives a type to the other if both have the same cell. It goes wrong in just this
way: a cell with two names that holds nil takes the first type written to it under either name. In a
scope that has no such cell the check says what the writes do, and in no scope does it refuse writes
that could be made.

Writes are refused for types alone. So a scope is seen here as the types that it holds, and what the
check knows of it is compared with what it holds after each write.
-/

namespace Scripting

namespace Store

/-- Every binding leads to a cell of the store. -/
def Anchored (s : Store) : Prop :=
  ∀ x cell, s.Binds x cell → cell < s.cells.size

/-- The frame of the scope binds both names to one cell. -/
def Shares (s : Store) (scope : Scope) (x y : String) : Prop :=
  ∃ cell, s.ownCell? scope x = some cell ∧ s.ownCell? scope y = some cell

/-- The type of what the frame of the scope holds under a name, if it binds the name. -/
def heldType? (s : Store) (scope : Scope) (x : String) : Option ValueType :=
  (s.ownCell? scope x).map fun cell => (s.read cell).type

/-- Two names of the scope have the same cell, and it holds nil. -/
def SharesNil (s : Store) (scope : Scope) : Prop :=
  ∃ x y, x ≠ y ∧ s.Shares scope x y ∧ s.heldType? scope x = some .nil

/-- May a value be written under a name that holds something of the type, or nothing? -/
def checkHeld (x : String) (held : Option ValueType) (v : Value) : Except ScopeFault Unit :=
  match held with
  | none => .ok ()
  | some old => if old = .nil ∨ old = v.type then .ok () else .error (.typeMismatch x old v.type)

/-- The type that the check takes a name to hold: that of the pending write, or else that of the
store before all writes. -/
def foretold (s : Store) (scope : Scope) (pending : NameMap Value) (x : String) :
    Option ValueType :=
  ((pending.get? x).map Value.type).or (s.heldType? scope x)

variable {s s' before : Store} {scope : Scope} {x y : String} {v : Value} {held : Option ValueType}
  {ws : List (String × Value)} {pending : NameMap Value}

/-! ## Checks as checks of types -/

theorem isNil_iff : v.isNil = true ↔ v.type = .nil := by
  cases v <;> simp [Value.isNil, Value.type]

theorem checkType_eq (x : String) (current v : Value) :
    checkType x current v = checkHeld x (some current.type) v := by
  simp only [checkType, checkHeld, Bool.or_eq_true, isNil_iff, Value.sameType, decide_eq_true_eq]

theorem checkSet_eq (s : Store) (scope : Scope) (x : String) (v : Value) :
    s.checkSet scope x v = checkHeld x (s.heldType? scope x) v := by
  unfold checkSet heldType?
  cases s.ownCell? scope x with
  | none => rfl
  | some cell => exact checkType_eq x (s.read cell) v

theorem checkHeld_ok_iff : checkHeld x held v = .ok () ↔
    held = none ∨ held = some .nil ∨ held = some v.type := by
  cases held with
  | none => simp [checkHeld]
  | some old => by_cases h : old = .nil ∨ old = v.type <;> simp [checkHeld, h]

theorem checkWrites_eq_checkHeld (s : Store) (scope : Scope) (pending : NameMap Value) (x : String)
    (v : Value) (ws : List (String × Value)) :
    s.checkWrites scope pending ((x, v) :: ws) =
      checkHeld x (s.foretold scope pending x) v >>= fun _ =>
        s.checkWrites scope (pending.insert x v) ws := by
  rw [checkWrites_cons, foretold]
  cases pending.get? x with
  | none =>
    dsimp only
    rw [checkSet_eq]
    rfl
  | some current =>
    dsimp only
    rw [checkType_eq]
    rfl

theorem setAll_cons (s : Store) (scope : Scope) (x : String) (v : Value)
    (ws : List (String × Value)) :
    s.setAll scope ((x, v) :: ws) =
      checkHeld x (s.heldType? scope x) v >>= fun _ => (s.put scope x v).setAll scope ws := by
  rw [setAll, set, checkSet_eq]
  cases checkHeld x (s.heldType? scope x) v <;> rfl

theorem foretold_empty (s : Store) (scope : Scope) (x : String) :
    s.foretold scope ∅ x = s.heldType? scope x := rfl

theorem foretold_insert (s : Store) (scope : Scope) (pending : NameMap Value) (x : String)
    (v : Value) (y : String) :
    s.foretold scope (pending.insert x v) y =
      if x = y then some v.type else s.foretold scope pending y := by
  unfold foretold
  rw [NameMap.get?_insert]
  split <;> rfl

/-! ## One write -/

theorem Shares.heldType?_eq (h : s.Shares scope x y) :
    s.heldType? scope x = s.heldType? scope y := by
  obtain ⟨cell, hx, hy⟩ := h
  rw [heldType?, heldType?, hx, hy]

theorem Shares.symm (h : s.Shares scope x y) : s.Shares scope y x := by
  obtain ⟨cell, hx, hy⟩ := h
  exact ⟨cell, hy, hx⟩

/-- A value that may be written under a name that shares its cell goes where nil or a value of its
type is. -/
theorem Shares.nil_or_same (h : s.Shares scope x y)
    (hcheck : checkHeld x (s.heldType? scope x) v = .ok ()) :
    s.heldType? scope x = some .nil ∨ s.heldType? scope x = some v.type := by
  obtain ⟨cell, hcell, -⟩ := h
  refine (checkHeld_ok_iff.1 hcheck).resolve_left fun hnone => ?_
  rw [heldType?, hcell] at hnone
  cases hnone

theorem anchored_empty : Store.empty.Anchored := by
  rintro x cell ⟨frame, hx⟩
  cases hx

theorem Anchored.newFrame (h : s.Anchored) : (s.newFrame ∅).2.Anchored := by
  rintro x cell ⟨frame, hx⟩
  rw [bindings_newFrame] at hx
  split at hx
  · cases hx
  · exact h x cell ⟨frame, hx⟩

/-- A name may be bound to any cell of the store, also to that of another name. -/
theorem Anchored.bind (h : s.Anchored) {frame : FrameId} (hframe : frame < s.frames.size)
    (x : String) {cell : CellId} (hcell : cell < s.cells.size) :
    (s.bind frame x cell).Anchored := by
  rintro y cell' ⟨other, hy⟩
  rw [bindings_bind s hframe] at hy
  split at hy
  · rw [NameMap.get?_insert] at hy
    split at hy
    · cases hy
      exact hcell
    · exact h y cell' ⟨frame, hy⟩
  · exact h y cell' ⟨other, hy⟩

theorem Anchored.put (h : s.Anchored) (hframe : scope.frame < s.frames.size) (x : String)
    (v : Value) : (s.put scope x v).Anchored := by
  have he : s.Extends (fun _ => True) (s.put scope x v) :=
    extends_put hframe v fun _ => trivial
  intro y cell hy
  rcases binds_put hframe hy with hy | ⟨hnone, -, rfl⟩
  · exact Nat.lt_of_lt_of_le (h y cell hy) he.cells
  · simp [put_of_none hnone, newCell, Store.bind]

/-- A write gives its type to the name, and to all names that share its cell. -/
theorem heldType?_put (h : s.Anchored) (hframe : scope.frame < s.frames.size) (x : String)
    (v : Value) (y : String) : (x = y ∨ s.Shares scope x y) ∧
        (s.put scope x v).heldType? scope y = some v.type ∨
      x ≠ y ∧ ¬ s.Shares scope x y ∧
        (s.put scope x v).heldType? scope y = s.heldType? scope y := by
  unfold heldType?
  rw [ownCell?_put hframe]
  by_cases hxy : x = y
  · subst hxy
    refine .inl ⟨.inl rfl, ?_⟩
    rw [if_pos rfl, Option.map_some, read_put h, if_pos]
    cases s.ownCell? scope x with
    | some cell => exact .inl rfl
    | none => exact .inr ⟨rfl, rfl⟩
  · rw [if_neg hxy]
    cases hy : s.ownCell? scope y with
    | none =>
      refine .inr ⟨hxy, ?_, rfl⟩
      rintro ⟨_, -, hcell⟩
      cases hy.symm.trans hcell
    | some cell =>
      rw [Option.map_some, Option.map_some, read_put h]
      by_cases hx : s.ownCell? scope x = some cell
      · rw [if_pos (.inl hx)]
        exact .inl ⟨.inr ⟨cell, hx, hy⟩, rfl⟩
      · rw [if_neg]
        · refine .inr ⟨hxy, ?_, rfl⟩
          rintro ⟨cell', hx', hy'⟩
          cases hy.symm.trans hy'
          exact hx hx'
        · rintro (hx' | ⟨-, rfl⟩)
          · exact hx hx'
          · exact absurd (h y _ ⟨scope.frame, hy⟩) (Nat.lt_irrefl _)

theorem heldType?_put_self (h : s.Anchored) (hframe : scope.frame < s.frames.size) (x : String)
    (v : Value) : (s.put scope x v).heldType? scope x = some v.type := by
  rcases heldType?_put h hframe x v x with ⟨-, htype⟩ | ⟨hne, -, -⟩
  · exact htype
  · exact absurd rfl hne

theorem frame_lt_put (hframe : scope.frame < s.frames.size) (x : String) (v : Value) :
    scope.frame < (s.put scope x v).frames.size := by
  have he : s.Extends (fun _ => True) (s.put scope x v) :=
    extends_put hframe v fun _ => trivial
  exact Nat.lt_of_lt_of_le hframe he.frames

/-- Names that share a cell after a write shared it before. -/
theorem shares_of_put (h : s.Anchored) (hframe : scope.frame < s.frames.size) (hne : x ≠ y)
    {z : String} (hshares : (s.put scope z v).Shares scope x y) : s.Shares scope x y := by
  -- The cell of a name that had none is new, and no other name has it.
  have hnew : ∀ {w : String}, z ≠ w → s.ownCell? scope w ≠
      some ((s.ownCell? scope z).getD s.cells.size) ∨ s.Shares scope z w := by
    intro w hw
    cases hz : s.ownCell? scope z with
    | none => exact .inl fun hcell => absurd (h w _ ⟨scope.frame, hcell⟩) (Nat.lt_irrefl _)
    | some cell =>
      by_cases hcell : s.ownCell? scope w = some cell
      · exact .inr ⟨cell, hz, hcell⟩
      · exact .inl hcell
  obtain ⟨cell, hx, hy⟩ := hshares
  rw [ownCell?_put hframe] at hx hy
  by_cases hzx : z = x
  · subst hzx
    rw [if_pos rfl] at hx
    rw [if_neg hne, ← hx] at hy
    exact (hnew hne).resolve_left fun hcell => hcell hy
  · rw [if_neg hzx] at hx
    by_cases hzy : z = y
    · subst hzy
      rw [if_pos rfl] at hy
      rw [← hy] at hx
      exact ((hnew hzx).resolve_left fun hcell => hcell hx).symm
    · rw [if_neg hzy] at hy
      exact ⟨cell, hx, hy⟩

/-- A write that is allowed leaves the scope without a nil that is shared. -/
theorem not_sharesNil_put (h : s.Anchored) (hframe : scope.frame < s.frames.size)
    (hshares : ¬ s.SharesNil scope) (hheld : checkHeld x (s.heldType? scope x) v = .ok ()) :
    ¬ (s.put scope x v).SharesNil scope := by
  rintro ⟨y, z, hne, hyz, hnil⟩
  have hyz := shares_of_put h hframe hne hyz
  rcases heldType?_put h hframe x v y with ⟨hxy, htype⟩ | ⟨-, -, htype⟩
  · -- The name written shares the cell with another name, so it held nil before or holds it never.
    have htype := Option.some.inj (htype.symm.trans hnil)
    obtain ⟨w, hxw, hsharesw⟩ : ∃ w, x ≠ w ∧ s.Shares scope x w := by
      rcases hxy with rfl | hxy
      · exact ⟨z, hne, hyz⟩
      · by_cases hx : x = y
        · exact ⟨z, hx ▸ hne, hx ▸ hyz⟩
        · exact ⟨y, hx, hxy⟩
    refine hshares ⟨x, w, hxw, hsharesw, ?_⟩
    rcases hsharesw.nil_or_same hheld with hnil | hsame
    · exact hnil
    · rw [hsame, htype]
  · exact hshares ⟨y, z, hne, hyz, htype.symm.trans hnil⟩

/-! ## Batches -/

/-- If no nil is shared, the types that are foretold stay those that are held. -/
theorem checkWrites_eq_setAll (h : s.Anchored) (hframe : scope.frame < s.frames.size)
    (hshares : ¬ s.SharesNil scope)
    (hheld : ∀ x, before.foretold scope pending x = s.heldType? scope x) :
    before.checkWrites scope pending ws = (s.setAll scope ws).map fun _ => () := by
  induction ws generalizing s pending with
  | nil => rfl
  | cons w ws ih =>
    obtain ⟨x, v⟩ := w
    rw [checkWrites_eq_checkHeld, setAll_cons, hheld]
    cases hcheck : checkHeld x (s.heldType? scope x) v with
    | error fault => rfl
    | ok =>
      refine ih (h.put hframe x v) (frame_lt_put hframe x v)
        (not_sharesNil_put h hframe hshares hcheck) fun y => ?_
      rw [foretold_insert]
      by_cases hxy : x = y
      · rw [if_pos hxy, ← hxy, heldType?_put_self h hframe]
      · rw [if_neg hxy, hheld]
        rcases heldType?_put h hframe x v y with ⟨hsame, htype⟩ | ⟨-, -, htype⟩
        · -- The other name held the type of the value already.
          have hsame := hsame.resolve_left hxy
          rw [htype, ← hsame.heldType?_eq]
          rcases hsame.nil_or_same hcheck with hnil | htype
          · exact absurd ⟨x, y, hxy, hsame, hnil⟩ hshares
          · exact htype
        · exact htype.symm

/-- What is foretold differs from what is held only in that it may be nil still. -/
theorem checkWrites_of_setAll (h : s.Anchored) (hframe : scope.frame < s.frames.size)
    (hheld : ∀ x, before.foretold scope pending x = s.heldType? scope x ∨
      before.foretold scope pending x = some .nil)
    (hset : s.setAll scope ws = .ok s') : before.checkWrites scope pending ws = .ok () := by
  induction ws generalizing s pending with
  | nil => rfl
  | cons w ws ih =>
    obtain ⟨x, v⟩ := w
    rw [setAll_cons] at hset
    obtain ⟨_, hcheck, hset⟩ := bind_eq_ok_iff.1 hset
    have hforetold : checkHeld x (before.foretold scope pending x) v = .ok () := by
      rcases hheld x with heq | hnil
      · rw [heq]
        exact hcheck
      · exact checkHeld_ok_iff.2 (.inr (.inl hnil))
    rw [checkWrites_eq_checkHeld, hforetold]
    refine ih (h.put hframe x v) (frame_lt_put hframe x v) (fun y => ?_) hset
    rw [foretold_insert]
    by_cases hxy : x = y
    · rw [if_pos hxy, ← hxy]
      exact .inl (heldType?_put_self h hframe x v).symm
    · rw [if_neg hxy]
      rcases heldType?_put h hframe x v y with ⟨hsame, htype⟩ | ⟨-, -, htype⟩
      · have hsame := hsame.resolve_left hxy
        obtain ⟨cell, hcell, -⟩ := id hsame
        rw [htype]
        refine (hheld y).elim (fun heq => ?_) .inr
        rw [heq, ← hsame.heldType?_eq]
        rcases checkHeld_ok_iff.1 hcheck with hnone | hnil | htype
        · rw [heldType?, hcell] at hnone
          cases hnone
        · exact .inr hnil
        · exact .inl htype
      · rw [htype]
        exact hheld y

/-- Writes of two types to the two names of a nil: the check allows both, and the second cannot be
made. -/
theorem checkAll_of_sharesNil (h : s.Anchored) (hframe : scope.frame < s.frames.size)
    (hshares : s.SharesNil scope) : ∃ x y,
      s.checkAll scope [(x, .bool true), (y, .int 0)] = .ok () ∧
      s.setAll scope [(x, .bool true), (y, .int 0)] = .error (.typeMismatch y .bool .int) := by
  obtain ⟨x, y, hne, hsame, hnil⟩ := hshares
  have hheld : (s.put scope x (.bool true)).heldType? scope y = some .bool := by
    rcases heldType?_put h hframe x (.bool true) y with ⟨-, htype⟩ | ⟨-, hother, -⟩
    · exact htype
    · exact absurd hsame hother
  refine ⟨x, y, ?_, ?_⟩
  · rw [checkAll, checkWrites_eq_checkHeld, foretold_empty, hnil, checkHeld, if_pos (.inl rfl)]
    show s.checkWrites scope _ [(y, .int 0)] = .ok ()
    rw [checkWrites_eq_checkHeld, foretold_insert, if_neg hne, foretold_empty,
      ← hsame.heldType?_eq, hnil]
    rfl
  · rw [setAll_cons, hnil, checkHeld, if_pos (.inl rfl)]
    show (s.put scope x (.bool true)).setAll scope [(y, .int 0)] = _
    rw [setAll_cons, hheld]
    rfl

end Store

namespace Eval

/-- The check of a batch leaves the state as it is, and the writes of a batch that is refused are
not made. -/
theorem assignAll_eq_checkAll (scope : Scope) (position : Position) (ws : List (String × Value))
    (a : State) : assignAll scope position ws a = match a.store.checkAll scope ws with
      | .ok () => assignNames scope position ws a
      | .error fault => .error (.error ⟨.scope fault, position⟩) a := by
  cases hcheck : a.store.checkAll scope ws with
  | ok => exact bind_ok (inspect_of_ok hcheck)
  | error fault => exact bind_error (inspect_of_error hcheck)

end Eval

/-- The check of a batch says for all batches what its writes come to, down to the fault of the
first that cannot be made, exactly in the scopes where no cell with two names holds nil. In no scope
does it refuse writes that can be made. It changes nothing itself: writes that it allows are made in
the state that it found, and if it refuses them that state stays. -/
theorem batch_check_exact_iff {s : Store} (h : s.Anchored) {scope : Scope}
    (hframe : scope.frame < s.frames.size) :
    ((∀ ws, s.checkAll scope ws = (s.setAll scope ws).map fun _ => ()) ↔ ¬ s.SharesNil scope) ∧
    (∀ ws s', s.setAll scope ws = .ok s' → s.checkAll scope ws = .ok ()) ∧
    ∀ (a : State) position ws, a.store = s →
      Eval.assignAll scope position ws a = match s.checkAll scope ws with
        | .ok () => Eval.assignNames scope position ws a
        | .error fault => .error (.error ⟨.scope fault, position⟩) a := by
  refine ⟨⟨fun hall hshares => ?_, fun hshares ws => ?_⟩, fun ws s' hset => ?_, ?_⟩
  · obtain ⟨x, y, hcheck, hset⟩ := Store.checkAll_of_sharesNil h hframe hshares
    have heq := hall [(x, .bool true), (y, .int 0)]
    rw [hcheck, hset] at heq
    cases heq
  · exact Store.checkWrites_eq_setAll h hframe hshares fun x => Store.foretold_empty s scope x
  · exact Store.checkWrites_of_setAll h hframe (fun x => .inl (Store.foretold_empty s scope x)) hset
  · rintro a position ws rfl
    exact Eval.assignAll_eq_checkAll scope position ws a

/-- Two names share a whole number, and the check is right about all batches. -/
theorem batch_check_exact_iff_int : ∃ s : Store,
    s = ((Store.empty.newFrame ∅).2.put .global "a" (.int 1)).bind 0 "b" 0 ∧
      s.Shares .global "a" "b" ∧ ¬ s.SharesNil .global ∧
      ∀ ws, s.checkAll .global ws = (s.setAll .global ws).map fun _ => () := by
  obtain ⟨s, hs⟩ : ∃ s : Store,
    s = ((Store.empty.newFrame ∅).2.put .global "a" (.int 1)).bind 0 "b" 0 := ⟨_, rfl⟩
  have hanchored : s.Anchored := by
    rw [hs]
    have hframe : Scope.global.frame < (Store.empty.newFrame ∅).2.frames.size := by decide
    exact (Store.anchored_empty.newFrame.put hframe "a" (.int 1)).bind (by decide) "b" (by decide)
  have hsize : s.cells.size = 1 := by rw [hs]; rfl
  have hread : s.read 0 = .int 1 := by rw [hs]; rfl
  have hshares : ¬ s.SharesNil .global := by
    rintro ⟨x, y, -, ⟨cell, hx, -⟩, hnil⟩
    have hcell := hanchored x cell ⟨_, hx⟩
    rw [hsize, Nat.lt_one_iff] at hcell
    rw [Store.heldType?, hx, hcell, Option.map_some, hread] at hnil
    cases hnil
  have hframe : Scope.global.frame < s.frames.size := by rw [hs]; decide
  refine ⟨s, hs, ⟨0, ?_, ?_⟩, hshares, (batch_check_exact_iff hanchored hframe).1.2 hshares⟩
  · rw [hs]; rfl
  · rw [hs]; rfl

/-- Two names share a nil. The check allows a whole number for the one and a string for the other,
but the string cannot be written. -/
theorem batch_check_misses_sharing : ∃ s : Store,
    s = ((Store.empty.newFrame ∅).2.put .global "a" .nil).bind 0 "b" 0 ∧
      s.checkAll .global [("a", .int 1), ("b", .string "x")] = .ok () ∧
      s.setAll .global [("a", .int 1), ("b", .string "x")] =
        .error (.typeMismatch "b" .int .string) :=
  ⟨_, rfl, rfl, rfl⟩

end Scripting
