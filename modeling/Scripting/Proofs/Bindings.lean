import Mathlib.Tactic.ByContra
import Scripting.Store

/-!
# Proofs: how the bindings of a store grow

Frames and cells are never taken away, and a name keeps the cell it has in a frame. What differs
between two moments is which frames may have got names: those are the `opened` ones of `Extends`,
and all other frames that were there are the very same.
-/

namespace Scripting

namespace Scope

/-- The frame of the scope, if it is that of the top level. Only there does an assignment make
bindings. -/
def opened (scope : Scope) (frame : FrameId) : Prop :=
  frame = scope.frame ∧ scope.frame = 0

end Scope

namespace Store

/-- Some frame binds the name to the cell. -/
def Binds (s : Store) (name : String) (cell : CellId) : Prop :=
  ∃ frame, (s.bindings frame).get? name = some cell

/-- `s'` comes after `s`: only `opened` frames got names, and no binding changed its cell. -/
structure Extends (opened : FrameId → Prop) (s s' : Store) : Prop where
  cells : s.cells.size ≤ s'.cells.size
  frames : s.frames.size ≤ s'.frames.size
  kept : ∀ {frame name cell}, (s.bindings frame).get? name = some cell →
    (s'.bindings frame).get? name = some cell
  closed : ∀ {frame}, frame < s.frames.size → ¬ opened frame → s'.bindings frame = s.bindings frame

variable {s s' s'' : Store} {opened opened' : FrameId → Prop} {scope : Scope} {name : String}
  {cell : CellId} {frame : FrameId}

/-! ## The order on stores -/

theorem Extends.refl (opened : FrameId → Prop) (s : Store) : s.Extends opened s :=
  ⟨Nat.le_refl _, Nat.le_refl _, fun h => h, fun _ _ => rfl⟩

/-- The frames opened on the way from `s'` on may be new to `s`. -/
theorem Extends.trans' (h : s.Extends opened s') (h' : s'.Extends opened' s'')
    (hopen : ∀ frame, opened' frame → opened frame ∨ s.frames.size ≤ frame) :
    s.Extends opened s'' := by
  refine ⟨Nat.le_trans h.cells h'.cells, Nat.le_trans h.frames h'.frames,
    fun hb => h'.kept (h.kept hb), ?_⟩
  intro frame hlt hclosed
  have hclosed' : ¬ opened' frame := by
    intro ho
    rcases hopen frame ho with ho | hle
    · exact hclosed ho
    · exact absurd hlt (Nat.not_lt.2 hle)
  rw [h'.closed (Nat.lt_of_lt_of_le hlt h.frames) hclosed', h.closed hlt hclosed]

theorem Extends.trans (h : s.Extends opened s') (h' : s'.Extends opened s'') :
    s.Extends opened s'' :=
  h.trans' h' fun _ ho => Or.inl ho

theorem Extends.mono (h : s.Extends opened s') (hopen : ∀ frame, opened frame → opened' frame) :
    s.Extends opened' s' :=
  ⟨h.cells, h.frames, h.kept, fun hlt hclosed => h.closed hlt fun ho => hclosed (hopen _ ho)⟩

theorem Binds.extends (h : s.Binds name cell) (he : s.Extends opened s') : s'.Binds name cell :=
  let ⟨frame, hb⟩ := h
  ⟨frame, he.kept hb⟩

theorem contains_of_extends (h : s.contains scope name = true) (he : s.Extends opened s') :
    s'.contains scope name = true := by
  obtain ⟨cell, hcell⟩ := Option.isSome_iff_exists.1 h
  exact Option.isSome_iff_exists.2 ⟨cell, he.kept hcell⟩

/-! ## Looking up -/

/-- A name that the frame of the scope binds is found there. -/
theorem cell?_of_ownCell? (h : s.ownCell? scope name = some cell) :
    s.cell? scope name = some cell := by
  unfold ownCell? at h
  simp [cell?, Scope.chain, h]

/-- A scope without frames around it finds what its own frame binds. -/
theorem cell?_eq_ownCell? (h : scope.outer = []) : s.cell? scope name = s.ownCell? scope name := by
  unfold cell? ownCell? Scope.chain
  rw [h]
  exact List.findSome?_singleton

/-- What a scope finds is bound in one of its frames. -/
theorem binds_of_cell? (h : s.cell? scope name = some cell) : s.Binds name cell := by
  obtain ⟨frame, -, hb⟩ := List.exists_of_findSome?_eq_some h
  exact ⟨frame, hb⟩

/-- A name that a scope finds it also finds later. -/
theorem cell?_of_extends (h : (s.cell? scope name).isSome) (he : s.Extends opened s') :
    (s'.cell? scope name).isSome := by
  unfold cell? at h ⊢
  rw [List.findSome?_isSome_iff] at h ⊢
  obtain ⟨frame, hframe, hsome⟩ := h
  obtain ⟨cell, hcell⟩ := Option.isSome_iff_exists.1 hsome
  exact ⟨frame, hframe, Option.isSome_iff_exists.2 ⟨cell, he.kept hcell⟩⟩

/-- A frame that a scope reads to find a name exists. -/
theorem lt_of_get? (h : (s.bindings frame).get? name = some cell) : frame < s.frames.size := by
  by_contra hge
  rw [bindings, Array.getElem?_eq_none (Nat.not_lt.1 hge)] at h
  simp at h

theorem value_eq_ok (h : s.cell? scope name = some cell) :
    s.value scope name = .ok (s.read cell) := by
  simp [value, Store.cell, h, Except.map]

/-! ## Changing the store -/

@[simp] theorem bindings_write (s : Store) (cell : CellId) (value : Value) (frame : FrameId) :
    (s.write cell value).bindings frame = s.bindings frame := rfl

@[simp] theorem bindings_newCell (s : Store) (value : Value) (frame : FrameId) :
    (s.newCell value).2.bindings frame = s.bindings frame := rfl

theorem extends_write (opened : FrameId → Prop) (s : Store) (cell : CellId) (value : Value) :
    s.Extends opened (s.write cell value) :=
  ⟨by simp [write], Nat.le_refl _, fun h => h, fun _ _ => rfl⟩

theorem extends_newFrame (opened : FrameId → Prop) (s : Store) (bindings : NameMap CellId) :
    s.Extends opened (s.newFrame bindings).2 := by
  refine ⟨Nat.le_refl _, by simp [newFrame], ?_, ?_⟩
  · intro frame name cell h
    rw [bindings_newFrame, if_neg (Nat.ne_of_lt (lt_of_get? h))]
    exact h
  · intro frame hlt _
    rw [bindings_newFrame, if_neg (Nat.ne_of_lt hlt)]

theorem put_of_some {value : Value} (h : s.ownCell? scope name = some cell) :
    s.put scope name value = s.write cell value := by
  simp [put, h]

theorem put_of_none {value : Value} (h : s.ownCell? scope name = none) :
    s.put scope name value = (s.newCell value).2.bind scope.frame name s.cells.size := by
  simp [put, h, newCell]

/-- A name that has no cell in the frame of the scope gets a new one. -/
theorem bindings_put_of_none {value : Value} (hframe : scope.frame < s.frames.size)
    (h : s.ownCell? scope name = none) (frame : FrameId) :
    (s.put scope name value).bindings frame =
      if scope.frame = frame then (s.bindings frame).insert name s.cells.size
      else s.bindings frame := by
  rw [put_of_none h, bindings_bind (s.newCell value).2 hframe]
  split
  · next e => subst e; rfl
  · rfl

/-- A write makes a binding only for a name that has none in the frame of the scope. -/
theorem extends_put (hframe : scope.frame < s.frames.size) (value : Value)
    (hopen : s.contains scope name = false → opened scope.frame) :
    s.Extends opened (s.put scope name value) := by
  cases hown : s.ownCell? scope name with
  | some cell => rw [put_of_some hown]; exact extends_write opened s cell value
  | none =>
    have ho : opened scope.frame := hopen (by simp [contains, hown])
    refine ⟨by simp [put_of_none hown, newCell, bind], by simp [put_of_none hown, newCell, bind],
      ?_, ?_⟩
    · intro frame x c h
      rw [bindings_put_of_none hframe hown]
      split
      · next e =>
        subst e
        have hne : name ≠ x := by
          rintro rfl
          exact absurd (hown.symm.trans h) (by simp)
        rw [NameMap.get?_insert_of_ne _ _ hne]
        exact h
      · exact h
    · intro frame _ hclosed
      have hne : scope.frame ≠ frame := by
        rintro rfl
        exact hclosed ho
      rw [bindings_put_of_none hframe hown, if_neg hne]

/-- A name that was written is bound in the frame of the scope. -/
theorem contains_put (hframe : scope.frame < s.frames.size) (name : String) (value : Value) :
    (s.put scope name value).contains scope name = true := by
  unfold contains ownCell?
  cases hown : s.ownCell? scope name with
  | some cell =>
    rw [put_of_some hown, bindings_write]
    unfold ownCell? at hown
    simp [hown]
  | none => simp [bindings_put_of_none hframe hown]

/-- The values in the cells after a write: the new one in one cell, and all others as before. -/
theorem read_put {value : Value} (hbound : ∀ x c, s.Binds x c → c < s.cells.size) (cell : CellId) :
    (s.put scope name value).read cell =
      if s.ownCell? scope name = some cell ∨ s.ownCell? scope name = none ∧ cell = s.cells.size
      then value else s.read cell := by
  cases hown : s.ownCell? scope name with
  | some own =>
    rw [put_of_some hown, read_write s (hbound name own ⟨scope.frame, hown⟩)]
    simp
  | none =>
    rw [put_of_none hown]
    exact (read_newCell s value cell).trans (by simp)

/-- What is bound after a write was bound before, or it is the new cell of the name. -/
theorem binds_put {value : Value} (hframe : scope.frame < s.frames.size) {x : String}
    {c : CellId} (h : (s.put scope name value).Binds x c) :
    s.Binds x c ∨ s.ownCell? scope name = none ∧ x = name ∧ c = s.cells.size := by
  obtain ⟨frame, hb⟩ := h
  cases hown : s.ownCell? scope name with
  | some own =>
    rw [put_of_some hown, bindings_write] at hb
    exact Or.inl ⟨frame, hb⟩
  | none =>
    rw [bindings_put_of_none hframe hown] at hb
    split at hb
    · next e =>
      rw [NameMap.get?_insert] at hb
      split at hb
      · next hx => exact Or.inr ⟨rfl, hx.symm, (Option.some.inj hb).symm⟩
      · exact Or.inl ⟨frame, hb⟩
    · exact Or.inl ⟨frame, hb⟩

end Store

end Scripting
