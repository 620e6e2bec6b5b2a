import Scripting.Proofs.Literals

/-!
# Proofs: how the scope of a call is seeded

A call starts in a new frame that binds the cells taken along, then the locals to nil, then the
parameters to the arguments. The locals never clash with the cells taken along, so that only the
parameters can be refused; and a parameter is written through a cell taken along only if it is also
declared to belong outside.
-/

namespace Scripting

/-- Can values be given to names in order, each in place of nil or of a value of its own type?
`held` says what the names hold before. -/
def Fits (held : String → Value) : List (String × Value) → Prop
  | [] => True
  | (x, v) :: rest =>
    ((held x).isNil = true ∨ (held x).sameType v = true) ∧
      Fits (fun y => if x = y then v else held y) rest

theorem fits_of_nodup {held : String → Value} {ws : List (String × Value)}
    (hnodup : (ws.map Prod.fst).Nodup) (hnil : ∀ w ∈ ws, (held w.1).isNil = true) :
    Fits held ws := by
  induction ws generalizing held with
  | nil => trivial
  | cons w ws ih =>
    obtain ⟨x, v⟩ := w
    rw [List.map_cons, List.nodup_cons] at hnodup
    refine ⟨Or.inl (hnil _ List.mem_cons_self), ih hnodup.2 fun w hw => ?_⟩
    have hne : x ≠ w.1 := by
      rintro rfl
      exact hnodup.1 (List.mem_map.2 ⟨w, hw, rfl⟩)
    rw [if_neg hne]
    exact hnil w (List.mem_cons_of_mem _ hw)

theorem fits_of_nils {held : String → Value} {names : List String}
    (hnil : ∀ x ∈ names, (held x).isNil = true) : Fits held (names.map (·, .nil)) := by
  induction names generalizing held with
  | nil => trivial
  | cons x names ih =>
    refine ⟨Or.inl (hnil x List.mem_cons_self), ih fun y hy => ?_⟩
    by_cases hne : x = y
    · rw [if_pos hne]
      rfl
    · rw [if_neg hne]
      exact hnil y (List.mem_cons_of_mem _ hy)

namespace Store

variable {s s' : Store} {scope : Scope} {x y : String} {v : Value} {ws : List (String × Value)}
  {cell : CellId}

/-! ## Which writes succeed -/

/-- What the frame of the scope itself holds under a name, nil for a name that it does not bind. -/
def held (s : Store) (scope : Scope) (x : String) : Value :=
  ((s.ownCell? scope x).map s.read).getD .nil

theorem held_put (h : s.Distinct) (hframe : scope.frame < s.frames.size) (x : String) (v : Value)
    (y : String) : (s.put scope x v).held scope y = if x = y then v else s.held scope y := by
  by_cases hxy : x = y
  · subst hxy
    obtain ⟨cell, hown, hread⟩ := read_put_self h hframe x v
    simp [held, hown, hread]
  · have hown : (s.put scope x v).ownCell? scope y = s.ownCell? scope y := by
      rw [ownCell?_put hframe, if_neg hxy]
    unfold held
    rw [if_neg hxy, hown]
    cases hy : s.ownCell? scope y with
    | none => rfl
    | some cell =>
      have hne : (s.put scope x v).ownCell? scope x ≠ some cell :=
        (h.put hframe x v).ne_cell (Ne.symm hxy) (hown.trans hy)
      show (s.put scope x v).read cell = s.read cell
      exact read_put_of_ne h hframe hne

theorem checkSet_eq_ok_iff : s.checkSet scope x v = .ok () ↔
    (s.held scope x).isNil = true ∨ (s.held scope x).sameType v = true := by
  unfold checkSet held
  cases s.ownCell? scope x with
  | none => simp [Value.isNil]
  | some cell =>
    show checkType x (s.read cell) v = .ok () ↔ (s.read cell).isNil = true ∨ _
    unfold checkType
    rw [← Bool.or_eq_true]
    split
    · next h => exact ⟨fun _ => h, fun _ => rfl⟩
    · next h => exact ⟨nofun, fun h' => absurd h' h⟩

/-- Writes can all be made if and only if they fit what the names hold. -/
theorem setAll_ok_iff (h : s.Distinct) (hframe : scope.frame < s.frames.size) :
    (∃ s', s.setAll scope ws = .ok s') ↔ Fits (s.held scope) ws := by
  induction ws generalizing s with
  | nil => exact ⟨fun _ => trivial, fun _ => ⟨s, rfl⟩⟩
  | cons w ws ih =>
    obtain ⟨x, v⟩ := w
    have he : s.Extends (fun _ => True) (s.put scope x v) :=
      extends_put hframe v fun _ => trivial
    have hheld : (fun y => if x = y then v else s.held scope y) = (s.put scope x v).held scope :=
      funext fun y => (held_put h hframe x v y).symm
    have hrest := ih (h.put hframe x v) (Nat.lt_of_lt_of_le hframe he.frames)
    unfold Fits
    rw [hheld, ← hrest, ← checkSet_eq_ok_iff]
    constructor
    · rintro ⟨s', hset⟩
      obtain ⟨s₁, hs₁, hset⟩ := bind_eq_ok_iff.1 hset
      rw [set_eq_ok hs₁] at hset
      obtain ⟨_, hcheck, -⟩ := bind_eq_ok_iff.1 hs₁
      exact ⟨hcheck, s', hset⟩
    · rintro ⟨hcheck, s', hset⟩
      refine ⟨s', ?_⟩
      unfold setAll
      rw [set_of_checkSet hcheck]
      exact hset

theorem held_of_setAll_nils (h : s.Distinct) (hframe : scope.frame < s.frames.size)
    {names : List String} (hset : s.setAll scope (names.map (·, .nil)) = .ok s')
    (hx : x ∈ names → s.held scope x = .nil) : s'.held scope x = s.held scope x := by
  induction names generalizing s with
  | nil =>
    cases hset
    rfl
  | cons name names ih =>
    obtain ⟨s₁, hs₁, hset⟩ := bind_eq_ok_iff.1 hset
    rw [set_eq_ok hs₁] at hset
    have he : s.Extends (fun _ => True) (s.put scope name .nil) :=
      extends_put hframe .nil fun _ => trivial
    have hput : (s.put scope name .nil).held scope x = s.held scope x := by
      rw [held_put h hframe]
      split
      · next e => exact (hx (e ▸ List.mem_cons_self)).symm
      · rfl
    rw [← hput]
    refine ih (h.put hframe name .nil) (Nat.lt_of_lt_of_le hframe he.frames) hset fun hmem => ?_
    rw [hput]
    exact hx (List.mem_cons_of_mem _ hmem)

theorem size_le_of_setAll (h : s.Distinct) (hframe : scope.frame < s.frames.size)
    (hset : s.setAll scope ws = .ok s') (hnone : s.ownCell? scope x = none)
    (hown : s'.ownCell? scope x = some cell) : s.cells.size ≤ cell := by
  induction ws generalizing s with
  | nil =>
    cases hset
    rw [hnone] at hown
    cases hown
  | cons w ws ih =>
    obtain ⟨y, v⟩ := w
    obtain ⟨s₁, hs₁, hset⟩ := bind_eq_ok_iff.1 hset
    rw [set_eq_ok hs₁] at hset
    have he : s.Extends (fun _ => True) (s.put scope y v) :=
      extends_put hframe v fun _ => trivial
    have hframe₁ := Nat.lt_of_lt_of_le hframe he.frames
    have hown₁ := ownCell?_put hframe y v x
    -- The first write to the name makes its cell, and later ones keep it.
    by_cases hyx : y = x
    · subst hyx
      rw [if_pos rfl, hnone] at hown₁
      obtain ⟨-, he', -⟩ := written_of_setAll (h.put hframe y v) hframe₁ hset
      have hkept : s'.ownCell? scope y = some s.cells.size := he'.kept hown₁
      rw [hown] at hkept
      cases hkept
      exact Nat.le_refl _
    · rw [if_neg hyx, hnone] at hown₁
      exact Nat.le_trans he.cells (ih (h.put hframe y v) hframe₁ hset hown₁)

end Store

namespace Eval

open Store

variable {s s' : State} {scope : Scope} {position : Position}

/-- Writes in order are all made, or those before the first that is refused. -/
theorem assignNames_cases (scope : Scope) (position : Position) (ws : List (String × Value))
    (s : State) :
    (∃ store, s.store.setAll scope ws = .ok store ∧
      assignNames scope position ws s = .ok () { s with store := store }) ∨
    ∃ before x v after store fault, ws = before ++ (x, v) :: after ∧
      s.store.setAll scope before = .ok store ∧ store.checkSet scope x v = .error fault ∧
      assignNames scope position ws s =
        .error (.error ⟨.scope fault, position⟩) { s with store := store } := by
  induction ws generalizing s with
  | nil => exact Or.inl ⟨s.store, rfl, rfl⟩
  | cons w ws ih =>
    obtain ⟨x, v⟩ := w
    cases hcheck : s.store.checkSet scope x v with
    | error fault =>
      refine Or.inr ⟨[], x, v, ws, s.store, fault, rfl, rfl, hcheck, ?_⟩
      exact bind_error (bind_error (inspect_of_error hcheck))
    | ok =>
      have hassign : assignName scope position x v s =
          .ok () { s with store := s.store.put scope x v } := assignName_of_ok hcheck
      rcases ih { s with store := s.store.put scope x v } with
        ⟨store, hset, h⟩ | ⟨before, y, w, after, store, fault, rfl, hset, hfault, h⟩
      · refine Or.inl ⟨store, ?_, (bind_ok hassign).trans h⟩
        unfold setAll
        rw [set_of_checkSet hcheck]
        exact hset
      · refine Or.inr ⟨(x, v) :: before, y, w, after, store, fault, rfl, ?_, hfault,
          (bind_ok hassign).trans h⟩
        unfold setAll
        rw [set_of_checkSet hcheck]
        exact hset

theorem setAll_of_assignNames {ws : List (String × Value)}
    (h : assignNames scope position ws s = .ok () s') : s.store.setAll scope ws = .ok s'.store := by
  rcases assignNames_cases scope position ws s with
    ⟨store, hset, hok⟩ | ⟨_, _, _, _, _, _, _, _, _, herror⟩
  · cases hok.symm.trans h
    exact hset
  · cases herror.symm.trans h

end Eval

open Eval

/-! ## Before the parameters -/

namespace Function

/-- What a name holds in the frame of a call before the parameters are bound: the value of the cell
taken along, or nil. -/
def heldAtCall (f : Function) (s : Store) (x : String) : Value :=
  ((f.captured.get? x).map s.read).getD .nil

/-- `store` is what `s` becomes when the frame of a call of the function has its cells taken along
and its locals. -/
structure Prepared (f : Function) (s : Store) (scope : Scope) (store : Store) : Prop where
  distinct : store.Distinct
  frame : scope.frame < store.frames.size
  cells : s.cells.size ≤ store.cells.size
  taken : ∀ {x c}, f.captured.get? x = some c → store.ownCell? scope x = some c
  fresh : ∀ {x c}, f.captured.get? x = none → store.ownCell? scope x = some c → s.cells.size ≤ c
  locals : ∀ x ∈ f.locals, store.contains scope x = true
  held : ∀ x, store.held scope x = f.heldAtCall s x
  read : ∀ cell < s.cells.size, store.read cell = s.read cell

variable {f : Function} {s store store' : Store} {scope : Scope} {outer : List FrameId}
  {ws : List (String × Value)} {cell : CellId}

theorem prepared_of_setAll (hs : s.Distinct)
    (hcaptured : ∀ {x c}, f.captured.get? x = some c → s.Binds x c)
    (hlocals : ∀ x ∈ f.locals, f.captured.get? x = none)
    (hset : (s.newFrame f.captured).2.setAll ⟨s.frames.size, outer⟩ (f.locals.map (·, .nil)) =
      .ok store) : f.Prepared s ⟨s.frames.size, outer⟩ store := by
  have hs₁ := hs.newFrame hcaptured
  have hframe : (Scope.mk s.frames.size outer).frame < (s.newFrame f.captured).2.frames.size := by
    simp [Store.newFrame]
  have hown : ∀ x, (s.newFrame f.captured).2.ownCell? ⟨s.frames.size, outer⟩ x =
      f.captured.get? x := by
    intro x
    rw [Store.ownCell?, Store.bindings_newFrame, if_pos rfl]
  obtain ⟨hdistinct, he, hwritten⟩ := Store.written_of_setAll hs₁ hframe hset
  have hkept : ∀ {x c}, f.captured.get? x = some c →
      store.ownCell? ⟨s.frames.size, outer⟩ x = some c :=
    fun hx => he.kept ((hown _).trans hx)
  have hfresh : ∀ {x c}, f.captured.get? x = none →
      store.ownCell? ⟨s.frames.size, outer⟩ x = some c → s.cells.size ≤ c := by
    intro x c hx hc
    have hle := Store.size_le_of_setAll hs₁ hframe hset ((hown x).trans hx) hc
    exact hle
  -- The cells of the locals are new, so all cells that there were are as before.
  have hread : ∀ cell, (∀ x ∈ f.locals, store.ownCell? ⟨s.frames.size, outer⟩ x ≠ some cell) →
      store.read cell = s.read cell := by
    intro cell hcell
    refine hwritten.others cell fun w hw => ?_
    obtain ⟨x, hx, rfl⟩ := List.mem_map.1 hw
    exact hcell x hx
  refine ⟨hdistinct, Nat.lt_of_lt_of_le hframe he.frames, he.cells, hkept, hfresh, fun x hx => ?_,
    fun x => ?_, fun cell hcell => ?_⟩
  · exact hwritten.bound (x, .nil) (List.mem_map_of_mem hx)
  · have hheld : (s.newFrame f.captured).2.held ⟨s.frames.size, outer⟩ x = f.heldAtCall s x := by
      unfold Store.held heldAtCall
      rw [hown]
      rfl
    rw [← hheld]
    refine Store.held_of_setAll_nils hs₁ hframe hset fun hx => ?_
    rw [hheld, heldAtCall, hlocals x hx]
    rfl
  · refine hread cell fun x hx hc => ?_
    exact absurd hcell (Nat.not_lt.2 (hfresh (hlocals x hx) hc))

theorem Prepared.parameters (h : f.Prepared s scope store)
    (hset : store.setAll scope ws = .ok store') {before after : List (String × Value)}
    {x : String} {v : Value} (hws : ws = before ++ (x, v) :: after)
    (hafter : ∀ w ∈ after, w.1 ≠ x) : store'.value? scope x = some v := by
  obtain ⟨-, -, hwritten⟩ := Store.written_of_setAll h.distinct h.frame hset
  obtain ⟨cell, hown, hread⟩ := hwritten.last before x v after hws hafter
  rw [Store.value?, Store.cell?_of_ownCell? hown, Option.map_some, hread]

theorem Prepared.nil_of_local (h : f.Prepared s scope store)
    (hset : store.setAll scope ws = .ok store') {x : String} (hx : x ∈ f.locals)
    (hcaptured : f.captured.get? x = none) (hws : ∀ w ∈ ws, w.1 ≠ x) :
    store'.value? scope x = some .nil := by
  obtain ⟨hdistinct, he, hwritten⟩ := Store.written_of_setAll h.distinct h.frame hset
  obtain ⟨cell, hown⟩ := Option.isSome_iff_exists.1 (h.locals x hx)
  have hown' : store'.ownCell? scope x = some cell := he.kept hown
  have hread : store'.read cell = store.read cell :=
    hwritten.others cell fun w hw => hdistinct.ne_cell (Ne.symm (hws w hw)) hown'
  have hheld := h.held x
  rw [Store.held, hown, heldAtCall, hcaptured] at hheld
  have hnil : store.read cell = .nil := hheld
  rw [Store.value?, Store.cell?_of_ownCell? hown', Option.map_some, hread, hnil]

/-- A name that nothing was taken along for has a new cell. -/
theorem Prepared.fresh_of_setAll (h : f.Prepared s scope store)
    (hset : store.setAll scope ws = .ok store') {x : String} (hx : f.captured.get? x = none)
    (hown : store'.ownCell? scope x = some cell) : s.cells.size ≤ cell := by
  obtain ⟨-, he, -⟩ := Store.written_of_setAll h.distinct h.frame hset
  cases hbefore : store.ownCell? scope x with
  | none =>
    exact Nat.le_trans h.cells (Store.size_le_of_setAll h.distinct h.frame hset hbefore hown)
  | some c =>
    have hkept : store'.ownCell? scope x = some c := he.kept hbefore
    cases hown.symm.trans hkept
    exact h.fresh hx hbefore

/-- The writes to parameters reach only the cells that were taken along under their names. -/
theorem Prepared.read_of_setAll (h : f.Prepared s scope store)
    (hset : store.setAll scope ws = .ok store') (hcell : cell < s.cells.size)
    (hws : ∀ w ∈ ws, f.captured.get? w.1 ≠ some cell) : store'.read cell = s.read cell := by
  obtain ⟨-, he, hwritten⟩ := Store.written_of_setAll h.distinct h.frame hset
  rw [← h.read cell hcell]
  refine hwritten.others cell fun w hw hown => ?_
  cases hx : f.captured.get? w.1 with
  | some c =>
    have hkept : store'.ownCell? scope w.1 = some c := he.kept (h.taken hx)
    exact hws w hw (hx.trans (hkept.symm.trans hown))
  | none => exact absurd hcell (Nat.not_lt.2 (h.fresh_of_setAll hset hx hown))

end Function

/-! ## What a function takes along of what it binds -/

namespace Analysis

variable {a : Analysis} {x : String}

/-- Of the names that it binds, a function takes along only those that it declares to belong
outside. -/
theorem mem_externs_of_captures (h : x ∈ a.captures) (hbinds : a.binds x = true) :
    x ∈ a.externs := by
  rcases Names.mem_union.1 h with h | h
  · rcases Names.mem_union.1 h with h | h
    · exact h
    · have hunbound := (Names.mem_filter.1 h).2
      rw [hbinds] at hunbound
      cases hunbound
  · have hunbound := (Names.mem_filter.1 h).2
    rw [hbinds] at hunbound
    cases hunbound

theorem binds_of_mem_parameters (h : x ∈ a.parameters) : a.binds x = true := by
  simp [binds, h]

theorem binds_of_mem_locals (h : x ∈ a.locals) : a.binds x = true := by
  simp [binds, h]

theorem Governs.not_mem_externs {body : Code} (h : a.Governs body) (hx : x ∈ a.locals) :
    x ∉ a.externs := by
  obtain ⟨m, ha, -⟩ := h.noted
  rw [ha] at hx ⊢
  exact (Names.mem_sdiff.1 hx).2

end Analysis

namespace Function

variable {f : Function} {a : Analysis} {x : String} {cell : CellId}

/-- A parameter that is taken along is declared to belong outside. -/
theorem MadeFrom.mem_externs (h : f.MadeFrom a) (hx : x ∈ f.parameters)
    (hcell : f.captured.get? x = some cell) : x ∈ a.externs := by
  have hcaptures : x ∈ a.captures := h.captures (hcell ▸ rfl)
  exact Analysis.mem_externs_of_captures hcaptures
    (Analysis.binds_of_mem_parameters (h.parameters ▸ hx))

theorem MadeFrom.not_captured (h : f.MadeFrom a) (hx : x ∈ f.locals) :
    f.captured.get? x = none := by
  rw [h.locals, Names.mem_toList] at hx
  rw [Option.eq_none_iff_forall_ne_some]
  intro cell hcell
  have hcaptures : x ∈ a.captures := h.captures (hcell ▸ rfl)
  exact h.governs.not_mem_externs hx
    (Analysis.mem_externs_of_captures hcaptures (Analysis.binds_of_mem_locals hx))

end Function

/-! ## The scope of a call -/

namespace Eval

variable {s : State} {f : Function} {a : Analysis} {arguments : List Value}

/-- The scope of a call of a function that a literal made binds the cells taken along and the locals
whatever happens; what is left are the parameters. -/
theorem enter_eq (hs : s.store.Distinct)
    (hcaptured : ∀ {x c}, f.captured.get? x = some c → s.store.Binds x c) (hmade : f.MadeFrom a)
    (arguments : List Value) (outer : List FrameId) (position : Position) :
    ∃ store, f.Prepared s.store ⟨s.store.frames.size, outer⟩ store ∧
      enter f arguments outer position s =
        (assignNames ⟨s.store.frames.size, outer⟩ position (f.parameters.zip arguments) >>=
          fun _ => pure ⟨s.store.frames.size, outer⟩) { s with store := store } := by
  have hnil : ∀ x ∈ f.locals,
      ((s.store.newFrame f.captured).2.held ⟨s.store.frames.size, outer⟩ x).isNil = true := by
    intro x hx
    unfold Store.held
    rw [Store.ownCell?, Store.bindings_newFrame, if_pos rfl, hmade.not_captured hx]
    rfl
  have hframe : (Scope.mk s.store.frames.size outer).frame <
      (s.store.newFrame f.captured).2.frames.size := by
    simp [Store.newFrame]
  obtain ⟨store, hset⟩ := (Store.setAll_ok_iff (hs.newFrame hcaptured) hframe).2 (fits_of_nils hnil)
  refine ⟨store, Function.prepared_of_setAll hs hcaptured (fun x => hmade.not_captured) hset, ?_⟩
  have hnew : newFrame f.captured s =
      .ok s.store.frames.size { s with store := (s.store.newFrame f.captured).2 } := rfl
  have hlocals : assignNames ⟨s.store.frames.size, outer⟩ position (f.locals.map (·, .nil))
      { s with store := (s.store.newFrame f.captured).2 } = .ok () { s with store := store } :=
    assignNames_of_setAll hset
  unfold enter
  rw [bind_ok hnew]
  exact bind_ok hlocals

theorem prepared_of_enter (hs : s.store.Distinct)
    (hcaptured : ∀ {x c}, f.captured.get? x = some c → s.store.Binds x c) (hmade : f.MadeFrom a)
    {outer : List FrameId} {position : Position} {scope : Scope} {s₀ : State}
    (henter : enter f arguments outer position s = .ok scope s₀) :
    ∃ store, f.Prepared s.store scope store ∧
      store.setAll scope (f.parameters.zip arguments) = .ok s₀.store := by
  obtain ⟨store, hprepared, h⟩ := enter_eq hs hcaptured hmade arguments outer position
  obtain ⟨_, s₁, hassign, hscope⟩ := ok_of_bind (h.symm.trans henter)
  cases hscope
  exact ⟨store, hprepared, setAll_of_assignNames hassign⟩

end Eval

/-- A call of the function starts with fresh variables: its parameters hold the arguments, its other
locals nil, and no cell that there was has changed. -/
def Function.StartsFresh (f : Function) (arguments : List Value) (outer : List FrameId)
    (position : Position) (s : State) : Prop :=
  ∃ scope s₀, enter f arguments outer position s = .ok scope s₀ ∧
    (∀ cell < s.store.cells.size, s₀.store.read cell = s.store.read cell) ∧
    (∀ w ∈ f.parameters.zip arguments, s₀.store.value? scope w.1 = some w.2) ∧
    ∀ x ∈ f.locals, x ∉ f.parameters → s₀.store.value? scope x = some .nil

/-- Cells that there were have changed only if they were taken along under a parameter that is
declared to belong outside. -/
def Function.ChangesOnlyExterns (f : Function) (a : Analysis) (s s' : Store) : Prop :=
  ∀ cell < s.cells.size, s'.read cell ≠ s.read cell →
    ∃ x ∈ f.parameters, x ∈ a.externs ∧ f.captured.get? x = some cell

namespace Moment

/-- A function that there is in a state of a moment: it is in a variable, the moment calls it or
passes it on, or it is a value that the moment ends with. -/
inductive Holds (m : Moment) (f : Function) : State → Prop
  | stored {s cell} (hs : m.At s) (h : s.store.read cell = .function f) : Holds m f s
  | called {values caller position} (h : m.task = .call f values caller position) :
    Holds m f m.state
  | passed {g values caller position} (h : m.task = .call g values caller position)
    (hf : .function f ∈ values) : Holds m f m.state
  | yielded {s values} (h : m.result = .ok values s) (hf : .function f ∈ returned values) :
    Holds m f s

variable {m : Moment} {f : Function} {s : State}

theorem sound_of_yields {task : Task} {s : Store} {values : List Value}
    (h : task.Yields s values) (hf : .function f ∈ returned values) : f.Sound s := by
  have hyielded : ∃ loose, Value.Yielded s loose values := by
    cases task with
    | code | rounds => exact ⟨_, h⟩
    | call => exact ⟨True, .data h⟩
    | writes => exact ⟨True, .data (h ▸ .nil)⟩
  obtain ⟨loose, hyielded⟩ := hyielded
  cases hyielded with
  | data hdata => exact (Value.Yielded.data hdata).returned _ hf
  | returning hdata => exact hdata _ hf
  | breaking | continuing => cases List.mem_singleton.1 hf

theorem Holds.sound (h : m.Holds f s) (hm : m.Fine) : s.store.Sound ∧ f.Sound s.store := by
  cases h with
  | stored hs h =>
    have hsound := (hm.leads.at hs).1
    exact ⟨hsound, (show (Value.function f).IsData s.store from h ▸ hsound.data _)⟩
  | called h =>
    have hready := hm.ready
    rw [h] at hready
    exact ⟨hm.sound, hready.1⟩
  | passed h hf =>
    have hready := hm.ready
    rw [h] at hready
    exact ⟨hm.sound, hready.2 _ hf⟩
  | yielded h hf =>
    obtain ⟨hsound, -, hyields⟩ := hm.safe.of_ok h
    exact ⟨hsound, sound_of_yields hyields hf⟩

end Moment

namespace Function

variable {s : State} {f : Function} {a : Analysis} {arguments : List Value}
  {outer : List FrameId} {position : Position} {store store' : Store} {scope : Scope}

/-- The arguments written so far have changed only cells of parameters that belong outside. -/
theorem Prepared.changesOnlyExterns (h : f.Prepared s.store scope store) (hmade : f.MadeFrom a)
    {ws : List (String × Value)} (hws : ∀ w ∈ ws, w ∈ f.parameters.zip arguments)
    (hset : store.setAll scope ws = .ok store') : f.ChangesOnlyExterns a s.store store' := by
  intro cell hcell hread
  by_contra hnone
  refine hread (h.read_of_setAll hset hcell fun w hw hcaptured => hnone ?_)
  have hparameter : w.1 ∈ f.parameters := (List.of_mem_zip (hws w hw)).1
  exact ⟨w.1, hparameter, hmade.mem_externs hparameter hcaptured, hcaptured⟩

theorem startsFresh (hs : s.store.Distinct)
    (hcaptured : ∀ {x c}, f.captured.get? x = some c → s.store.Binds x c) (hmade : f.MadeFrom a)
    (hcount : arguments.length = f.arity) (hnodup : f.parameters.Nodup)
    (hexterns : ∀ x ∈ f.parameters, x ∉ a.externs) :
    f.StartsFresh arguments outer position s := by
  obtain ⟨store, hprepared, henter⟩ := enter_eq hs hcaptured hmade arguments outer position
  have hnone : ∀ x ∈ f.parameters, f.captured.get? x = none := by
    intro x hx
    rw [Option.eq_none_iff_forall_ne_some]
    exact fun cell hcell => hexterns x hx (hmade.mem_externs hx hcell)
  have hnames : (f.parameters.zip arguments).map Prod.fst = f.parameters :=
    List.map_fst_zip (Nat.le_of_eq hcount.symm)
  have hfits : Fits (store.held ⟨s.store.frames.size, outer⟩) (f.parameters.zip arguments) := by
    refine fits_of_nodup (hnames.symm ▸ hnodup) fun w hw => ?_
    rw [hprepared.held, heldAtCall, hnone _ (List.of_mem_zip hw).1]
    rfl
  obtain ⟨store', hset⟩ := (Store.setAll_ok_iff hprepared.distinct hprepared.frame).2 hfits
  refine ⟨⟨s.store.frames.size, outer⟩, { s with store := store' }, ?_, fun cell hcell => ?_,
    fun w hw => ?_, fun x hx hparameter => ?_⟩
  · rw [henter]
    exact bind_ok (assignNames_of_setAll hset)
  · by_contra hread
    obtain ⟨x, hx, hextern, -⟩ :=
      hprepared.changesOnlyExterns hmade (fun _ h => h) hset cell hcell hread
    exact hexterns x hx hextern
  · -- No name is repeated, so the only argument given to a name is the last one.
    obtain ⟨before, after, hsplit⟩ := List.append_of_mem hw
    refine hprepared.parameters hset hsplit fun w' hw' hsame => ?_
    rw [← hnames, hsplit, List.map_append, List.map_cons] at hnodup
    have hafter := (List.nodup_cons.1 (List.nodup_append.1 hnodup).2.1).1
    exact hafter (List.mem_map.2 ⟨w', hw', hsame⟩)
  · refine hprepared.nil_of_local hset hx (hmade.not_captured hx) fun w hw hsame => ?_
    exact hparameter (hsame ▸ (List.of_mem_zip hw).1)

end Function

/-- In every state that a session reaches, a call of a function that a literal made, with the right
number of arguments, binds its locals to nil and each parameter to the last argument given to its
name. It does so if and only if the arguments, in order, fit what the names hold: the cells taken
along for parameters that are declared to belong outside, and the arguments given before. No other
cells that there were change, and if there are no such parameters and no name is repeated the call
starts with fresh variables. -/
theorem call_scope_seeded {a : Session} (ha : a.Reachable) {m : Moment} (hm : a.Visits m)
    {s : State} {f : Function} (hf : m.Holds f s) (hliteral : ¬ f.IsNative)
    {arguments : List Value} (hcount : arguments.length = f.arity) (outer : List FrameId)
    (position : Position) :
    ∃ analysis, f.MadeFrom analysis ∧
      (match enter f arguments outer position s with
        | .ok scope s₀ =>
          Fits (f.heldAtCall s.store) (f.parameters.zip arguments) ∧
          f.ChangesOnlyExterns analysis s.store s₀.store ∧
          (∀ before x v after, f.parameters.zip arguments = before ++ (x, v) :: after →
            (∀ w ∈ after, w.1 ≠ x) → s₀.store.value? scope x = some v) ∧
          ∀ x ∈ f.locals, x ∉ f.parameters → s₀.store.value? scope x = some .nil
        | .error e s₀ =>
          ¬ Fits (f.heldAtCall s.store) (f.parameters.zip arguments) ∧
          f.ChangesOnlyExterns analysis s.store s₀.store ∧
          ∃ fault, Store.TypeMismatch fault ∧ e = .error ⟨.scope fault, position⟩) ∧
      (f.parameters.Nodup → (∀ x ∈ f.parameters, x ∉ analysis.externs) →
        f.StartsFresh arguments outer position s) := by
  obtain ⟨hs, hsound⟩ := hf.sound (hm.fine ha)
  obtain ⟨analysis, hmade⟩ := hsound.origin.resolve_left hliteral
  refine ⟨analysis, hmade, ?_,
    Function.startsFresh hs.toDistinct hsound.captured hmade hcount⟩
  obtain ⟨store, hprepared, henter⟩ :=
    enter_eq hs.toDistinct hsound.captured hmade arguments outer position
  have hheld : store.held ⟨s.store.frames.size, outer⟩ = f.heldAtCall s.store :=
    funext hprepared.held
  have hfits : (∃ store', store.setAll ⟨s.store.frames.size, outer⟩ (f.parameters.zip arguments) =
      .ok store') ↔ Fits (f.heldAtCall s.store) (f.parameters.zip arguments) :=
    hheld ▸ Store.setAll_ok_iff hprepared.distinct hprepared.frame
  rw [henter]
  rcases assignNames_cases ⟨s.store.frames.size, outer⟩ position (f.parameters.zip arguments)
    { s with store := store } with ⟨store', hset, h⟩ | ⟨before, x, v, after, store', fault, hsplit,
      hset, hfault, h⟩
  · rw [bind_ok h]
    refine ⟨hfits.1 ⟨store', hset⟩, hprepared.changesOnlyExterns hmade (fun _ h => h) hset, ?_, ?_⟩
    · exact fun before x v after hsplit hafter => hprepared.parameters hset hsplit hafter
    · refine fun x hx hparameter =>
        hprepared.nil_of_local hset hx (hmade.not_captured hx) fun w hw hsame => ?_
      exact hparameter (hsame ▸ (List.of_mem_zip hw).1)
  · rw [bind_error h]
    refine ⟨fun hfit => ?_, ?_, fault, Store.typeMismatch_of_checkSet hfault, rfl⟩
    · -- All writes would have been made.
      obtain ⟨store'', hall⟩ := hfits.2 hfit
      have hok : assignNames ⟨s.store.frames.size, outer⟩ position (f.parameters.zip arguments)
          { s with store := store } = .ok () { s with store := store'' } :=
        assignNames_of_setAll hall
      cases hok.symm.trans h
    · have hbefore : ∀ w ∈ before, w ∈ f.parameters.zip arguments := by
        intro w hw
        rw [hsplit]
        exact List.mem_append_left _ hw
      exact hprepared.changesOnlyExterns hmade hbefore hset

/-- A function with one parameter and one local, neither of them declared to belong outside. -/
theorem call_scope_seeded_one :
    ∃ m s f, (Session.start 0).Visits m ∧ m.Holds f s ∧ ¬ f.IsNative ∧ f.parameters = ["a"] ∧
      f.locals = ["b"] ∧ ∀ outer position, f.StartsFresh [.int 1] outer position s := by
  have hcall : ∃ m f values caller position, (Session.start 0).Visits m ∧
      m.task = .call f values caller position ∧ f.id = 2 ∧ f.parameters = ["a"] ∧
      f.locals = ["b"] ∧ f.captured.get? "a" = none :=
    ⟨⟨3, _, _⟩, _, _, _, _,
      ⟨.plain, "f := func(a) { b := a }\nf(1)", _, _, 3, rfl,
        .tail (.tail .refl (.sequence ⟨rfl, rfl⟩)) (.apply ⟨rfl, rfl⟩ ⟨rfl, rfl⟩)⟩,
      rfl, rfl, rfl, rfl, rfl⟩
  obtain ⟨m, f, values, caller, position, hvisits, htask, hid, hparameters, hlocals, hnone⟩ := hcall
  have hliteral : ¬ f.IsNative := by
    rintro (rfl | rfl) <;> cases hid
  have hcount : ([.int 1] : List Value).length = f.arity := by
    rw [Function.arity, hparameters]
    rfl
  refine ⟨m, m.state, f, hvisits, .called htask, hliteral, hparameters, hlocals,
    fun outer position => ?_⟩
  obtain ⟨analysis, hmade, -, hfresh⟩ :=
    call_scope_seeded (.start 0) hvisits (.called htask) hliteral hcount outer position
  refine hfresh (hparameters ▸ List.pairwise_singleton _ _) fun x hx hextern => ?_
  rw [hparameters, List.mem_singleton] at hx
  have htaken := hmade.free x (Names.mem_union.2 (Or.inl hextern))
  rw [hx, hnone] at htaken
  cases htaken

/-- The argument for a parameter that is declared to belong outside goes to the variable outside. -/
theorem call_scope_not_fresh :
    ¬ ∀ (a : Session) (m : Moment) (s : State) (f : Function) (arguments : List Value)
        (outer : List FrameId) (position : Position), a.Reachable → a.Visits m → m.Holds f s →
        ¬ f.IsNative → arguments.length = f.arity → f.StartsFresh arguments outer position s := by
  intro hall
  have hcall : ∃ m f values caller position scope s₀, (Session.start 0).Visits m ∧
      m.task = .call f values caller position ∧ f.id = 2 ∧ values.length = f.arity ∧
      enter f values caller.chain position m.state = .ok scope s₀ ∧
      2 < m.state.store.cells.size ∧ m.state.store.read 2 = .int 1 ∧ s₀.store.read 2 = .int 5 :=
    ⟨⟨3, _, _⟩, _, _, _, _, _, _,
      ⟨.plain, "x := 1\nf := func(x) \x7b extern x \x7d\nf(5)", _, _, 3, rfl,
        .tail (.tail (.tail .refl (.sequence ⟨rfl, rfl⟩)) (.sequence ⟨rfl, rfl⟩))
          (.apply ⟨rfl, rfl⟩ ⟨rfl, rfl⟩)⟩,
      rfl, rfl, rfl, rfl, by decide, rfl, rfl⟩
  obtain ⟨m, f, values, caller, position, scope, s₀, hvisits, htask, hid, hcount, henter, hcell,
    hbefore, hafter⟩ := hcall
  have hliteral : ¬ f.IsNative := by
    rintro (rfl | rfl) <;> cases hid
  obtain ⟨scope', s₀', henter', hread, -⟩ := hall _ m m.state f values caller.chain position
    (.start 0) hvisits (.called htask) hliteral hcount
  cases henter.symm.trans henter'
  have hkept := hread 2 hcell
  rw [hbefore, hafter] at hkept
  cases hkept

end Scripting
