import Scripting.Proofs.Sessions

/-!
# Proofs: assignments are made as a whole or not at all

An assignment to several targets checks all its writes before it makes the first. In every store of
a session each cell has one name only, so no write after the check is refused.
-/

namespace Scripting

open Eval

/-- How an assignment ends whose right side gave `values` in the state `s`: it makes the writes `ws`
in order and yields what `yields` says of the store then, or it fails and leaves that state as it
is. -/
inductive AllOrNothing (result : EStateM.Result (Stop RuntimeError) State (List Value))
    (targets : List String) (values : List Value) (ws : List (String × Value)) (scope : Scope)
    (position : Position) (s : State) (yields : Store → List Value) : Prop
  | written {store} (hcount : values.length = targets.length)
    (hset : s.store.setAll scope ws = .ok store) (hwritten : s.store.Written store scope ws)
    (hresult : result = .ok (yields store) { s with store := store })
  | miscounted (hcount : values.length ≠ targets.length)
    (hresult : result =
      .error (.error ⟨.assignmentCount targets.length values.length, position⟩) s)
  | mistyped {name old new} (hcount : values.length = targets.length)
    (hset : s.store.setAll scope ws = .error (.typeMismatch name old new))
    (hresult : result = .error (.error ⟨.scope (.typeMismatch name old new), position⟩) s)

variable {s : State} {scope : Scope} {position : Position} {targets : List String}
  {values : List Value} {ws : List (String × Value)} {yields : Store → List Value}

/-- Counting, checking and writing, if what follows the writes succeeds. -/
theorem AllOrNothing.of_steps {result : EStateM.Result (Stop RuntimeError) State (List Value)}
    (hs : s.store.Distinct) (hframe : scope.frame < s.store.frames.size)
    (next : Eval (List Value))
    (hresult : result = (do
      matchCounts targets values position
      assignAll scope position ws
      next : Eval (List Value)) s)
    (hnext : ∀ store, values.length = targets.length → s.store.setAll scope ws = .ok store →
      next { s with store := store } = .ok (yields store) { s with store := store }) :
    AllOrNothing result targets values ws scope position s yields := by
  subst hresult
  have hassign : assignAll scope position ws s = _ := assignAll_eq hs hframe ws
  by_cases hcount : values.length = targets.length
  · have hmatch : matchCounts targets values position s = .ok () s := by
      unfold matchCounts
      rw [if_pos hcount]
      rfl
    cases hset : s.store.setAll scope ws with
    | ok store =>
      rw [hset] at hassign
      refine .written hcount hset (Store.written_of_setAll hs hframe hset).2.2 ?_
      rw [bind_ok hmatch, bind_ok hassign]
      exact hnext store hcount hset
    | error fault =>
      rw [hset] at hassign
      obtain ⟨name, old, new, rfl⟩ := Store.typeMismatch_of_setAll hset
      refine .mistyped hcount hset ?_
      rw [bind_ok hmatch]
      exact bind_error hassign
  · refine .miscounted hcount (bind_error ?_)
    unfold matchCounts
    rw [if_neg hcount]
    rfl

/-! ## Default assignments -/

/-- The writes of a default assignment are those to targets without a value that is not nil. -/
theorem Store.defaultWrites_eq (store : Store) (scope : Scope) (targets : List String)
    (values : List Value) :
    Store.defaultWrites targets (store.valuesOrNil scope targets) values =
      (targets.zip values).filter fun w => ((store.value? scope w.1).getD .nil).isNil := by
  unfold Store.defaultWrites Store.valuesOrNil
  induction targets generalizing values with
  | nil => rfl
  | cons x targets ih =>
    cases values with
    | nil => rfl
    | cons v values =>
      simp only [List.map_cons, List.zip_cons_cons, List.filter_cons]
      split
      · rw [List.map_cons, ih]
      · exact ih values

/-- Names that all have cells can be read. -/
theorem Eval.readNames_eq {names : List String}
    (h : ∀ x ∈ names, (s.store.cell? scope x).isSome) :
    (names.mapM fun x => readName scope x position) s =
      .ok (s.store.valuesOrNil scope names) s := by
  induction names with
  | nil => rfl
  | cons x names ih =>
    obtain ⟨cell, hcell⟩ := Option.isSome_iff_exists.1 (h x List.mem_cons_self)
    have hread : readName scope x position s = .ok (s.store.read cell) s :=
      inspect_of_ok (Store.value_eq_ok hcell)
    have hvalues : s.store.valuesOrNil scope (x :: names) =
        s.store.read cell :: s.store.valuesOrNil scope names := by
      unfold Store.valuesOrNil Store.value?
      rw [List.map_cons, hcell]
      rfl
    rw [List.mapM_cons, bind_ok hread, bind_ok (ih fun y hy => h y (List.mem_cons_of_mem _ hy)),
      hvalues]
    rfl

/-- After its writes all targets of a default assignment have cells. -/
theorem cell?_of_defaults {before store : Store} {opened : FrameId → Prop}
    (he : before.Extends opened s.store) (hcount : values.length = targets.length)
    (hs : s.store.Distinct) (hframe : scope.frame < s.store.frames.size)
    (hws : ws = (targets.zip values).filter fun w => ((before.value? scope w.1).getD .nil).isNil)
    (hset : s.store.setAll scope ws = .ok store) {x : String} (hx : x ∈ targets) :
    (store.cell? scope x).isSome := by
  obtain ⟨-, he', hwritten⟩ := Store.written_of_setAll hs hframe hset
  -- A target that was nil or unbound is written now, and any other had a cell already.
  cases hnil : ((before.value? scope x).getD .nil).isNil with
  | true =>
    rw [← List.map_fst_zip (Nat.le_of_eq hcount.symm)] at hx
    obtain ⟨w, hw, rfl⟩ := List.mem_map.1 hx
    have hmem : w ∈ ws := by
      rw [hws]
      exact List.mem_filter.2 ⟨hw, hnil⟩
    obtain ⟨cell, hcell⟩ := Option.isSome_iff_exists.1 (hwritten.bound w hmem)
    exact Option.isSome_iff_exists.2 ⟨cell, Store.cell?_of_ownCell? hcell⟩
  | false =>
    refine Store.cell?_of_extends (Store.cell?_of_extends ?_ he) he'
    unfold Store.value? at hnil
    cases hcell : before.cell? scope x with
    | some cell => rfl
    | none =>
      rw [hcell] at hnil
      cases hnil

/-! ## In every run -/

/-- What the right side of an assignment leaves behind. -/
theorem Moment.of_value {m : Moment} {code value : Code} (hm : m.Fine)
    (htask : m.task = .code code scope) (hpart : value ∈ code.parts)
    (h : value.Passes m.level scope m.state values s) :
    s.store.Distinct ∧ scope.frame < s.store.frames.size ∧
      m.state.store.Extends scope.opened s.store := by
  have hready := hm.ready
  rw [htask] at hready
  obtain ⟨hs, he, -⟩ := Moment.of_passes hm.sound (Code.Ready.part hready hpart) h
  exact ⟨hs.toDistinct, Nat.lt_of_lt_of_le hready.frame he.frames, he⟩

/-- At every moment of every run no cell has two names, so writes that pass the check can all be
made. Each assignment makes all its writes, or it fails for their number or for a type and changes
nothing. A default assignment writes to the targets that were nil or had no value before its right
side was evaluated. -/
theorem assignment_all_or_nothing {a : Session} (ha : a.Reachable) {m : Moment}
    (hm : a.Visits m) :
    (∀ s, m.At s → s.store.Distinct ∧
      (∀ cell f, s.store.read cell = .function f →
        ∀ x c, f.captured.get? x = some c → s.store.Binds x c) ∧
      ∀ scope ws, scope.frame < s.store.frames.size → s.store.checkAll scope ws = .ok () →
        ∃ store, s.store.setAll scope ws = .ok store) ∧
    (∀ targets value position scope values s,
      m.task = .code (.assign targets value position) scope →
      value.Passes m.level scope m.state values s →
        AllOrNothing m.result targets values (targets.zip values) scope position s
          fun _ => values) ∧
    ∀ targets value position scope values s,
      m.task = .code (.default targets value position) scope →
      (∃ x ∈ targets, ((m.state.store.value? scope x).getD .nil).isNil = true) →
      value.Passes m.level scope m.state values s →
        AllOrNothing m.result targets values
          ((targets.zip values).filter fun w =>
            ((m.state.store.value? scope w.1).getD .nil).isNil)
          scope position s fun store => store.valuesOrNil scope targets := by
  have hfine := hm.fine ha
  refine ⟨fun s hs => ?_, ?_, ?_⟩
  · have hsound := (hfine.leads.at hs).1
    refine ⟨hsound.toDistinct, fun cell f hcell x c hc => ?_, fun scope ws hframe hcheck => ?_⟩
    · have hdata := hsound.data cell
      rw [hcell] at hdata
      exact hdata.captured hc
    · rw [Store.checkAll_eq hsound.toDistinct hframe] at hcheck
      cases hset : s.store.setAll scope ws with
      | ok store => exact ⟨store, rfl⟩
      | error fault =>
        rw [hset] at hcheck
        cases hcheck
  · intro targets value position scope values s htask hvalue
    obtain ⟨hs, hframe, -⟩ := Moment.of_value hfine htask (.head _) hvalue
    refine .of_steps hs hframe (pure values) ?_ fun _ _ _ => rfl
    rw [Moment.result, htask]
    exact unlessSignal_of_ok hvalue.1 hvalue.2
  · rintro targets value position scope values s htask ⟨x, hx, hnil⟩ hvalue
    obtain ⟨hs, hframe, he⟩ := Moment.of_value hfine htask (.head _) hvalue
    have hrun : (m.state.store.valuesOrNil scope targets).all (fun v => !v.isNil) = false := by
      refine List.all_eq_false.2 ⟨_, List.mem_map_of_mem hx, ?_⟩
      simp [hnil]
    refine .of_steps hs hframe (targets.mapM fun x => readName scope x position) ?_
      fun store hcount hset => readNames_eq fun x hx =>
        cell?_of_defaults he hcount hs hframe rfl hset hx
    rw [Moment.result, htask]
    refine Code.run_default.trans ?_
    rw [if_neg (Bool.eq_false_iff.1 hrun), unlessSignal_of_ok hvalue.1 hvalue.2, fillIn,
      Store.defaultWrites_eq]

/-- The second of two targets holds a whole number and is given a text, so the first, which is new,
is not written either. -/
theorem assignment_all_or_nothing_mistyped :
    ∃ m targets value position scope values s, (Session.start 0).Visits m ∧
      m.task = .code (.assign targets value position) scope ∧
      value.Passes m.level scope m.state values s ∧
      m.result = .error (.error ⟨.scope (.typeMismatch "a" .int .string), ⟨2, 6⟩⟩) s ∧
      AllOrNothing m.result targets values (targets.zip values) scope position s
        fun _ => values := by
  have hassign : ∃ m targets value position scope values s, (Session.start 0).Visits m ∧
      m.task = .code (.assign targets value position) scope ∧
      value.Passes m.level scope m.state values s ∧
      m.result = .error (.error ⟨.scope (.typeMismatch "a" .int .string), ⟨2, 6⟩⟩) s :=
    ⟨_, _, _, _, _, _, _,
      ⟨.plain, "a := 1\nb, a := 2, \"x\"", _, _, 1, rfl, .tail .refl (.sequence ⟨rfl, rfl⟩)⟩,
      rfl, ⟨rfl, rfl⟩, rfl⟩
  obtain ⟨m, targets, value, position, scope, values, s, hvisits, htask, hvalue, hresult⟩ := hassign
  obtain ⟨-, hall, -⟩ := assignment_all_or_nothing (.start 0) hvisits
  exact ⟨m, targets, value, position, scope, values, s, hvisits, htask, hvalue, hresult,
    hall targets value position scope values s htask hvalue⟩

end Scripting
