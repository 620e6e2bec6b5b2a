import Scripting.Proofs.AlikeCode

/-!
# Proofs: runs of alike code

Evaluation reads places only to report them, and never reads what was printed. So leaving out the
places, in the code and in the functions that variables hold, and having printed something before,
changes nothing but the places of errors and what stands in front of the output.
-/

namespace Scripting

/-! ## Values and states without places -/

/-- The function without the places of its body. -/
def Function.erased (f : Function) : Function :=
  { f with body := f.body.erased }

mutual

/-- The value without places. -/
def Value.erased : Value → Value
  | .nil => .nil
  | .bool b => .bool b
  | .int n => .int n
  | .float x => .float x
  | .string s => .string s
  | .function f => .function f.erased
  | .control s => .control (Signal.erased s)

/-- The signal without places. -/
def Signal.erased : Signal → Signal
  | .returning values => .returning (Value.erasedAll values)
  | .breaking => .breaking
  | .continuing => .continuing

/-- Several values without places. -/
def Value.erasedAll : List Value → List Value
  | [] => []
  | value :: rest => Value.erased value :: Value.erasedAll rest

end

namespace Value

@[simp] theorem erasedAll_eq (values : List Value) : erasedAll values = values.map erased := by
  induction values with
  | nil => rfl
  | cons value rest ih => rw [erasedAll, ih, List.map_cons]

@[simp] theorem type_erased (v : Value) : v.erased.type = v.type := by
  cases v <;> rfl

@[simp] theorem isNil_erased (v : Value) : v.erased.isNil = v.isNil := by
  cases v <;> rfl

@[simp] theorem isTruthy_erased (v : Value) : v.erased.isTruthy = v.isTruthy := by
  cases v <;> rfl

@[simp] theorem isSignal_erased (values : List Value) :
    isSignal (values.map erased) = isSignal values := by
  match values with
  | [] => rfl
  | v :: rest => cases v <;> cases rest <;> rfl

theorem returned_erased (values : List Value) :
    Eval.returned (values.map erased) = (Eval.returned values).map erased := by
  match values with
  | [] => rfl
  | [.control (.returning results)] => exact erasedAll_eq results
  | .control (.returning _) :: _ :: _ => rfl
  | .control .breaking :: _ | .control .continuing :: _ => rfl
  | .nil :: _ | .bool _ :: _ | .int _ :: _ | .float _ :: _ | .string _ :: _
  | .function _ :: _ => rfl

mutual

/-- What is printed for a value has no places. -/
theorem text_erased : ∀ v : Value, v.erased.text = v.text
  | .nil | .bool _ | .int _ | .float _ | .string _ | .function _ => rfl
  | .control s => by
    rw [erased, text, text]
    exact Signal.text_erased s

theorem Signal.text_erased : ∀ s : Signal, s.erased.text = s.text
  | .breaking | .continuing => rfl
  | .returning values => by
    rw [Signal.erased, Signal.text, Signal.text, joined_erased values]

theorem joined_erased : ∀ values : List Value, joined (erasedAll values) = joined values
  | [] => rfl
  | [v] => text_erased v
  | v :: w :: rest => by
    show text v.erased ++ ", " ++ joined (erasedAll (w :: rest)) =
      text v ++ ", " ++ joined (w :: rest)
    rw [text_erased v, joined_erased (w :: rest)]

end

/-! ### Operators -/

theorem add_erased (a b : Value) : a.erased.add b.erased = (a.add b).map erased := by
  cases a <;> cases b <;> rfl

theorem equals_erased (a b : Value) : a.erased.equals b.erased = a.equals b := by
  cases a <;> cases b <;> rfl

theorem compare_erased (a b : Value) : a.erased.compare b.erased = a.compare b := by
  cases a <;> cases b <;> rfl

theorem div_erased (a b : Value) : a.erased.div b.erased = (a.div b).map erased := by
  cases a <;> cases b <;> try rfl
  · rw [erased, erased, div]
    split <;> rfl
  · rw [erased, erased, div]
    split <;> rfl

theorem rem_erased (a b : Value) : a.erased.rem b.erased = (a.rem b).map erased := by
  cases a <;> cases b <;> try rfl
  rw [erased, erased, rem]
  split <;> rfl

theorem sub_erased (a b : Value) : a.erased.sub b.erased = (a.sub b).map erased := by
  cases a <;> cases b <;> rfl

theorem mul_erased (a b : Value) : a.erased.mul b.erased = (a.mul b).map erased := by
  cases a <;> cases b <;> rfl

theorem erased_bool {α : Type} (f : α → Bool) (x : Except OperandFault α) :
    (x.map fun a => Value.bool (f a)).map erased = x.map fun a => .bool (f a) := by
  cases x <;> rfl

end Value

theorem UnaryOp.apply_erased (op : UnaryOp) (v : Value) :
    op.apply v.erased = (op.apply v).map Value.erased := by
  cases op with
  | negate => cases v <;> rfl
  | not =>
    rw [apply, apply, Value.isTruthy_erased]
    rfl

theorem BinaryOp.apply_erased (op : BinaryOp) (a b : Value) :
    op.apply a.erased b.erased = (op.apply a b).map Value.erased := by
  cases op with
  | add => exact Value.add_erased a b
  | subtract => exact Value.sub_erased a b
  | multiply => exact Value.mul_erased a b
  | divide => exact Value.div_erased a b
  | remainder => exact Value.rem_erased a b
  | equal | notEqual =>
    rw [apply, apply, Value.equals_erased]
    exact (Value.erased_bool _ _).symm
  | less | lessEqual | greater | greaterEqual =>
    rw [apply, apply, Value.compare_erased]
    exact (Value.erased_bool _ _).symm

/-! ### Stores -/

/-- The writes with values without places. -/
def erasedWrites (writes : List (String × Value)) : List (String × Value) :=
  writes.map fun w => (w.1, w.2.erased)

namespace Store

/-- The store with values without places. -/
def erased (s : Store) : Store :=
  { s with cells := s.cells.map Value.erased }

variable {s : Store} {scope : Scope} {name : String} {value : Value}

theorem read_erased (s : Store) (cell : CellId) : s.erased.read cell = (s.read cell).erased := by
  unfold read erased
  dsimp only
  rw [Array.getElem?_map]
  cases s.cells[cell]? <;> rfl

theorem value?_erased : s.erased.value? scope name = (s.value? scope name).map Value.erased := by
  show (s.cell? scope name).map s.erased.read = ((s.cell? scope name).map s.read).map Value.erased
  rw [Option.map_map, funext (read_erased s)]
  rfl

theorem value_erased : s.erased.value scope name = (s.value scope name).map Value.erased := by
  show (s.cell scope name).map s.erased.read = ((s.cell scope name).map s.read).map Value.erased
  cases s.cell scope name with
  | ok cell => exact congrArg Except.ok (read_erased s cell)
  | error fault => rfl

theorem checkType_erased {current : Value} :
    checkType name current.erased value.erased = checkType name current value := by
  simp [checkType, Value.sameType]

theorem ownCell?_erased : s.erased.ownCell? scope name = s.ownCell? scope name := rfl

theorem checkSet_erased :
    s.erased.checkSet scope name value.erased = s.checkSet scope name value := by
  unfold checkSet
  rw [ownCell?_erased]
  cases s.ownCell? scope name with
  | some cell =>
    dsimp only
    rw [read_erased, checkType_erased]
  | none => rfl

theorem checkWrites_erased : ∀ {writes : List (String × Value)} {pending pending' : NameMap Value},
    (∀ x, pending'.get? x = (pending.get? x).map Value.erased) →
      s.erased.checkWrites scope pending' (erasedWrites writes) =
        s.checkWrites scope pending writes
  | [], _, _, _ => rfl
  | (name, value) :: rest, pending, pending', h => by
    have hinsert : ∀ x, (pending'.insert name value.erased).get? x =
        ((pending.insert name value).get? x).map Value.erased := by
      intro x
      rw [NameMap.get?_insert, NameMap.get?_insert, h]
      split <;> rfl
    have hrest : s.erased.checkWrites scope _ (erasedWrites rest) = _ := checkWrites_erased hinsert
    show checkWrites s.erased scope pending' ((name, value.erased) :: erasedWrites rest) = _
    rw [checkWrites, checkWrites, h, hrest]
    cases pending.get? name with
    | some current =>
      dsimp only [Option.map]
      rw [checkType_erased]
    | none =>
      dsimp only [Option.map]
      rw [checkSet_erased]

theorem checkAll_erased {writes : List (String × Value)} :
    s.erased.checkAll scope (erasedWrites writes) = s.checkAll scope writes :=
  checkWrites_erased fun _ => rfl

theorem valuesOrNil_erased {names : List String} :
    s.erased.valuesOrNil scope names = (s.valuesOrNil scope names).map Value.erased := by
  unfold valuesOrNil
  rw [List.map_map]
  refine List.map_congr_left fun x _ => ?_
  rw [value?_erased, Function.comp_apply]
  cases s.value? scope x <;> rfl

theorem defaultWrites_erased {targets : List String} {old values : List Value} :
    defaultWrites targets (old.map Value.erased) (values.map Value.erased) =
      erasedWrites (defaultWrites targets old values) := by
  have hnil : ((fun w : String × Value × Value => w.2.1.isNil) ∘
      Prod.map id (Prod.map Value.erased Value.erased)) = fun w => w.2.1.isNil :=
    funext fun w => Value.isNil_erased w.2.1
  unfold defaultWrites erasedWrites
  rw [List.zip_map, List.zip_map_right, List.filter_map, hnil, List.map_map, List.map_map]
  rfl

theorem put_erased : s.erased.put scope name value.erased = (s.put scope name value).erased := by
  unfold put
  rw [ownCell?_erased]
  cases s.ownCell? scope name with
  | some cell => simp [write, erased]
  | none => simp [newCell, bind, erased]

end Store

/-! ## Computations without places -/

/-- The failure without its place. -/
def RuntimeError.erased (e : RuntimeError) : RuntimeError :=
  { e with position := .nowhere }

/-- The state without places, if `before` had been printed before. -/
def State.erased (before : String) (s : State) : State :=
  { s with store := s.store.erased, output := before ++ s.output }

theorem State.output_erased (before : String) (s : State) :
    (s.erased before).output = before ++ s.output := rfl

namespace Eval

/-- The result without places, if `before` had been printed before. -/
def resultErased {α β : Type} (before : String) (g : α → β) :
    EStateM.Result (Stop RuntimeError) State α → EStateM.Result (Stop RuntimeError) State β
  | .ok a s => .ok (g a) (s.erased before)
  | .error e s => .error (e.map RuntimeError.erased) (s.erased before)

/-- What the first computation comes to, the second one comes to without places. -/
def Erases {α β : Type} (before : String) (g : α → β) (m : Eval α) (m' : Eval β) : Prop :=
  ∀ s, m' (s.erased before) = resultErased before g (m s)

variable {α β γ δ : Type} {before : String} {g : α → β} {g' : γ → δ} {m : Eval α} {m' : Eval β}
  {scope : Scope} {position : Position}

theorem erases_pure (a : α) : Erases before g (pure a) (pure (g a)) :=
  fun _ => rfl

theorem erases_fail (fault : RuntimeFault) (position : Position) :
    Erases before g (fail fault position) (fail fault .nowhere) :=
  fun _ => rfl

theorem erases_exhausted : Erases before g exhausted exhausted :=
  fun _ => rfl

theorem Erases.bind {f : α → Eval γ} {f' : β → Eval δ} (h : Erases before g m m')
    (hf : ∀ a, Erases before g' (f a) (f' (g a))) : Erases before g' (m >>= f) (m' >>= f') := by
  intro s
  have hm' := h s
  cases hm : m s with
  | ok a s₁ =>
    rw [hm] at hm'
    rw [bind_ok hm, bind_ok hm']
    exact hf a s₁
  | error e s₁ =>
    rw [hm] at hm'
    rw [bind_error hm, bind_error hm']
    rfl

theorem Erases.ite {c : Prop} [Decidable c] {n : Eval α} {n' : Eval β}
    (hm : Erases before g m m') (hn : Erases before g n n') :
    Erases before g (if c then m else n) (if c then m' else n') := by
  split
  · exact hm
  · exact hn

/-- Looking at the state first. -/
theorem erases_get {f : State → Eval γ} {f' : State → Eval δ}
    (h : ∀ s, Erases before g' (f s) (f' (s.erased before))) :
    Erases before g' (get >>= f) (get >>= f') := by
  intro s
  have hget : ∀ s : State, (get : Eval State) s = .ok s s := fun _ => rfl
  rw [bind_ok (hget s), bind_ok (hget _)]
  exact h s s

theorem erases_inspect {look : Store → Except ScopeFault α} {look' : Store → Except ScopeFault β}
    (h : ∀ s, look' s.erased = (look s).map g) :
    Erases before g (inspect position look) (inspect .nowhere look') := by
  refine erases_get fun s => ?_
  have hlook : look' (s.erased before).store = (look s.store).map g := h s.store
  rw [hlook]
  cases look s.store with
  | ok a => exact erases_pure a
  | error fault => exact erases_fail _ _

theorem erases_update {change change' : Store → Store}
    (h : ∀ s, change' s.erased = (change s).erased) :
    Erases before id (update change) (update change') := by
  intro s
  show EStateM.Result.ok () { s.erased before with store := change' s.store.erased } = _
  rw [h]
  rfl

theorem erases_operate {result : Except OperandFault Value} :
    Erases before Value.erased (operate position result)
      (operate .nowhere (result.map Value.erased)) := by
  cases result with
  | ok value => exact erases_pure value
  | error fault => exact erases_fail _ _

theorem erases_print (text : String) : Erases before id (print text) (print text) := by
  intro s
  show EStateM.Result.ok () { s.erased before with output := before ++ s.output ++ text } = _
  rw [String.append_assoc]
  rfl

theorem erases_readClock : Erases before id readClock readClock :=
  fun _ => rfl

theorem erases_newFunctionId : Erases before id newFunctionId newFunctionId :=
  fun _ => rfl

theorem erases_newFrame (bindings : NameMap CellId) :
    Erases before id (newFrame bindings) (newFrame bindings) :=
  fun _ => rfl

theorem erases_readName (scope : Scope) (name : String) (position : Position) :
    Erases before Value.erased (readName scope name position) (readName scope name .nowhere) :=
  erases_inspect fun _ => Store.value_erased

theorem erases_assignName (name : String) (value : Value) : Erases before id
    (assignName scope position name value) (assignName scope .nowhere name value.erased) := by
  refine Erases.bind (g := id) (erases_inspect fun s => ?_) fun _ =>
    erases_update fun _ => Store.put_erased
  rw [Store.checkSet_erased]
  cases s.checkSet scope name value <;> rfl

theorem erases_assignNames (scope : Scope) (position : Position) :
    ∀ writes : List (String × Value), Erases before id (assignNames scope position writes)
      (assignNames scope .nowhere (erasedWrites writes))
  | [] => erases_pure ()
  | (name, value) :: rest =>
    (erases_assignName name value).bind fun _ => erases_assignNames scope position rest

theorem erases_assignAll (scope : Scope) (position : Position) (writes : List (String × Value)) :
    Erases before id (assignAll scope position writes)
      (assignAll scope .nowhere (erasedWrites writes)) := by
  refine Erases.bind (g := id) (erases_inspect fun s => ?_) fun _ =>
    erases_assignNames scope position writes
  rw [Store.checkAll_erased]
  cases s.checkAll scope writes <;> rfl

theorem erases_mapM {ι : Type} {f : ι → Eval α} {f' : ι → Eval β}
    (h : ∀ i, Erases before g (f i) (f' i)) :
    ∀ l : List ι, Erases before (List.map g) (l.mapM f) (l.mapM f')
  | [] => fun _ => rfl
  | i :: rest => by
    rw [List.mapM_cons, List.mapM_cons]
    exact (h i).bind fun a => (erases_mapM h rest).bind fun as => erases_pure (a :: as)

/-! ### Constructs -/

/-- Computations of values. -/
abbrev ErasesValues (before : String) : Eval (List Value) → Eval (List Value) → Prop :=
  Erases before (List.map Value.erased)

variable {part part' : Eval (List Value)}

theorem erases_unlessSignal {next next' : List Value → Eval (List Value)}
    (h : ErasesValues before part part')
    (hnext : ∀ values, ErasesValues before (next values) (next' (values.map Value.erased))) :
    ErasesValues before (unlessSignal part next) (unlessSignal part' next') := by
  refine h.bind fun values => ?_
  rw [Value.isSignal_erased]
  exact (erases_pure values).ite (hnext values)

theorem erases_single (values : List Value) : Erases before Value.erased (single position values)
    (single .nowhere (values.map Value.erased)) := by
  match values with
  | [] => exact erases_fail _ _
  | [value] => exact erases_pure value
  | first :: second :: rest =>
    show Erases before Value.erased (fail (.valueCount (first :: second :: rest).length) position)
      (fail (.valueCount ((first :: second :: rest).map Value.erased).length) .nowhere)
    rw [List.length_map]
    exact erases_fail _ _

theorem erases_withOperand {next next' : Value → Eval (List Value)}
    (h : ErasesValues before part part')
    (hnext : ∀ value, ErasesValues before (next value) (next' value.erased)) :
    ErasesValues before (withOperand part position next) (withOperand part' .nowhere next') :=
  erases_unlessSignal h fun values => (erases_single values).bind hnext

theorem erases_matchCounts (targets : List String) (values : List Value) :
    Erases before id (matchCounts targets values position)
      (matchCounts targets (values.map Value.erased) .nowhere) := by
  unfold matchCounts
  rw [List.length_map]
  exact (erases_pure ()).ite (erases_fail _ _)

theorem erases_iterate {condition condition' body body' : Eval (List Value)}
    (hcondition : ErasesValues before condition condition')
    (hbody : ErasesValues before body body') : ∀ bound,
      ErasesValues before (iterate condition body position bound)
        (iterate condition' body' .nowhere bound)
  | 0 => erases_exhausted
  | bound + 1 => by
    refine erases_withOperand hcondition fun test => ?_
    rw [Value.isTruthy_erased]
    refine Erases.ite (hbody.bind fun result => ?_) (erases_pure _)
    have hround := erases_iterate hcondition hbody bound
    match result with
    | [.control .breaking] | [.control (.returning _)] => exact erases_pure _
    | [] | .control .breaking :: _ :: _ | .control (.returning _) :: _ :: _ => exact hround
    | .control .continuing :: _ | .nil :: _ | .bool _ :: _ | .int _ :: _ | .float _ :: _
    | .string _ :: _ | .function _ :: _ => exact hround

theorem erases_captureAll (scope : Scope) (position : Position) :
    ∀ (names : List String) (captured : NameMap CellId), Erases before id
      (captureAll scope position captured names) (captureAll scope .nowhere captured names)
  | [], captured => erases_pure captured
  | name :: rest, captured => by
    refine erases_get fun s => ?_
    have hcell : (s.erased before).store.cell? scope name = s.store.cell? scope name := rfl
    rw [hcell]
    cases s.store.cell? scope name with
    | some cell => exact erases_captureAll scope position rest _
    | none => exact erases_fail _ _

theorem erases_captureFound (scope : Scope) (captured : NameMap CellId) (names : List String) :
    Erases before id (captureFound scope captured names) (captureFound scope captured names) :=
  erases_get fun _ => erases_pure _

theorem erases_fillIn {targets : List String} {old values : List Value} :
    ErasesValues before (fillIn scope position targets old values)
      (fillIn scope .nowhere targets (old.map Value.erased) (values.map Value.erased)) := by
  refine (erases_matchCounts targets values).bind fun _ => ?_
  refine Erases.bind (g := id) ?_ fun _ =>
    erases_mapM (fun target => erases_readName scope target position) targets
  show Erases before id _ (assignAll scope .nowhere (Store.defaultWrites targets
    (old.map Value.erased) (values.map Value.erased)))
  rw [Store.defaultWrites_erased]
  exact erases_assignAll scope position _

end Eval

open Eval

namespace Code

variable {before : String}
  {call : Function → List Value → Scope → Position → Eval (List Value)} {bound : Nat}

/-- Evaluating code without places. -/
theorem erases_evaluate (hcall : ∀ f values scope position, ErasesValues before
      (call f values scope position) (call f.erased (values.map Value.erased) scope .nowhere))
    (code : Code) (scope : Scope) : ErasesValues before (code.evaluate call bound scope)
      (code.erased.evaluate call bound scope) := by
  induction code with
  | literal value => cases value <;> exact erases_pure _
  | name x position => exact (erases_readName scope x position).bind fun v => erases_pure [v]
  | nothing | «break» | «continue» => exact erases_pure _
  | sequence first rest ihfirst ihrest => exact erases_unlessSignal ihfirst fun _ => ihrest
  | both first rest ihfirst ihrest =>
    refine erases_unlessSignal ihfirst fun left => erases_unlessSignal ihrest fun right => ?_
    rw [← List.map_append]
    exact erases_pure (left ++ right)
  | assign targets value position ih =>
    refine erases_unlessSignal ih fun values => ?_
    refine (erases_matchCounts targets values).bind fun _ => ?_
    refine Erases.bind (g := id) ?_ fun _ => erases_pure values
    have hwrites : targets.zip (values.map Value.erased) = erasedWrites (targets.zip values) := by
      rw [List.zip_map_right]
      rfl
    show Erases before id _ (assignAll scope .nowhere (targets.zip (values.map Value.erased)))
    rw [hwrites]
    exact erases_assignAll scope position _
  | accumulate target value position ih =>
    refine erases_withOperand ih fun operand => ?_
    refine (erases_readName scope target position).bind fun current => ?_
    rw [Value.add_erased]
    refine erases_operate.bind fun sum => ?_
    exact (erases_assignName target sum).bind fun _ => erases_pure [sum]
  | default targets value position ih =>
    intro s
    have hall : ((s.erased before).store.valuesOrNil scope targets).all (fun v => !v.isNil) =
        (s.store.valuesOrNil scope targets).all fun v => !v.isNil := by
      show (s.store.erased.valuesOrNil scope targets).all _ = _
      simp [Store.valuesOrNil_erased, Function.comp_def]
    show (Code.default targets value.erased .nowhere).evaluate call bound scope _ = _
    rw [evaluate_default, evaluate_default, hall]
    show (if _ then EStateM.Result.ok (s.store.erased.valuesOrNil scope targets) _ else
      unlessSignal _ (fillIn scope .nowhere targets (s.store.erased.valuesOrNil scope targets)) _) = _
    rw [Store.valuesOrNil_erased]
    split
    · rfl
    · exact erases_unlessSignal ih (fun _ => erases_fillIn) s
  | unary op operand position ih =>
    refine erases_withOperand ih fun value => ?_
    rw [UnaryOp.apply_erased]
    exact erases_operate.bind fun result => erases_pure [result]
  | binary op left right position ihleft ihright =>
    refine erases_withOperand ihleft fun a => erases_withOperand ihright fun b => ?_
    rw [BinaryOp.apply_erased]
    exact erases_operate.bind fun result => erases_pure [result]
  | logical decides left right position ihleft ihright =>
    refine erases_withOperand ihleft fun value => ?_
    rw [Value.isTruthy_erased]
    exact (erases_pure [value]).ite ihright
  | branch condition yes no position ihcondition ihyes ihno =>
    refine erases_withOperand ihcondition fun test => ?_
    rw [Value.isTruthy_erased]
    exact ihyes.ite ihno
  | loop condition body position ihcondition ihbody =>
    exact erases_iterate ihcondition ihbody bound
  | «return» operand ih =>
    refine erases_unlessSignal ih fun values => ?_
    rw [← Value.erasedAll_eq]
    exact erases_pure [Value.control (.returning values)]
  | function parameters channels locals free passed body position =>
    refine (erases_captureAll scope position free ∅).bind fun captured => ?_
    refine (erases_captureFound scope captured passed).bind fun captured => ?_
    refine erases_newFunctionId.bind fun id => ?_
    exact erases_pure [Value.function ⟨id, parameters, channels, locals, body, captured⟩]
  | apply callee arguments position ihcallee iharguments =>
    refine erases_withOperand ihcallee fun v => ?_
    cases v with
    | function f =>
      exact erases_unlessSignal iharguments fun values => hcall f values scope position
    | _ => exact erases_fail _ _
  | primitive p =>
    cases p with
    | print =>
      refine (erases_readName scope "value" .nowhere).bind fun v => ?_
      rw [Value.text_erased]
      exact (erases_print _).bind fun _ => erases_pure []
    | clock => exact erases_readClock.bind fun time => erases_pure [Value.float time]

end Code

namespace Eval

variable {before : String}

theorem erases_enter (f : Function) (arguments : List Value) (outer : List FrameId)
    (position : Position) : Erases before id (enter f arguments outer position)
      (enter f.erased (arguments.map Value.erased) outer .nowhere) := by
  have hlocals : erasedWrites (f.locals.map fun x => (x, Value.nil)) =
      f.locals.map fun x => (x, .nil) := by
    unfold erasedWrites
    rw [List.map_map]
    rfl
  have hparameters : erasedWrites (f.parameters.zip arguments) =
      f.parameters.zip (arguments.map Value.erased) := List.zip_map_right.symm
  refine (erases_newFrame f.captured).bind fun frame => ?_
  refine Erases.bind (g := id) ?_ fun _ => Erases.bind (g := id) ?_ fun _ => erases_pure _
  · have h : Erases before id _ _ :=
      erases_assignNames ⟨frame, outer⟩ position (f.locals.map fun x => (x, .nil))
    rw [hlocals] at h
    exact h
  · have h : Erases before id _ _ :=
      erases_assignNames ⟨frame, outer⟩ position (f.parameters.zip arguments)
    rw [hparameters] at h
    exact h

theorem erases_call {body : Code → Scope → Eval (List Value)}
    (hbody : ∀ code scope, ErasesValues before (body code scope) (body code.erased scope))
    (f : Function) (arguments : List Value) (caller : Scope) (position : Position) :
    ErasesValues before (call body f arguments caller position)
      (call body f.erased (arguments.map Value.erased) caller .nowhere) := by
  unfold call
  rw [List.length_map]
  refine Erases.ite ?_ (erases_fail _ _)
  refine (erases_enter f arguments caller.chain position).bind fun scope => ?_
  refine (hbody f.body scope).bind fun values => ?_
  rw [Value.returned_erased]
  exact erases_pure _

end Eval

namespace Code

/-- Running code without places, in a state without places and behind other output, comes to what
running the code comes to. -/
theorem erases_run (before : String) : ∀ fuel code scope,
    ErasesValues before (run fuel code scope) (run fuel code.erased scope)
  | 0, _, _ => erases_exhausted
  | fuel + 1, code, scope => erases_evaluate (erases_call (erases_run before fuel)) code scope

/-- Alike code comes to the same from states that are alike. -/
theorem run_alike {code code' : Code} {s s' : State} {before before' : String}
    (h : code.erased = code'.erased) (hs : s.erased before = s'.erased before') (fuel : Nat)
    (scope : Scope) :
    resultErased before (List.map Value.erased) (code.run fuel scope s) =
      resultErased before' (List.map Value.erased) (code'.run fuel scope s') := by
  rw [← erases_run, ← erases_run, h, hs]

end Code

end Scripting
