import Scripting.Proofs.Safety

/-!
# Proofs: evaluation keeps the store sound

Code is ready in a scope if its functions carry the lists of their analyses and, inside a call, all
names that it assigns are bound in the frame of the call. A call makes the code of its body ready,
and ready code is safe, so only the top level makes bindings in a frame that was there before.
-/

namespace Scripting

/-! ## Values -/

namespace Value

variable {s : Store} {a b v : Value}

/-- What a call writes to its locals. -/
theorem isData_of_nils (names : List String) :
    ∀ w ∈ names.map (·, nil), w.2.IsData s := by
  intro w hw
  obtain ⟨x, -, rfl⟩ := List.mem_map.1 hw
  trivial

/-- The value is neither a function nor a signal. -/
def Plain : Value → Prop
  | function _ | control _ => False
  | _ => True

theorem Plain.isData (h : v.Plain) : v.IsData s := by
  cases v with
  | function | control => exact h.elim
  | _ => trivial

theorem plain_literal (literal : Literal) : literal.value.Plain := by
  cases literal <;> trivial

theorem plain_of_add (h : a.add b = .ok v) : v.Plain := by
  unfold add at h
  split at h <;> cases h
  all_goals trivial

theorem plain_of_sub (h : a.sub b = .ok v) : v.Plain := by
  unfold sub at h
  split at h <;> cases h
  all_goals trivial

theorem plain_of_mul (h : a.mul b = .ok v) : v.Plain := by
  unfold mul at h
  split at h <;> cases h
  all_goals trivial

theorem plain_of_div (h : a.div b = .ok v) : v.Plain := by
  unfold div at h
  split at h
  iterate 2
    · split at h <;> cases h
      trivial
  · cases h

theorem plain_of_rem (h : a.rem b = .ok v) : v.Plain := by
  unfold rem at h
  split at h
  · split at h <;> cases h
    trivial
  · cases h

theorem plain_of_neg (h : a.neg = .ok v) : v.Plain := by
  unfold neg at h
  split at h <;> cases h
  all_goals trivial

/-- The result of a comparison is a truth value. -/
theorem plain_of_map {α : Type} {result : Except OperandFault α} {f : α → Bool}
    (h : (result.map fun e => .bool (f e)) = .ok v) : v.Plain := by
  cases result with
  | error => cases h
  | ok =>
    cases h
    trivial

/-- No operator makes a function or a signal. -/
theorem plain_of_unary {op : UnaryOp} (h : op.apply a = .ok v) : v.Plain := by
  cases op with
  | negate => exact plain_of_neg h
  | not =>
    cases h
    trivial

theorem plain_of_binary {op : BinaryOp} (h : op.apply a b = .ok v) : v.Plain := by
  cases op with
  | add => exact plain_of_add h
  | subtract => exact plain_of_sub h
  | multiply => exact plain_of_mul h
  | divide => exact plain_of_div h
  | remainder => exact plain_of_rem h
  | equal => exact plain_of_map (f := id) h
  | notEqual | less | lessEqual | greater | greaterEqual => exact plain_of_map h

theorem isData_of_add (h : a.add b = .ok v) : v.IsData s :=
  (plain_of_add h).isData

end Value

/-! ## Taking cells along -/

/-- `captured` is `before` with cells more, which the scope has for some of `names`. -/
structure NameMap.Gathers (s : Store) (scope : Scope) (names : List String)
    (before captured : NameMap CellId) : Prop where
  found : ∀ {x c}, captured.get? x = some c →
    before.get? x = some c ∨ x ∈ names ∧ s.cell? scope x = some c
  kept : ∀ {x}, (before.get? x).isSome → (captured.get? x).isSome

namespace NameMap

variable {s : Store} {scope : Scope} {names : List String} {name : String} {cell : CellId}
  {before captured : NameMap CellId}

theorem Gathers.refl : Gathers s scope names before before :=
  ⟨fun h => Or.inl h, fun h => h⟩

theorem Gathers.cons (h : Gathers s scope names before captured) :
    Gathers s scope (name :: names) before captured :=
  ⟨fun hx => (h.found hx).imp_right fun ⟨hmem, hc⟩ => ⟨List.mem_cons_of_mem _ hmem, hc⟩, h.kept⟩

theorem isSome_insert (before : NameMap CellId) (name : String) (cell : CellId) :
    ((before.insert name cell).get? name).isSome := by
  rw [get?_insert_self]
  rfl

theorem Gathers.insert (hc : s.cell? scope name = some cell)
    (h : Gathers s scope names (before.insert name cell) captured) :
    Gathers s scope (name :: names) before captured := by
  refine ⟨fun {x c} hx => ?_, fun {x} hx => h.kept ?_⟩
  · rcases h.found hx with hnew | ⟨hmem, hcell⟩
    · rw [get?_insert] at hnew
      split at hnew
      · next e => exact Or.inr ⟨e ▸ List.mem_cons_self, e ▸ hc.trans hnew⟩
      · exact Or.inl hnew
    · exact Or.inr ⟨List.mem_cons_of_mem _ hmem, hcell⟩
  · rw [get?_insert]
    split
    · rfl
    · exact hx

end NameMap

namespace Eval

variable {opened : FrameId → Prop} {s : State}

theorem safe_captureAll (hs : s.store.Sound) (scope : Scope) (position : Position)
    (names : List String) (before : NameMap CellId) :
    Safe opened (captureAll scope position before names) s fun captured s' =>
      s' = s.store ∧ NameMap.Gathers s.store scope names before captured ∧
        ∀ x ∈ names, (captured.get? x).isSome := by
  induction names generalizing before with
  | nil => exact safe_pure hs ⟨rfl, .refl, nofun⟩
  | cons name names ih =>
    refine Safe.of_get ?_
    split
    · next cell hcell =>
      refine (ih (before.insert name cell)).weaken (fun _ ho => ho) ?_
      rintro captured s' - - ⟨rfl, hg, hall⟩
      refine ⟨rfl, hg.insert hcell, fun x hx => ?_⟩
      rcases List.mem_cons.1 hx with rfl | hx
      · exact hg.kept (NameMap.isSome_insert before x cell)
      · exact hall x hx
    · exact safe_fail hs _ _

theorem safe_captureFound (hs : s.store.Sound) (scope : Scope) (names : List String)
    (before : NameMap CellId) :
    Safe opened (captureFound scope before names) s fun captured s' =>
      s' = s.store ∧ NameMap.Gathers s.store scope names before captured := by
  refine Safe.of_get (safe_pure hs ⟨rfl, ?_⟩)
  induction names generalizing before with
  | nil => exact .refl
  | cons name names ih =>
    rw [List.foldl_cons]
    split
    · next cell hcell => exact (ih _).insert hcell
    · exact (ih _).cons

end Eval

/-! ## Readiness -/

namespace Code

/-- The code may be evaluated in the scope: functions in it carry the lists of their analyses, and
inside a call all names that it assigns are bound in the frame of the call. -/
structure Ready (s : Store) (scope : Scope) (code : Code) : Prop where
  frame : scope.frame < s.frames.size
  placed : code.Every Placed
  bound : scope.frame ≠ 0 → code.Every fun part => ∀ x ∈ part.targets, s.contains scope x = true

variable {s s' : Store} {scope : Scope} {code : Code}

theorem Ready.part {part : Code} (h : code.Ready s scope) (hp : part ∈ code.parts) :
    part.Ready s scope :=
  ⟨h.frame, h.placed.part hp, fun h0 => (h.bound h0).part hp⟩

theorem Ready.extends {opened : FrameId → Prop} (h : code.Ready s scope)
    (he : s.Extends opened s') : code.Ready s' scope :=
  ⟨Nat.lt_of_lt_of_le h.frame he.frames, h.placed,
    fun h0 => (h.bound h0).mono fun _ hx x hmem => Store.contains_of_extends (hx x hmem) he⟩

/-- A target that is not bound yet gets its binding in the frame of the top level. -/
theorem Ready.opens (h : code.Ready s scope) {x : String} (hx : x ∈ code.targets)
    (hnone : s.contains scope x = false) : scope.opened scope.frame := by
  refine ⟨rfl, ?_⟩
  by_contra h0
  have hbound := (h.bound h0).self x hx
  rw [hnone] at hbound
  exact Bool.false_ne_true hbound

end Code

/-! ## Default assignments -/

namespace Store

/-- The values of names, nil for those that have none. -/
def valuesOrNil (s : Store) (scope : Scope) (names : List String) : List Value :=
  names.map fun x => (s.value? scope x).getD .nil

/-- The writes of a default assignment: those to targets that were nil or had no value. -/
def defaultWrites (targets : List String) (before values : List Value) : List (String × Value) :=
  ((targets.zip (before.zip values)).filter fun (_, old, _) => old.isNil).map
    fun (target, _, value) => (target, value)

theorem mem_defaultWrites {targets : List String} {before values : List Value}
    {w : String × Value} (hw : w ∈ Store.defaultWrites targets before values) :
    w.1 ∈ targets ∧ w.2 ∈ values := by
  obtain ⟨⟨x, old, v⟩, hx, rfl⟩ := List.mem_map.1 hw
  obtain ⟨htarget, hzip⟩ := List.of_mem_zip (List.mem_filter.1 hx).1
  exact ⟨htarget, (List.of_mem_zip hzip).2⟩

end Store

/-- What is left of a default assignment when some target was nil or had no value. -/
def Eval.fillIn (scope : Scope) (position : Position) (targets : List String)
    (before values : List Value) : Eval (List Value) := do
  matchCounts targets values position
  assignAll scope position (Store.defaultWrites targets before values)
  targets.mapM fun target => readName scope target position

/-! ## Entering functions -/

namespace Function

/-- Does a call of the function start with a variable of the name? -/
def Provides (f : Function) (x : String) : Prop :=
  (f.captured.get? x).isSome ∨ x ∈ f.locals ∨ x ∈ f.parameters

end Function

namespace Analysis

/-- The code of a body keeps to the mentions from which its analysis was made. -/
theorem Governs.noted {a : Analysis} {body : Code} (h : a.Governs body) :
    ∃ m, a = .ofMentions a.parameters a.channels m ∧ body.Every (Code.Noted m) := by
  obtain ⟨root, p, path, node, s, hp, hat, hcode⟩ := h
  obtain ⟨literal, position, parameters, channels, rest, hroot, -, -⟩ := hat.node
  have hbody : root.at? (2 :: path) = some node := Node.at?_child hroot (by rfl)
  exact ⟨s.mentions, hat.analysis, Node.noted_of_compile hp node hbody hat.survey hcode⟩

theorem Governs.escapes {a : Analysis} {body : Code} (h : a.Governs body) :
    body.escapes = false := by
  obtain ⟨_, _, _, _, _, _, _, hcode⟩ := h
  exact Node.escapes_eq_false hcode

end Analysis

namespace Function

variable {f : Function} {a : Analysis} {m : Mentions} {x : String}

/-- A name that the body assigns is a local of the call, or it was taken along. -/
theorem MadeFrom.provides_of_assigned (h : f.MadeFrom a)
    (ha : a = .ofMentions a.parameters a.channels m) (hx : x ∈ m.assigned) : f.Provides x := by
  by_cases hextern : x ∈ m.externs
  · refine Or.inl (h.free x ?_)
    rw [ha]
    exact Names.mem_union.2 (Or.inl hextern)
  · refine Or.inr (Or.inl ?_)
    rw [h.locals, ha]
    exact Names.mem_toList.2 (Names.mem_sdiff.2 ⟨hx, hextern⟩)

/-- A name that the body mentions is a variable of the call unless it is only a channel. -/
theorem MadeFrom.provides_of_identifier (h : f.MadeFrom a)
    (ha : a = .ofMentions a.parameters a.channels m) (hx : x ∈ m.identifiers)
    (hchannel : x ∈ a.channels → x ∈ a.parameters ∨ x ∈ a.locals ∨ x ∈ a.externs) :
    f.Provides x := by
  cases hbinds : a.binds x with
  | false =>
    have hident : x ∈ a.identifiers := by rw [ha]; exact hx
    have hfree : x ∈ a.free := by simp [Analysis.free, hident, hbinds]
    exact Or.inl (h.free x hfree)
  | true =>
    have hcases : x ∈ a.parameters ∨ x ∈ a.locals ∨ x ∈ a.externs := by
      simp only [Analysis.binds, Bool.or_eq_true, List.contains_iff_mem,
        decide_eq_true_eq] at hbinds
      rcases hbinds with (hp | hc) | hl
      · exact Or.inl hp
      · exact hchannel hc
      · exact Or.inr (Or.inl hl)
    rcases hcases with hp | hl | he
    · exact Or.inr (Or.inr (h.parameters ▸ hp))
    · exact Or.inr (Or.inl (h.locals ▸ Names.mem_toList.2 hl))
    · exact Or.inl (h.free x (Names.mem_union.2 (Or.inl he)))

/-- A call makes the code of its body ready. -/
theorem Sound.ready {s : Store} (h : f.Sound s) {s' : Store} {scope : Scope}
    (hframe : scope.frame < s'.frames.size)
    (hall : ∀ x, f.Provides x → s'.contains scope x = true) :
    f.body.Ready s' scope ∧ f.body.escapes = false := by
  rcases h.origin with (rfl | rfl) | ⟨a, hmade⟩
  iterate 2 exact ⟨⟨hframe, ⟨trivial, trivial⟩, fun _ => ⟨nofun, trivial⟩⟩, rfl⟩
  obtain ⟨m, ha, hnoted⟩ := hmade.governs.noted
  refine ⟨⟨hframe, hnoted.mono fun _ hn => hn.placed, fun _ => ?_⟩, hmade.governs.escapes⟩
  exact hnoted.mono fun _ hn x hx => hall x (hmade.provides_of_assigned ha (hn.targets x hx))

end Function

namespace Eval

variable {opened : FrameId → Prop} {s : State} {f : Function} {values : List Value}

/-! ## Calls -/

/-- The scope of a call is a new frame inside those given, which has all variables of the call. -/
theorem safe_enter (hs : s.store.Sound) (hf : f.Sound s.store) (hv : Value.AreData s.store values)
    (hcount : values.length = f.arity) (outer : List FrameId) (position : Position) :
    Safe (fun _ => False) (enter f values outer position) s fun scope s' =>
      scope = ⟨s.store.frames.size, outer⟩ ∧ scope.frame < s'.frames.size ∧
        ∀ x, f.Provides x → s'.contains scope x = true := by
  refine (safe_newFrame hs hf.captured).bind' (fun frame => s.store.frames.size = frame)
    (fun _ hframe => Or.inr (Nat.le_of_eq hframe)) ?_
  rintro frame s₁ hs₁ he₁ ⟨rfl, hnew⟩
  have hframe : (Scope.mk s.store.frames.size outer).frame < s₁.store.frames.size := by
    simp [hnew, Store.newFrame]
  dsimp only
  refine (safe_assignNames hs₁ hframe (Value.isData_of_nils f.locals) fun _ _ _ => rfl).bind
    fun _ s₂ hs₂ he₂ hlocals => ?_
  have hframe₂ := Nat.lt_of_lt_of_le hframe he₂.frames
  refine (safe_assignNames hs₂ hframe₂ ?_ fun _ _ _ => rfl).bind
    fun _ s₃ hs₃ he₃ hparameters => ?_
  · intro w hw
    exact ((hv w.2 (List.of_mem_zip hw).2).extends he₁).extends he₂
  refine safe_pure hs₃ ⟨rfl, Nat.lt_of_lt_of_le hframe₂ he₃.frames, fun x hx => ?_⟩
  rcases hx with hx | hx | hx
  · have hown : s₁.store.contains ⟨s.store.frames.size, outer⟩ x = true := by
      rw [hnew, Store.contains, Store.ownCell?, Store.bindings_newFrame, if_pos rfl]
      exact hx
    exact Store.contains_of_extends (Store.contains_of_extends hown he₂) he₃
  · exact Store.contains_of_extends (hlocals (x, .nil) (List.mem_map_of_mem hx)) he₃
  · rw [← List.map_fst_zip (Nat.le_of_eq hcount.symm)] at hx
    obtain ⟨w, hw, rfl⟩ := List.mem_map.1 hx
    exact hparameters w hw

/-- Calls of sound functions with data are safe, open no frame and yield data. -/
def CallSafe (call : Function → List Value → Scope → Position → Eval (List Value)) : Prop :=
  ∀ f values caller position s, s.store.Sound → f.Sound s.store → Value.AreData s.store values →
    Safe (fun _ => False) (call f values caller position) s
      fun values s' => Value.AreData s' values

/-- Ready code is safe, and yields data or a signal that may leave it. -/
def CodeSafe (evaluate : Code → Scope → Eval (List Value)) : Prop :=
  ∀ code scope s, s.store.Sound → code.Ready s.store scope →
    Safe scope.opened (evaluate code scope) s
      fun values s' => Value.Yielded s' (code.escapes = true) values

theorem callSafe_call {body : Code → Scope → Eval (List Value)} (hbody : CodeSafe body) :
    CallSafe (call body) := by
  intro f values caller position s hs hf hv
  unfold call
  split
  · next hcount =>
    refine (safe_enter hs hf hv hcount caller.chain position).bind' (fun _ => False)
      (fun _ h => h.elim) ?_
    rintro scope s₁ hs₁ he₁ ⟨rfl, hframe, hall⟩
    obtain ⟨hready, hescapes⟩ := hf.ready hframe hall
    -- The frame of a call is not that of the top level, so the body opens none.
    have hopen : ∀ frame, ¬ Scope.opened ⟨s.store.frames.size, caller.chain⟩ frame :=
      fun _ ho => Nat.ne_of_gt hs.global ho.2
    refine ((hbody _ _ s₁ hs₁ hready).weaken hopen fun _ _ _ _ hy => hy).bind
      fun values s₂ hs₂ he₂ hy => safe_pure hs₂ (hy.mono fun he => ?_).returned
    exact Bool.false_ne_true (hescapes.symm.trans he)
  · exact safe_fail hs _ _

theorem safe_primitive (hs : s.store.Sound) (p : Primitive) (scope : Scope) {loose : Prop} :
    Safe opened (Eval.primitive p scope) s fun values s' => Value.Yielded s' loose values := by
  cases p with
  | print =>
    refine (safe_readName hs scope "value" .nowhere).bind fun v s₁ hs₁ _ _ => ?_
    exact (safe_print hs₁ _).bind fun _ s₂ hs₂ _ _ => safe_pure hs₂ (.data .nil)
  | clock =>
    exact (safe_readClock hs).bind fun _ s₁ hs₁ _ _ => safe_pure hs₁ (.data (.singleton trivial))

/-- The function that a literal yields is sound. -/
theorem safe_function {parameters channels locals free passed : List String} {body : Code}
    {position : Position} {scope : Scope} {loose : Prop} (hs : s.store.Sound)
    (hplaced : (Code.function parameters channels locals free passed body position).Placed)
    (call : Function → List Value → Scope → Position → Eval (List Value)) (bound : Nat) :
    Safe opened
      (Code.evaluate call bound (.function parameters channels locals free passed body position)
        scope) s fun values s' => Value.Yielded s' loose values := by
  unfold Code.evaluate
  obtain ⟨a, hgoverns, rfl, rfl, rfl, rfl, rfl⟩ := hplaced
  refine (safe_captureAll hs scope position a.free.toList ∅).bind ?_
  rintro first s₁ hs₁ - ⟨e₁, hg₁, hall⟩
  refine (safe_captureFound hs₁ scope _ first).bind ?_
  rintro captured s₂ hs₂ - ⟨e₂, hg₂⟩
  refine (safe_newFunctionId hs₂).bind ?_
  rintro id s₃ hs₃ - e₃
  refine safe_pure hs₃ (.data (.singleton ⟨fun {x c} hx => ?_, Or.inr ⟨a, ?_⟩⟩))
  · rw [e₃, e₂]
    rcases hg₂.found hx with hx | ⟨-, hx⟩
    · rcases hg₁.found hx with hx | ⟨-, hx⟩
      · simp at hx
      · exact e₁ ▸ Store.binds_of_cell? hx
    · exact Store.binds_of_cell? hx
  · refine ⟨hgoverns, rfl, rfl, rfl, fun x hx => hg₂.kept (hall x (Names.mem_toList.2 hx)), ?_⟩
    intro x hx
    obtain ⟨c, hc⟩ := Option.isSome_iff_exists.1 hx
    rcases hg₂.found hc with hc | ⟨hmem, -⟩
    · rcases hg₁.found hc with hc | ⟨hmem, -⟩
      · simp at hc
      · exact Names.mem_union.2 (Or.inl (Names.mem_toList.1 hmem))
    · exact (Names.mem_sdiff.1 (Names.mem_toList.1 hmem)).1

end Eval

open Eval

namespace Code

/-! ## The evaluator -/

/-- Ready code is safe if calls are. -/
theorem codeSafe_evaluate {call : Function → List Value → Scope → Position → Eval (List Value)}
    (hcall : CallSafe call) (bound : Nat) : CodeSafe (evaluate call bound) := by
  intro code scope
  -- The parts of ready code are ready, and stay so in all stores that come later.
  induction code with
  | literal value =>
    intro s hs _
    exact safe_pure hs (.data (.singleton ((Value.plain_literal value).isData)))
  | name x position =>
    intro s hs _
    exact (safe_readName hs scope x position).bind
      fun _ _ hs' _ hv => safe_pure hs' (.data (.singleton hv))
  | nothing =>
    intro s hs _
    exact safe_pure hs (.data .nil)
  | sequence first rest ihfirst ihrest =>
    intro s hs hr
    refine safe_unlessSignal ((ihfirst s hs (hr.part (.head _))).loosen fun h => by
      simp [escapes, h]) fun _ s₁ hs₁ he₁ _ => ?_
    exact (ihrest s₁ hs₁ ((hr.part (.tail _ (.head _))).extends he₁)).loosen fun h => by
      simp [escapes, h]
  | both first rest ihfirst ihrest =>
    intro s hs hr
    refine safe_unlessSignal ((ihfirst s hs (hr.part (.head _))).loosen fun h => by
      simp [escapes, h]) fun left s₁ hs₁ he₁ hleft => ?_
    refine safe_unlessSignal ((ihrest s₁ hs₁ ((hr.part (.tail _ (.head _))).extends he₁)).loosen
      fun h => by simp [escapes, h]) fun right s₂ hs₂ he₂ hright => ?_
    exact safe_pure hs₂ (.data ((hleft.extends he₂).append hright))
  | assign targets value position ih =>
    intro s hs hr
    refine safe_unlessSignal (ih s hs (hr.part (.head _))) fun values s₁ hs₁ he₁ hvalues => ?_
    refine (safe_matchCounts hs₁ targets values position).bind fun _ s₂ hs₂ he₂ _ => ?_
    have hr₂ := (hr.extends he₁).extends he₂
    refine (safe_assignAll hs₂ hr₂.frame ?_ ?_).bind fun _ s₃ hs₃ he₃ _ => ?_
    · exact fun w hw => (hvalues w.2 (List.of_mem_zip hw).2).extends he₂
    · exact fun w hw => hr₂.opens (List.of_mem_zip hw).1
    · exact safe_pure hs₃ (.data ((hvalues.extends he₂).extends he₃))
  | accumulate target value position ih =>
    intro s hs hr
    refine safe_withOperand (ih s hs (hr.part (.head _))) fun operand s₁ hs₁ he₁ _ => ?_
    refine (safe_readName hs₁ scope target position).bind fun current s₂ hs₂ he₂ _ => ?_
    refine (safe_operate hs₂ (fun _ h => Value.isData_of_add h) position).bind
      fun sum s₃ hs₃ he₃ hsum => ?_
    have hr₃ := ((hr.extends he₁).extends he₂).extends he₃
    refine (safe_assignName hs₃ hr₃.frame hsum (hr₃.opens (.head _))).bind
      fun _ s₄ hs₄ he₄ _ => ?_
    exact safe_pure hs₄ (.data (.singleton (hsum.extends he₄)))
  | default targets value position ih =>
    intro s hs hr
    refine Safe.of_get ?_
    dsimp only
    split
    · refine safe_pure hs (.data fun v hv => ?_)
      obtain ⟨x, -, rfl⟩ := List.mem_map.1 hv
      exact hs.value? scope x
    · refine safe_unlessSignal (ih s hs (hr.part (.head _))) fun values s₁ hs₁ he₁ hvalues => ?_
      refine (safe_matchCounts hs₁ targets values position).bind fun _ s₂ hs₂ he₂ _ => ?_
      have hr₂ := (hr.extends he₁).extends he₂
      refine (safe_assignAll hs₂ hr₂.frame ?_ ?_).bind fun _ s₃ hs₃ he₃ _ => ?_
      · exact fun w hw => (hvalues w.2 (Store.mem_defaultWrites hw).2).extends he₂
      · exact fun w hw => hr₂.opens (Store.mem_defaultWrites hw).1
      · exact (safe_readNames hs₃ scope targets position).weaken (fun _ ho => ho)
          fun _ _ _ _ hv => .data hv
  | unary op operand position ih =>
    intro s hs hr
    refine safe_withOperand (ih s hs (hr.part (.head _))) fun v s₁ hs₁ _ _ => ?_
    exact (safe_operate hs₁ (fun _ h => (Value.plain_of_unary h).isData) position).bind
      fun _ _ hs₂ _ hv => safe_pure hs₂ (.data (.singleton hv))
  | binary op left right position ihleft ihright =>
    intro s hs hr
    refine safe_withOperand ((ihleft s hs (hr.part (.head _))).loosen fun h => by
      simp [escapes, h]) fun a s₁ hs₁ he₁ _ => ?_
    refine safe_withOperand ((ihright s₁ hs₁ ((hr.part (.tail _ (.head _))).extends he₁)).loosen
      fun h => by simp [escapes, h]) fun b s₂ hs₂ _ _ => ?_
    exact (safe_operate hs₂ (fun _ h => (Value.plain_of_binary h).isData) position).bind
      fun _ _ hs₃ _ hv => safe_pure hs₃ (.data (.singleton hv))
  | logical decides left right position ihleft ihright =>
    intro s hs hr
    refine safe_withOperand ((ihleft s hs (hr.part (.head _))).loosen fun h => by
      simp [escapes, h]) fun v s₁ hs₁ he₁ hv => ?_
    split
    · exact safe_pure hs₁ (.data (.singleton hv))
    · exact (ihright s₁ hs₁ ((hr.part (.tail _ (.head _))).extends he₁)).loosen fun h => by
        simp [escapes, h]
  | branch condition yes no position ihcondition ihyes ihno =>
    intro s hs hr
    refine safe_withOperand ((ihcondition s hs (hr.part (.head _))).loosen fun h => by
      simp [escapes, h]) fun v s₁ hs₁ he₁ _ => ?_
    split
    · exact (ihyes s₁ hs₁ ((hr.part (.tail _ (.head _))).extends he₁)).loosen fun h => by
        simp [escapes, h]
    · exact (ihno s₁ hs₁ ((hr.part (.tail _ (.tail _ (.head _)))).extends he₁)).loosen fun h => by
        simp [escapes, h]
  | loop condition body position ihcondition ihbody =>
    intro s hs hr
    exact safe_iterate (fun s => (loop condition body position).Ready s scope)
      (fun he hr => hr.extends he) (fun s hs hr => ihcondition s hs (hr.part (.head _)))
      (fun s hs hr => ihbody s hs (hr.part (.tail _ (.head _)))) position bound hs hr
  | «return» operand ih =>
    intro s hs hr
    exact safe_unlessSignal (ih s hs (hr.part (.head _)))
      fun _ _ hs₁ _ hvalues => safe_pure hs₁ (.returning hvalues)
  | «break» =>
    intro s hs _
    exact safe_pure hs (.breaking rfl)
  | «continue» =>
    intro s hs _
    exact safe_pure hs (.continuing rfl)
  | function parameters channels locals free passed body position =>
    intro s hs hr
    exact safe_function hs hr.placed.self call bound
  | apply callee arguments position ihcallee iharguments =>
    intro s hs hr
    refine safe_withOperand ((ihcallee s hs (hr.part (.head _))).loosen fun h => by
      simp [escapes, h]) fun v s₁ hs₁ he₁ hv => ?_
    cases v with
    | function f =>
      refine safe_unlessSignal ((iharguments s₁ hs₁
        ((hr.part (.tail _ (.head _))).extends he₁)).loosen fun h => by simp [escapes, h])
        fun values s₂ hs₂ he₂ hvalues => ?_
      have hf : f.Sound s₂.store := Value.IsData.extends (v := .function f) hv he₂
      exact (hcall f values scope position s₂ hs₂ hf hvalues).weaken (fun _ h => h.elim)
        fun _ _ _ _ h => .data h
    | _ => exact safe_fail hs₁ _ _
  | primitive p =>
    intro s hs _
    exact safe_primitive hs p scope

/-- Whatever the bound, evaluating ready code keeps the store sound. -/
theorem codeSafe_run (fuel : Nat) : CodeSafe (run fuel) := by
  induction fuel with
  | zero => exact fun _ _ _ hs _ => safe_exhausted hs
  | succ fuel ih => exact codeSafe_evaluate (callSafe_call ih) fuel

end Code

end Scripting
