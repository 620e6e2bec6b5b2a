import Scripting.Proofs.Inversion
import Scripting.Proofs.Soundness

/-!
# Proofs: computations that keep the store sound

`Safe opened m s post` says of a computation `m` that starts in `s`: however it ends, the store is
sound and extends the one before, with bindings made in `opened` frames alone; and if it gives a
result, that satisfies `post`. Each way to put computations together has a rule here.
-/

namespace Scripting

namespace Eval

/-- The store after a computation is sound and extends the store before, and a result satisfies
`post`. -/
def Safe {α : Type} (opened : FrameId → Prop) (m : Eval α) (s : State)
    (post : α → Store → Prop) : Prop :=
  match m s with
  | .ok a s' => s'.store.Sound ∧ s.store.Extends opened s'.store ∧ post a s'.store
  | .error _ s' => s'.store.Sound ∧ s.store.Extends opened s'.store

variable {α β : Type} {opened opened' : FrameId → Prop} {m : Eval α} {f : α → Eval β}
  {s s' : State} {post : α → Store → Prop} {post' : β → Store → Prop}

/-! ## Rules -/

theorem Safe.of_ok (h : Safe opened m s post) {a : α} (hm : m s = .ok a s') :
    s'.store.Sound ∧ s.store.Extends opened s'.store ∧ post a s'.store := by
  unfold Safe at h
  rw [hm] at h
  exact h

theorem Safe.of_error (h : Safe opened m s post) {e : Stop RuntimeError}
    (hm : m s = .error e s') : s'.store.Sound ∧ s.store.Extends opened s'.store := by
  unfold Safe at h
  rw [hm] at h
  exact h

/-- A computation that leaves the store alone. -/
theorem safe_pure (hs : s.store.Sound) {a : α} (h : post a s.store) :
    Safe opened (pure a) s post :=
  ⟨hs, .refl _ _, h⟩

theorem safe_fail (hs : s.store.Sound) (fault : RuntimeFault) (position : Position) :
    Safe opened (fail fault position : Eval α) s post :=
  ⟨hs, .refl _ _⟩

theorem safe_exhausted (hs : s.store.Sound) : Safe opened (exhausted : Eval α) s post :=
  ⟨hs, .refl _ _⟩

theorem Safe.weaken {post'' : α → Store → Prop} (h : Safe opened m s post)
    (ho : ∀ frame, opened frame → opened' frame)
    (hp : ∀ a s', s'.Sound → s.store.Extends opened s' → post a s' → post'' a s') :
    Safe opened' m s post'' := by
  unfold Safe at h ⊢
  cases hm : m s with
  | ok a s' =>
    rw [hm] at h
    exact ⟨h.1, h.2.1.mono ho, hp a _ h.1 h.2.1 h.2.2⟩
  | error e s' =>
    rw [hm] at h
    exact ⟨h.1, h.2.mono ho⟩

/-- What comes second may open frames that did not exist at the start. -/
theorem Safe.bind' (hm : Safe opened m s post) (opened' : FrameId → Prop)
    (hnew : ∀ frame, opened' frame → opened frame ∨ s.store.frames.size ≤ frame)
    (hf : ∀ a s', s'.store.Sound → s.store.Extends opened s'.store → post a s'.store →
      Safe opened' (f a) s' post') : Safe opened (m >>= f) s post' := by
  cases h : m s with
  | ok a s₁ =>
    obtain ⟨hs, he, hp⟩ := hm.of_ok h
    have hrest := hf a s₁ hs he hp
    unfold Safe at hrest ⊢
    rw [bind_ok h]
    cases h' : f a s₁ with
    | ok b s₂ =>
      rw [h'] at hrest
      exact ⟨hrest.1, he.trans' hrest.2.1 hnew, hrest.2.2⟩
    | error e s₂ =>
      rw [h'] at hrest
      exact ⟨hrest.1, he.trans' hrest.2 hnew⟩
  | error e s₁ =>
    unfold Safe
    rw [bind_error h]
    exact hm.of_error h

theorem Safe.bind (hm : Safe opened m s post)
    (hf : ∀ a s', s'.store.Sound → s.store.Extends opened s'.store → post a s'.store →
      Safe opened (f a) s' post') : Safe opened (m >>= f) s post' :=
  hm.bind' opened (fun _ ho => Or.inl ho) hf

/-! ## Reading and writing -/

variable {scope : Scope} {position : Position}

/-- A computation that begins by looking at its state. -/
theorem Safe.of_get {f : State → Eval β} (h : Safe opened (f s) s post') :
    Safe opened (get >>= f) s post' :=
  h

theorem safe_inspect (hs : s.store.Sound) (position : Position)
    (look : Store → Except ScopeFault α) :
    Safe opened (inspect position look) s fun a s' => s' = s.store ∧ look s.store = .ok a := by
  unfold Safe
  cases h : look s.store with
  | ok a =>
    rw [inspect_of_ok h]
    exact ⟨hs, .refl _ _, rfl, rfl⟩
  | error fault =>
    rw [inspect_of_error h]
    exact ⟨hs, .refl _ _⟩

theorem safe_readName (hs : s.store.Sound) (scope : Scope) (x : String) (position : Position) :
    Safe opened (readName scope x position) s fun v s' => v.IsData s' := by
  refine (safe_inspect hs position _).weaken (fun _ ho => ho) ?_
  rintro v s' - - ⟨rfl, hv⟩
  have hdata := hs.value? scope x
  unfold Store.value Store.cell at hv
  unfold Store.value? at hdata
  cases hc : s.store.cell? scope x with
  | none => simp [hc, Except.map] at hv
  | some c =>
    rw [hc] at hv hdata
    cases hv
    exact hdata

/-- The name that was written is bound afterwards in the frame of the scope. -/
theorem safe_assignName (hs : s.store.Sound) (hframe : scope.frame < s.store.frames.size)
    {x : String} {v : Value} (hv : v.IsData s.store)
    (hopen : s.store.contains scope x = false → opened scope.frame) :
    Safe opened (assignName scope position x v) s fun _ s' => s'.contains scope x = true := by
  refine (safe_inspect hs position _).bind ?_
  rintro - s' hs' - ⟨e, -⟩
  have hput : s'.store.Extends opened (s'.store.put scope x v) :=
    Store.extends_put (e ▸ hframe) v (e ▸ hopen)
  exact ⟨hs'.put (e ▸ hframe) (e ▸ hv), hput, Store.contains_put (e ▸ hframe) x v⟩

theorem safe_assignNames {writes : List (String × Value)} (hs : s.store.Sound)
    (hframe : scope.frame < s.store.frames.size) (hv : ∀ w ∈ writes, w.2.IsData s.store)
    (hopen : ∀ w ∈ writes, s.store.contains scope w.1 = false → opened scope.frame) :
    Safe opened (assignNames scope position writes) s
      fun _ s' => ∀ w ∈ writes, s'.contains scope w.1 = true := by
  induction writes generalizing s with
  | nil => exact safe_pure hs nofun
  | cons w writes ih =>
    refine (safe_assignName hs hframe (hv w List.mem_cons_self) (hopen w List.mem_cons_self)).bind
      fun _ s' hs' he hw => ?_
    have hrest := ih hs' (Nat.lt_of_lt_of_le hframe he.frames)
      (fun w hw => (hv w (List.mem_cons_of_mem _ hw)).extends he)
      fun w hw hnone => hopen w (List.mem_cons_of_mem _ hw)
        (Bool.eq_false_iff.2 fun h => by simp [Store.contains_of_extends h he] at hnone)
    refine hrest.weaken (fun _ ho => ho) fun _ s'' _ he' hall w' hw' => ?_
    rcases List.mem_cons.1 hw' with rfl | hw'
    · exact Store.contains_of_extends hw he'
    · exact hall w' hw'

theorem safe_assignAll {writes : List (String × Value)} (hs : s.store.Sound)
    (hframe : scope.frame < s.store.frames.size) (hv : ∀ w ∈ writes, w.2.IsData s.store)
    (hopen : ∀ w ∈ writes, s.store.contains scope w.1 = false → opened scope.frame) :
    Safe opened (assignAll scope position writes) s
      fun _ s' => ∀ w ∈ writes, s'.contains scope w.1 = true := by
  refine (safe_inspect hs position _).bind ?_
  rintro - s' hs' - ⟨e, -⟩
  exact safe_assignNames hs' (e ▸ hframe) (e ▸ hv) (e ▸ hopen)

theorem safe_matchCounts (hs : s.store.Sound) (targets : List String) (values : List Value)
    (position : Position) : Safe opened (matchCounts targets values position) s
      fun _ _ => values.length = targets.length := by
  unfold matchCounts
  split
  · next h => exact safe_pure hs h
  · exact safe_fail hs _ _

theorem safe_readNames (hs : s.store.Sound) (scope : Scope) (names : List String)
    (position : Position) :
    Safe opened (names.mapM fun x => readName scope x position) s
      fun values s' => Value.AreData s' values := by
  induction names generalizing s with
  | nil => exact safe_pure hs .nil
  | cons x names ih =>
    rw [List.mapM_cons]
    refine (safe_readName hs scope x position).bind fun v s' hs' _ hv => ?_
    refine (ih hs').bind fun values s'' hs'' he hvalues => safe_pure hs'' ?_
    exact fun w hw => (List.mem_cons.1 hw).elim (fun e => e ▸ hv.extends he) (hvalues w)

theorem safe_operate (hs : s.store.Sound) {result : Except OperandFault Value}
    (h : ∀ v, result = .ok v → v.IsData s.store) (position : Position) :
    Safe opened (operate position result) s fun v s' => v.IsData s' := by
  unfold operate
  split
  · exact safe_pure hs (h _ rfl)
  · exact safe_fail hs _ _

theorem safe_print (hs : s.store.Sound) (text : String) :
    Safe opened (print text) s fun _ _ => True :=
  ⟨hs, .refl _ _, trivial⟩

theorem safe_readClock (hs : s.store.Sound) : Safe opened readClock s fun _ _ => True :=
  ⟨hs, .refl _ _, trivial⟩

theorem safe_newFunctionId (hs : s.store.Sound) :
    Safe opened newFunctionId s fun _ s' => s' = s.store :=
  ⟨hs, .refl _ _, rfl⟩

theorem safe_newFrame (hs : s.store.Sound) {bindings : NameMap CellId}
    (hb : ∀ {x c}, bindings.get? x = some c → s.store.Binds x c) :
    Safe opened (newFrame bindings) s fun frame s' =>
      frame = s.store.frames.size ∧ s' = (s.store.newFrame bindings).2 :=
  ⟨hs.newFrame hb, Store.extends_newFrame _ _ _, rfl, rfl⟩

/-! ## Signals and operands -/

variable {loose : Prop} {next : List Value → Eval (List Value)} {part : Eval (List Value)}

theorem Safe.loosen {loose' : Prop} {m : Eval (List Value)}
    (h : Safe opened m s fun values s' => Value.Yielded s' loose values) (hl : loose → loose') :
    Safe opened m s fun values s' => Value.Yielded s' loose' values :=
  h.weaken (fun _ ho => ho) fun _ _ _ _ hy => hy.mono hl

theorem safe_unlessSignal
    (hpart : Safe opened part s fun values s' => Value.Yielded s' loose values)
    (hnext : ∀ values s', s'.store.Sound → s.store.Extends opened s'.store →
      Value.AreData s'.store values →
      Safe opened (next values) s' fun values s' => Value.Yielded s' loose values) :
    Safe opened (unlessSignal part next) s fun values s' => Value.Yielded s' loose values := by
  refine hpart.bind fun values s' hs' he hy => ?_
  cases hsignal : Value.isSignal values with
  | true => exact safe_pure hs' hy
  | false => exact hnext values s' hs' he (hy.areData hsignal)

theorem safe_single (hs : s.store.Sound) {values : List Value}
    (hv : Value.AreData s.store values) (position : Position) :
    Safe opened (single position values) s fun v s' => v.IsData s' := by
  unfold single
  split
  · exact safe_pure hs (hv _ List.mem_cons_self)
  · exact safe_fail hs _ _

theorem safe_withOperand {next : Value → Eval (List Value)}
    (hpart : Safe opened part s fun values s' => Value.Yielded s' loose values)
    (hnext : ∀ v s', s'.store.Sound → s.store.Extends opened s'.store → v.IsData s'.store →
      Safe opened (next v) s' fun values s' => Value.Yielded s' loose values) :
    Safe opened (withOperand part position next) s
      fun values s' => Value.Yielded s' loose values := by
  refine safe_unlessSignal hpart fun values s' hs' he hv => ?_
  refine (safe_single hs' hv position).bind fun v s'' hs'' he' hv' => ?_
  exact hnext v s'' hs'' (he.trans he') hv'

/-- A loop takes in the breaks and continues of its body. -/
theorem safe_iterate {condition body : Eval (List Value)} {loose' : Prop} (ready : Store → Prop)
    (hready : ∀ {s s'}, s.Extends opened s' → ready s → ready s')
    (hcondition : ∀ s : State, s.store.Sound → ready s.store →
      Safe opened condition s fun values s' => Value.Yielded s' loose values)
    (hbody : ∀ s : State, s.store.Sound → ready s.store →
      Safe opened body s fun values s' => Value.Yielded s' loose' values)
    (position : Position) (bound : Nat) (hs : s.store.Sound) (hr : ready s.store) :
    Safe opened (iterate condition body position bound) s
      fun values s' => Value.Yielded s' loose values := by
  induction bound generalizing s with
  | zero => exact safe_exhausted hs
  | succ bound ih =>
    refine safe_withOperand (hcondition s hs hr) fun test s₁ hs₁ he₁ _ => ?_
    have hr₁ := hready he₁ hr
    split
    · refine (hbody s₁ hs₁ hr₁).bind fun values s₂ hs₂ he₂ hy => ?_
      split
      · exact safe_pure hs₂ (.data (.singleton trivial))
      · cases hy with
        | data h => exact (h _ List.mem_cons_self).elim
        | returning h => exact safe_pure hs₂ (.returning h)
      · exact ih hs₂ (hready he₂ hr₁)
    · exact safe_pure hs₁ (.data (.singleton trivial))

end Eval

end Scripting
