import Scripting.Proofs.Failures

/-!
# Proofs: the frame of a call is laid out when the call starts

A call starts with all names that the body of the function looks up or assigns, but for names that
are channels and nothing else. Until it ends, no frame that was there when the body started gets a
name more or another cell for a name.
-/

namespace Scripting

open Eval

namespace Code.Seeks

variable {x : String} {code : Code} {e : RuntimeError} {position : Position}

/-- A construct that fails to find a variable uses it. -/
theorem mem_uses (h : code.Seeks x ⟨.scope (.undefined x), position⟩) : x ∈ code.uses := by
  cases h with
  | name | accumulate => exact List.mem_cons_self
  | print hx => exact hx ▸ List.mem_cons_self

theorem mem (h : code.Seeks x e) : x ∈ code.uses ++ code.taken := by
  cases h with
  | name | accumulate => exact List.mem_cons_self
  | print hx => exact hx ▸ List.mem_cons_self
  | function hx => exact List.mem_append_right _ (List.mem_append_left _ hx)

end Code.Seeks

/-- The function binds the name as a channel and in no other way, nor does it declare it to belong
outside. -/
def Analysis.OnlyChannel (a : Analysis) (x : String) : Prop :=
  x ∈ a.channels ∧ x ∉ a.parameters ∧ x ∉ a.locals ∧ x ∉ a.externs

/-! ## The code of a scope -/

namespace Task

/-- The task is done in the scope with code that satisfies `P`, or in a frame from `first` on. -/
def Inside (P : Code → Prop) (scope : Scope) (first : FrameId) (task : Task) : Prop :=
  task.scope = scope ∧ task.Every P ∨ first ≤ task.scope.frame

end Task

namespace Moment

variable {P : Code → Prop} {scope : Scope} {first : FrameId} {m m' : Moment}

/-- What a call starts is done in a new frame. -/
theorem Starts.new_frame (h : m.Starts m') (hm : m.Fine) {f : Function} {values : List Value}
    {caller : Scope} {position : Position} (hcall : m.task = .call f values caller position) :
    m.state.store.frames.size ≤ m'.task.scope.frame := by
  cases h with
  | locals _ hframe | parameters _ hframe =>
    obtain ⟨-, -, hnew, -⟩ := of_newFrame hm.sound hm.ready.1 hframe
    exact Nat.le_of_eq hnew
  | enter hcount henter =>
    obtain ⟨-, -, rfl, -⟩ := (safe_enter hm.sound hm.ready.1 hm.ready.2 hcount _ _).of_ok henter
    exact Nat.le_refl _
  | _ => cases hcall

/-- What a task starts is done in its own scope, with its own code, or else in a new frame. -/
theorem Starts.own (h : m.Starts m') (hm : m.Fine) :
    m'.task.scope = m.task.scope ∧ (m.task.Every P → m'.task.Every P) ∨
      m.state.store.frames.size ≤ m'.task.scope.frame := by
  rcases h.inner with ⟨f, values, caller, position, hcall⟩ | ⟨hscope, hevery, -⟩
  · exact Or.inr (h.new_frame hm hcall)
  · exact Or.inl ⟨hscope, hevery P⟩

theorem Starts.inside (h : m.Starts m') (hm : m.Fine) (hfirst : first ≤ m.state.store.frames.size)
    (hi : m.task.Inside P scope first) : m'.task.Inside P scope first := by
  rcases h.own hm with ⟨hscope, hevery⟩ | hnew
  · rcases hi with ⟨hown, hP⟩ | hle
    · exact Or.inl ⟨hscope.trans hown, hevery hP⟩
    · exact Or.inr (hscope ▸ hle)
  · exact Or.inr (Nat.le_trans hfirst hnew)

theorem Within.inside (h : m.Within m') (hm : m.Fine)
    (hfirst : first ≤ m.state.store.frames.size) (hi : m.task.Inside P scope first) :
    m'.task.Inside P scope first := by
  induction h with
  | refl => exact hi
  | tail hwithin hstep ih =>
    have hleads := Within.leads hwithin hm
    exact hstep.inside hleads.fine (Nat.le_trans hfirst hleads.extended.frames) ih

end Moment

/-! ## The body of a call -/

namespace Function

variable {f : Function} {a : Analysis}

/-- A call of a function of the library starts with all that its body uses. -/
theorem IsNative.provides (h : f.IsNative) :
    f.body.Every fun code => ∀ x ∈ code.uses ++ code.taken, f.Provides x := by
  rcases h with rfl | rfl
  · exact ⟨fun x hx => Or.inr (Or.inr hx), trivial⟩
  · exact ⟨nofun, trivial⟩

/-- All that the body of a function uses are variables that a call starts with, or channels. -/
theorem MadeFrom.provides (h : f.MadeFrom a) :
    f.body.Every fun code => ∀ x ∈ code.uses, ¬ a.OnlyChannel x → f.Provides x := by
  obtain ⟨m, ha, hnoted⟩ := h.governs.noted
  refine hnoted.mono fun code hcode x hx hchannel => ?_
  rcases List.mem_append.1 hx with hx | hx
  · refine h.provides_of_identifier ha (hcode.reads x hx) fun hc => ?_
    by_contra hother
    obtain ⟨hp, hother⟩ := not_or.1 hother
    obtain ⟨hl, he⟩ := not_or.1 hother
    exact hchannel ⟨hc, hp, hl, he⟩
  · exact h.provides_of_assigned ha (hcode.targets x hx)

end Function

section

variable {level : Nat} {f : Function} {arguments : List Value} {caller scope : Scope}
  {position : Position} {s s₀ : State} {m : Moment}

/-- The facts about the body of a call with which all that it does can be followed. -/
theorem Moment.of_enter (hcall : Moment.Fine ⟨level + 1, .call f arguments caller position, s⟩)
    (hcount : arguments.length = f.arity)
    (henter : enter f arguments caller.chain position s = .ok scope s₀) :
    Moment.Fine ⟨level, .code f.body scope, s₀⟩ ∧ 0 < scope.frame ∧
      scope.frame < s₀.store.frames.size ∧
      ∀ x, f.Provides x → s₀.store.contains scope x = true := by
  have hfine := ((Starts.enter hcount henter).leads hcall).fine
  obtain ⟨hs, hf, hv⟩ := hcall
  obtain ⟨-, -, rfl, hframe, hall⟩ := (safe_enter hs hf hv hcount _ _).of_ok henter
  exact ⟨hfine, hs.global, hframe, hall⟩

/-- Until a call ends, no frame that was there when its body started changes. -/
theorem Moment.bindings_of_within (hbody : Moment.Fine ⟨level, .code f.body scope, s₀⟩)
    (hscope : 0 < scope.frame) (hm : Moment.Within ⟨level, .code f.body scope, s₀⟩ m)
    {s' : State} (hs' : m.At s') {frame : FrameId} (hframe : frame < s₀.store.frames.size) :
    s'.store.bindings frame = s₀.store.bindings frame := by
  obtain ⟨-, he⟩ := (hm.leads hbody).at hs'
  exact he.closed hframe fun ho => Nat.ne_of_gt hscope ho.2

/-- A name that is bound when the body starts is found in the frame of the call until it ends. -/
theorem Moment.cell?_of_within (hbody : Moment.Fine ⟨level, .code f.body scope, s₀⟩)
    (hscope : 0 < scope.frame) (hframe : scope.frame < s₀.store.frames.size)
    (hm : Moment.Within ⟨level, .code f.body scope, s₀⟩ m) {s' : State} (hs' : m.At s')
    {x : String} (hx : s₀.store.contains scope x = true) :
    ∃ cell, s'.store.ownCell? scope x = some cell ∧ s'.store.cell? scope x = some cell := by
  obtain ⟨cell, hcell⟩ := Option.isSome_iff_exists.1 hx
  have hown : s'.store.ownCell? scope x = some cell := by
    unfold Store.ownCell? at hcell ⊢
    rw [bindings_of_within hbody hscope hm hs' hframe]
    exact hcell
  exact ⟨cell, hown, Store.cell?_of_ownCell? hown⟩

end

/-- The frame of a call of a function that a literal made is laid out when its body starts: until
the call ends all frames that were there then stay as they are; the names that the body uses are
found in the frame of the call, but for mere channels; and if one of those names is undefined
somewhere, that is in another call. -/
theorem call_frame_fixed {a : Session} (ha : a.Reachable) {level : Nat} {f : Function}
    {arguments : List Value} {caller scope : Scope} {position : Position} {s s₀ : State}
    (hcall : a.Visits ⟨level + 1, .call f arguments caller position, s⟩)
    (hliteral : ¬ f.IsNative) (hcount : arguments.length = f.arity)
    (henter : enter f arguments caller.chain position s = .ok scope s₀) :
    ∃ analysis, f.MadeFrom analysis ∧
      ∀ m, Moment.Within ⟨level, .code f.body scope, s₀⟩ m →
        (∀ s', m.At s' → ∀ frame < s₀.store.frames.size,
          s'.store.bindings frame = s₀.store.bindings frame) ∧
        ∀ code, m.task = .code code scope →
          (∀ s', m.At s' → ∀ x ∈ code.uses, ¬ analysis.OnlyChannel x →
            ∃ cell, s'.store.ownCell? scope x = some cell ∧
              s'.store.cell? scope x = some cell) ∧
          ∀ x p s', m.result = .error (undefinedAt x p) s' → ¬ analysis.OnlyChannel x →
            ∃ callee : Moment, m.Within callee ∧ callee.result = .error (undefinedAt x p) s' ∧
              ∃ g values caller position, callee.task = .call g values caller position := by
  have hfine := hcall.fine ha
  obtain ⟨hbody, hscope, hframe, hall⟩ := Moment.of_enter hfine hcount henter
  obtain ⟨analysis, hmade⟩ := hfine.ready.1.origin.resolve_left hliteral
  refine ⟨analysis, hmade, fun m hm => ⟨fun s' hs' frame hlt => ?_, fun code htask => ?_⟩⟩
  · exact Moment.bindings_of_within hbody hscope hm hs' hlt
  -- All code done in the scope of the call belongs to the body.
  have hfound : ∀ {m : Moment}, Moment.Within ⟨level, .code f.body scope, s₀⟩ m →
      ∀ {code}, m.task = .code code scope → ∀ {s'}, m.At s' →
        ∀ x ∈ code.uses, ¬ analysis.OnlyChannel x →
          ∃ cell, s'.store.ownCell? scope x = some cell ∧ s'.store.cell? scope x = some cell := by
    intro m hm code htask s' hs' x hx hchannel
    have hinside : m.task.Inside
        (fun code => ∀ x ∈ code.uses, ¬ analysis.OnlyChannel x → f.Provides x) scope
        s₀.store.frames.size :=
      hm.inside hbody (Nat.le_refl _) (Or.inl ⟨rfl, hmade.provides⟩)
    rw [htask] at hinside
    rcases hinside with ⟨-, hevery⟩ | hle
    · have hprovides : f.Provides x := Code.Every.self hevery x hx hchannel
      exact Moment.cell?_of_within hbody hscope hframe hm hs' (hall x hprovides)
    · exact absurd hframe (Nat.not_lt.2 hle)
  refine ⟨fun s' hs' x hx hchannel => hfound hm htask hs' x hx hchannel, ?_⟩
  intro x p s' hresult hchannel
  obtain ⟨level', task, s₁⟩ := m
  cases htask
  cases Moment.traced_of_code code (hm.leads hbody).fine hresult with
  | call hwithin hstarts hcallee =>
    exact ⟨_, hwithin.tail hstarts, hcallee, _, _, _, _, rfl⟩
  | own hwithin hresult' hraises =>
    obtain ⟨hseeks, hnone⟩ := hraises.wanted x rfl
    obtain ⟨cell, -, hcell⟩ :=
      hfound (hm.trans hwithin) rfl (.inr (.inr ⟨_, hresult'⟩)) x hseeks.mem_uses hchannel
    exact absurd (hcell.symm.trans hnone) (Option.some_ne_none cell)

/-- A local of the function that the call runs is bound in the frame of the call when its body
starts. -/
theorem call_frame_fixed_of_local :
    ∃ level f arguments caller position s scope s₀,
      (Session.start 0).Visits ⟨level + 1, .call f arguments caller position, s⟩ ∧
      ¬ f.IsNative ∧ arguments.length = f.arity ∧
      enter f arguments caller.chain position s = .ok scope s₀ ∧
      ∃ cell, s₀.store.ownCell? scope "b" = some cell ∧ s₀.store.cell? scope "b" = some cell := by
  have hcall : ∃ level f arguments caller position s scope s₀ value place,
      (Session.start 0).Visits ⟨level + 1, .call f arguments caller position, s⟩ ∧
      f.id = 2 ∧ f.channels = [] ∧ f.body = .assign ["b"] value place ∧
      arguments.length = f.arity ∧ enter f arguments caller.chain position s = .ok scope s₀ :=
    ⟨3, _, _, _, _, _, _, _, _, _,
      ⟨.plain, "f := func(a) { b := a }\nf(1)", _, _, 4, rfl,
        .tail (.tail .refl (.sequence ⟨rfl, rfl⟩)) (.apply ⟨rfl, rfl⟩ ⟨rfl, rfl⟩)⟩,
      rfl, rfl, rfl, rfl, rfl⟩
  obtain ⟨level, f, arguments, caller, position, s, scope, s₀, value, place, hvisits, hid,
    hchannels, hbody, hcount, henter⟩ := hcall
  have hliteral : ¬ f.IsNative := by
    rintro (rfl | rfl) <;> cases hid
  refine ⟨level, f, arguments, caller, position, s, scope, s₀, hvisits, hliteral, hcount, henter,
    ?_⟩
  obtain ⟨analysis, hmade, hall⟩ := call_frame_fixed (.start 0) hvisits hliteral hcount henter
  obtain ⟨-, hcode⟩ := hall _ .refl
  refine (hcode f.body rfl).1 s₀ (Or.inl rfl) "b" (hbody ▸ List.mem_cons_self) fun hchannel => ?_
  rw [Analysis.OnlyChannel, ← hmade.channels, hchannels] at hchannel
  exact List.not_mem_nil hchannel.1

end Scripting
