import Scripting.Proofs.NestedClosures
import Scripting.Proofs.Unwinding

/-!
# Proofs: a function and the scope of its literal share cells

A function takes along the cells that the scope of its literal finds for names. As long as the scope
is in use it finds the same cells for them: at the top level no name ever gets another cell, and the
frames around a call get no names until the call ends. So what the one side writes the other reads.
-/

namespace Scripting

open Eval

/-! ## Scopes among frames -/

/-- All frames of the scope are there, and that of the top level is one of them. -/
structure Scope.RootedIn (s : Store) (scope : Scope) : Prop where
  global : Scope.global.frame ∈ scope.chain
  exist : ∀ frame ∈ scope.chain, frame < s.frames.size

namespace Scope

variable {s s' : Store} {scope : Scope} {opened : FrameId → Prop} {frame : FrameId}

theorem RootedIn.extends (h : scope.RootedIn s) (he : s.Extends opened s') : scope.RootedIn s' :=
  ⟨h.global, fun frame hframe => Nat.lt_of_lt_of_le (h.exist frame hframe) he.frames⟩

theorem RootedIn.inside (h : scope.RootedIn s) (hframe : frame < s.frames.size) :
    (Scope.inside frame scope).RootedIn s :=
  ⟨List.mem_cons_of_mem _ h.global, List.forall_mem_cons.2 ⟨hframe, h.exist⟩⟩

theorem global_rootedIn (h : s.Sound) : Scope.global.RootedIn s :=
  ⟨List.mem_singleton_self _, fun _ hframe => List.mem_singleton.1 hframe ▸ h.global⟩

/-- A scope whose frames have the same bindings finds the same cells. -/
theorem RootedIn.cell?_eq (h : scope.RootedIn s)
    (hsame : ∀ frame < s.frames.size, s'.bindings frame = s.bindings frame) (x : String) :
    s'.cell? scope x = s.cell? scope x := by
  have hchain : ∀ frames : List FrameId, (∀ frame ∈ frames, frame < s.frames.size) →
      (frames.findSome? fun frame => (s'.bindings frame).get? x) =
        frames.findSome? fun frame => (s.bindings frame).get? x := by
    intro frames hframes
    induction frames with
    | nil => rfl
    | cons frame frames ih =>
      rw [List.findSome?_cons, List.findSome?_cons, hsame frame (hframes frame List.mem_cons_self),
        ih fun frame hframe => hframes frame (List.mem_cons_of_mem _ hframe)]
  exact hchain scope.chain h.exist

/-- What is bound at the top level every scope finds. -/
theorem RootedIn.cell?_isSome (h : scope.RootedIn s) {x : String} {cell : CellId}
    (hcell : s.cell? .global x = some cell) : (s.cell? scope x).isSome := by
  rw [Store.cell?_eq_ownCell? rfl] at hcell
  unfold Store.cell?
  rw [List.isSome_findSome?, List.any_eq_true]
  exact ⟨_, h.global, Option.isSome_iff_exists.2 ⟨cell, hcell⟩⟩

end Scope

namespace Moment

variable {start a b c d m : Moment} {s t : State}

/-- What a call starts is done in a new frame inside the scope of the caller. -/
theorem Starts.outer (h : a.Starts b) (ha : a.Fine) {f : Function} {values : List Value}
    {caller : Scope} {position : Position} (hcall : a.task = .call f values caller position) :
    b.task.scope = .inside b.task.scope.frame a.task.scope ∧
      b.task.scope.frame < b.state.store.frames.size := by
  have hready := (h.leads ha).fine.ready
  cases h with
  | locals | parameters => exact ⟨rfl, hready.1⟩
  | enter hcount henter =>
    obtain ⟨-, -, rfl, hframe, -⟩ := (safe_enter ha.sound ha.ready.1 ha.ready.2 hcount _ _).of_ok henter
    exact ⟨rfl, hframe⟩
  | _ => cases hcall

theorem Starts.rooted (h : a.Starts b) (ha : a.Fine)
    (hrooted : a.task.scope.RootedIn a.state.store) : b.task.scope.RootedIn b.state.store := by
  have hlater := hrooted.extends (h.leads ha).extended
  rcases h.inner with ⟨f, values, caller, position, hcall⟩ | ⟨hscope, -, -⟩
  · obtain ⟨hscope, hframe⟩ := h.outer ha hcall
    rw [hscope]
    exact hlater.inside hframe
  · rw [hscope]
    exact hlater

theorem Within.rooted (h : a.Within b) (ha : a.Fine)
    (hrooted : a.task.scope.RootedIn a.state.store) : b.task.scope.RootedIn b.state.store := by
  induction h with
  | refl => exact hrooted
  | tail hwithin hstep ih => exact hstep.rooted (Within.leads hwithin ha).fine ih

theorem SameCall.scope_eq (h : a.SameCall b) : b.task.scope = a.task.scope := by
  induction h with
  | refl => rfl
  | tail _ hstep ih =>
    rw [← ih]
    rcases hstep with h | h
    · rcases h.starts.inner with ⟨f, values, caller, position, hcall⟩ | ⟨hscope, -, -⟩
      · exact absurd h.evaluates (by rw [Evaluates, hcall]; exact id)
      · exact hscope
    · cases h
      rfl

/-- The state occurs while the task is done. -/
def Meets (start : Moment) (s : State) : Prop :=
  ∃ m, start.Within m ∧ m.At s

theorem Before.meets (h : start.Before s t) (hs : start.Meets s) : start.Meets t := by
  induction h with
  | refl => exact hs
  | tail _ hstep _ =>
    cases hstep with
    | comes ha hstarts => exact ⟨_, ha.tail hstarts, Or.inl rfl⟩
    | ends ha => exact ⟨_, ha, at_ending _⟩

/-- While the body of a function is evaluated, the scope of the call finds the cells that it found
at first. -/
theorem Enters.cell?_eq (h : c.Enters d) (hc : c.Fine)
    (hrooted : c.task.scope.RootedIn c.state.store) (ht : d.Meets t) (x : String) :
    t.store.cell? d.task.scope x = d.state.store.cell? d.task.scope x := by
  have hinner := h.starts.rooted hc hrooted
  obtain ⟨m, hm, ht⟩ := ht
  cases h with
  | body hcount henter =>
    obtain ⟨hbody, hscope, -, -⟩ := of_enter hc hcount henter
    exact hinner.cell?_eq (fun frame hframe => bindings_of_within hbody hscope hm ht hframe) x

/-- No step of the time within a task gives a name another cell. -/
theorem Follows.extends (h : start.Follows s t) (hstart : start.Fine) :
    s.store.Extends (fun _ => True) t.store := by
  cases h with
  | comes ha hstep =>
    exact (hstep.leads (ha.leads hstart).fine).extended.mono fun _ _ => trivial
  | ends ha =>
    obtain ⟨-, he⟩ := (ha.leads hstart).fine.leads.at (at_ending _)
    exact he.mono fun _ _ => trivial

end Moment

namespace Session

variable {s t : State} {x : String} {cell : CellId}

/-- The step lemma of time: no step gives a name another cell. -/
theorem Follows.extends (h : Follows s t) : s.store.Extends (fun _ => True) t.store :=
  h.of_moments (Store.Extends.refl _) fun hstart hs => hs.extends hstart

/-- The run lemma of time. -/
theorem Later.extends (h : Later s t) : s.store.Extends (fun _ => True) t.store := by
  induction h with
  | refl => exact .refl _ _
  | tail _ hstep ih => exact ih.trans hstep.extends

/-- At the top level a name keeps its cell forever. -/
theorem Later.global_cell? (h : Later s t) (hcell : s.store.cell? .global x = some cell) :
    t.store.cell? .global x = some cell := by
  rw [Store.cell?_eq_ownCell? rfl] at hcell ⊢
  exact h.extends.kept hcell

end Session

/-! ## Sharing -/

/-- Two scopes find the same cell for a name, and each reads what is written through the other. -/
structure Store.Share (s : Store) (x : String) (cell : CellId) (p q : Scope) : Prop where
  left : s.cell? p x = some cell
  right : s.cell? q x = some cell
  fromLeft : ∀ v, s.contains p x = true → (s.put p x v).value? q x = some v
  fromRight : ∀ v, s.contains q x = true → (s.put q x v).value? p x = some v

namespace Store

variable {s : Store} {x : String} {cell : CellId} {p q : Scope}

theorem value?_put (hp : s.cell? p x = some cell) (hq : s.cell? q x = some cell)
    (hcell : cell < s.cells.size) (hown : s.contains p x = true) (v : Value) :
    (s.put p x v).value? q x = some v := by
  obtain ⟨own, hown⟩ := Option.isSome_iff_exists.1 hown
  cases (cell?_of_ownCell? hown).symm.trans hp
  have hsame : (s.write cell v).cell? q x = s.cell? q x := rfl
  rw [put_of_some hown, value?, hsame, hq, Option.map_some, read_write s hcell, if_pos rfl]

theorem share_of_cell? (hp : s.cell? p x = some cell) (hq : s.cell? q x = some cell)
    (hcell : cell < s.cells.size) : s.Share x cell p q :=
  ⟨hp, hq, fun v hown => value?_put hp hq hcell hown v, fun v hown => value?_put hq hp hcell hown v⟩

end Store

namespace Moment

/-- The scope of the moment is in use at `s` and still at `t`: for ever if it is that of the top
level, and until the call ends if it is that of a call. -/
inductive InUse (start m : Moment) (s t : State) : Prop
  | session (h : start.SameCall m) (hlater : Session.Later s t)
  | call {c d : Moment} (hc : start.Within c) (henters : c.Enters d) (h : d.SameCall m)
    (hbefore : d.Before s t)

variable {start m : Moment} {s t : State}

/-- A scope is in use when something is evaluated in it. -/
theorem Within.inUse (h : start.Within m) (hm : m.Evaluates) (s : State) : start.InUse m s s := by
  rcases h.sameCall_or hm with hsame | ⟨c, d, hc, henters, hsame⟩
  · exact .session hsame .refl
  · exact .call hc henters hsame .refl

/-- What happens within a part of a task happens within the task. -/
theorem Before.of_within (hd : start.Within m) (h : m.Before s t) : start.Before s t :=
  Relation.ReflTransGen.mono (fun _ _ hstep => match hstep with
    | .comes ha h => .comes (hd.trans ha) h
    | .ends ha => .ends (hd.trans ha)) s t h

end Moment

/-- What a function took along is found in the scope where it was made. -/
theorem FunctionLiteral.found_of_captured {l : FunctionLiteral} {level : Nat} {scope : Scope}
    {s s₁ : State} {f : Function} {x : String} {cell : CellId} (hs : s.store.Distinct)
    (hf : l.code.run (level + 1) scope s = .ok [.function f] s₁)
    (hx : f.captured.get? x = some cell) :
    s₁.store.cell? scope x = some cell ∧ cell < s₁.store.cells.size := by
  obtain ⟨-, hclosure, rfl⟩ := of_run hf
  cases hclosure
  rw [get?_captured] at hx
  split at hx
  · exact ⟨hx, hs.cells (Store.binds_of_cell? hx)⟩
  · cases hx

section

variable {a b : Session} {display : Display} {source : String} {code : Code} {level : Nat}
  {m : Moment} {s t : State} {x : String} {cell : CellId}

theorem Moment.InUse.later (ha : a.Reachable)
    (hprepare : Session.prepare display source a = .ok code b)
    (h : Moment.InUse ⟨level, .code code .global, b.state⟩ m s t) : Session.Later s t := by
  cases h with
  | session _ hlater => exact hlater
  | call hc henters _ hbefore =>
    exact Session.later_of_before ha hprepare (hbefore.of_within (hc.tail henters.starts))

/-- As long as a scope is in use, it finds the cells that it found before. -/
theorem Moment.InUse.cell? (ha : a.Reachable)
    (hprepare : Session.prepare display source a = .ok code b) (hs : m.At s)
    (h : Moment.InUse ⟨level, .code code .global, b.state⟩ m s t)
    (hcell : s.store.cell? m.task.scope x = some cell) :
    t.store.cell? m.task.scope x = some cell := by
  have hfine : Moment.Fine ⟨level, .code code .global, b.state⟩ :=
    Session.fine_of_prepare ha.sound hprepare
  cases h with
  | session hsame hlater =>
    rw [hsame.scope_eq] at hcell ⊢
    exact hlater.global_cell? hcell
  | @call c d hc henters hsame hbefore =>
    have hrooted := hc.rooted hfine (Scope.global_rootedIn hfine.sound)
    have hmeets : d.Meets s := ⟨m, hsame.within, hs⟩
    have hkept : ∀ {t}, d.Meets t →
        t.store.cell? d.task.scope x = d.state.store.cell? d.task.scope x :=
      fun ht => henters.cell?_eq (hc.leads hfine).fine hrooted ht x
    rw [hsame.scope_eq] at hcell ⊢
    rw [hkept (hbefore.meets hmeets), ← hkept hmeets]
    exact hcell

/-- The scope of a call of a function finds the cells that the function took along. -/
theorem Moment.Enters.cell?_captured {f : Function} {analysis : Analysis} {call body : Moment}
    (henters : call.Enters body) (hcall : call.Fine)
    (hcallee : ∃ values caller position, call.task = .call f values caller position)
    (hmade : f.MadeFrom analysis) (hx : f.captured.get? x = some cell) (ht : body.Meets t) :
    t.store.cell? body.task.scope x = some cell := by
  obtain ⟨m, hm, ht⟩ := ht
  obtain ⟨values, caller, position, htask⟩ := hcallee
  cases henters with
  | body hcount henter =>
    cases htask
    exact Function.cell?_of_within hcall hmade hcount henter hx hm ht

end

/-- A function made in some scope and that scope find the same cell for each name that the function
took along, for as long as the scope is in use; and while a call of the function goes on, each of the
two reads what is written through the other. At the top level no name is ever unbound or gets another
cell, in whatever runs follow. -/
theorem captured_cells_shared :
    (∀ (a b : Session) (display : Display) (source : String) (code : Code) (level level' : Nat)
      (l : FunctionLiteral) (scope : Scope) (s s₁ : State) (f : Function) (x : String)
      (cell : CellId),
      a.Reachable → Session.prepare display source a = .ok code b →
      Moment.Within ⟨level, .code code .global, b.state⟩ ⟨level', .code l.code scope, s⟩ →
      l.code.run (level' + 1) scope s = .ok [.function f] s₁ → f.captured.get? x = some cell →
        Moment.InUse ⟨level, .code code .global, b.state⟩ ⟨level', .code l.code scope, s⟩ s₁ s₁ ∧
        ∀ t, Moment.InUse ⟨level, .code code .global, b.state⟩ ⟨level', .code l.code scope, s⟩
            s₁ t →
          t.store.cell? scope x = some cell ∧
          ∀ (a' : Session) (call body : Moment), a'.Reachable → a'.Visits call →
            (∃ values caller position, call.task = .call f values caller position) →
            call.Enters body → body.Before body.state t →
              t.store.Share x cell scope body.task.scope) ∧
    ∀ (s t : State) (x : String) (cell : CellId), Session.Later s t →
      s.store.cell? .global x = some cell → t.store.cell? .global x = some cell := by
  refine ⟨?_, fun s t x cell hlater hcell => hlater.global_cell? hcell⟩
  intro a b display source code level level' l scope s s₁ f x cell ha hprepare hm hf hx
  have hfine := (hm.leads (Session.fine_of_prepare ha.sound hprepare)).fine
  have hs₁ : Moment.At ⟨level', .code l.code scope, s⟩ s₁ := .inr (.inl ⟨_, hf⟩)
  obtain ⟨hfound, hsize⟩ := FunctionLiteral.found_of_captured hfine.sound.toDistinct hf hx
  obtain ⟨analysis, hmakes⟩ := FunctionLiteral.makes_of_run hfine.ready.placed.self hf
  refine ⟨hm.inUse trivial s₁, fun t ht => ?_⟩
  have hcell : t.store.cell? scope x = some cell := ht.cell? ha hprepare hs₁ hfound
  refine ⟨hcell, fun a' call body ha' hvisits hcallee henters hbefore => ?_⟩
  have hcalled : t.store.cell? body.task.scope x = some cell :=
    henters.cell?_captured (hvisits.fine ha') hcallee hmakes.madeFrom hx
      (hbefore.meets ⟨body, .refl, .inl rfl⟩)
  exact Store.share_of_cell? hcell hcalled
    (Nat.lt_of_lt_of_le hsize (ht.later ha hprepare).extends.cells)

/-- The variable is written at the top level and read in the function. -/
theorem captured_cells_shared_global :
    ∃ (f : Function) (s₁ t : State) (inner : Scope), inner ≠ .global ∧
      f.captured.get? "x" = some 2 ∧ Session.Later s₁ t ∧ t.store.Share "x" 2 .global inner ∧
      t.store.contains .global "x" = true ∧
      ∀ v, (t.store.put .global "x" v).value? inner "x" = some v := by
  have hrun : ∃ (code : Code) (b : Session) (l : FunctionLiteral) (s s₁ : State) (f : Function)
      (call body : Moment),
      Session.prepare .plain "x := 1\nf := func() \x7b return x \x7d\nf()" (.start 0) =
        .ok code b ∧
      Moment.SameCall ⟨3, .code code .global, b.state⟩ ⟨3, .code l.code .global, s⟩ ∧
      l.code.run 4 .global s = .ok [.function f] s₁ ∧ f.captured.get? "x" = some 2 ∧
      Moment.Within ⟨3, .code code .global, b.state⟩ call ∧
      (∃ values caller position, call.task = .call f values caller position) ∧
      call.Enters body ∧ Moment.Before ⟨3, .code code .global, b.state⟩ s₁ body.state ∧
      body.task.scope.frame = 1 ∧ body.state.store.contains .global "x" = true :=
    ⟨_, _, ⟨_, _, _, _, _, _, _⟩, _, _, _, _, _, rfl,
      .tail (.tail (.tail .refl (.inl (.part (.sequence ⟨rfl, rfl⟩)))) (.inl (.part (.first rfl))))
        (.inl (.part (.first rfl))),
      rfl, rfl,
      .tail (.tail (.tail .refl (.sequence ⟨rfl, rfl⟩)) (.sequence ⟨rfl, rfl⟩))
        (.apply ⟨rfl, rfl⟩ ⟨rfl, rfl⟩),
      ⟨_, _, _, rfl⟩, .body rfl rfl,
      -- From the literal to the write of the function, its end, the call and the body.
      .tail (.tail (.tail .refl
        (.ends (.tail (.tail (.tail .refl (.sequence ⟨rfl, rfl⟩)) (.first rfl))
          (.assign ⟨rfl, rfl⟩ rfl rfl))))
        (.comes (.tail (.tail .refl (.sequence ⟨rfl, rfl⟩)) (.sequence ⟨rfl, rfl⟩))
          (.apply ⟨rfl, rfl⟩ ⟨rfl, rfl⟩)))
        (.comes (.tail (.tail (.tail .refl (.sequence ⟨rfl, rfl⟩)) (.sequence ⟨rfl, rfl⟩))
          (.apply ⟨rfl, rfl⟩ ⟨rfl, rfl⟩)) (.enter rfl rfl)),
      rfl, rfl⟩
  obtain ⟨code, b, l, s, s₁, f, call, body, hprepare, hsame, hf, hx, hcall, hcallee, henters,
    hbefore, hframe, hcontains⟩ := hrun
  have hlater := Session.later_of_before (.start 0) hprepare hbefore
  obtain ⟨hshared, -⟩ := captured_cells_shared
  obtain ⟨-, hinUse⟩ := hshared _ _ _ _ _ _ _ _ _ _ _ _ _ _ (.start 0) hprepare hsame.within hf hx
  obtain ⟨-, hcalls⟩ := hinUse _ (.session hsame hlater)
  have hshare := hcalls _ _ _ (.start 0) ⟨_, _, _, _, _, hprepare, hcall⟩ hcallee henters .refl
  refine ⟨f, s₁, body.state, body.task.scope, ?_, hx, hlater, hshare, hcontains,
    fun v => hshare.fromLeft v hcontains⟩
  intro hglobal
  rw [hglobal] at hframe
  cases hframe

end Scripting
