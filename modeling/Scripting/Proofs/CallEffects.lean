import Scripting.Proofs.CallFrames
import Scripting.Proofs.Seeding
import Scripting.Proofs.Sources

/-!
# Proofs: calls leave variables alone

Where nothing is declared to belong outside, a call writes only to its parameters and locals, and
they have cells that did not exist when it started. So no cell from before the call changes, and a
global changes only where top-level code assigns it.
-/

namespace Scripting

open Eval

/-! ## Functions that declare nothing to belong outside -/

namespace Function

variable {f : Function} {x : String}

/-- What a call writes when it starts is not taken along. -/
theorem From.not_captured (h : f.From (Node.Each Node.NoExtern))
    (hx : x ∈ f.locals ∨ x ∈ f.parameters) : f.captured.get? x = none := by
  rcases h with (rfl | rfl) | ⟨a, hgoverns, hmade⟩
  · exact NameMap.get?_empty x
  · exact NameMap.get?_empty x
  · rcases hx with hx | hx
    · exact hmade.not_captured hx
    · rw [Option.eq_none_iff_forall_ne_some]
      exact fun cell hcell => hgoverns.not_mem_externs (hmade.mem_externs hx hcell)

theorem From.targets (h : f.From (Node.Each Node.NoExtern)) :
    f.body.Every fun part => ∀ x ∈ part.targets, x ∈ f.locals := by
  rcases h with (rfl | rfl) | ⟨a, hgoverns, hmade⟩
  · exact ⟨nofun, trivial⟩
  · exact ⟨nofun, trivial⟩
  · obtain ⟨m, ha, hnoted⟩ := hgoverns.governs.noted
    refine hnoted.mono fun part hpart x hx => ?_
    rw [hmade.locals, ha]
    refine Names.mem_toList.2 (Names.mem_sdiff.2 ⟨hpart.targets x hx, fun hextern => ?_⟩)
    exact hgoverns.not_mem_externs (x := x) (ha ▸ hextern)

end Function

/-! ## Where writes may go -/

namespace Moment

/-- The moment comes to top-level code that assigns the name. -/
def Assigns (m : Moment) (x : String) : Prop :=
  ∃ m' code, m.Within m' ∧ m'.task = .code code .global ∧ x ∈ code.targets

/-- The store changes as it may while the task of `first` is done: what is new in the frame of the
top level is assigned there, and so is what is in the cells that there were at first. -/
structure Changes (first : Moment) (s s' : Store) : Prop where
  kept : ∀ {x c}, s.ownCell? .global x = some c → s'.ownCell? .global x = some c
  bound : ∀ {x c}, s.ownCell? .global x = none → s'.ownCell? .global x = some c → first.Assigns x
  read : ∀ {c}, c < first.state.store.cells.size → s'.read c ≠ s.read c →
    ∃ x, s'.ownCell? .global x = some c ∧ first.Assigns x

/-- Where a task writes: at the top level to what is assigned there, and in the frame of a call to
cells that there were not at first. -/
def Confined (first m : Moment) : Prop :=
  (∃ f values caller position, m.task = .call f values caller position) ∨
  m.task.scope = .global ∧ (∀ x ∈ m.task.written, first.Assigns x) ∨
  m.task.scope.frame ≠ 0 ∧
    (m.task.Every fun part => ∀ x ∈ part.targets, ∃ c,
      m.state.store.ownCell? m.task.scope x = some c ∧ first.state.store.cells.size ≤ c) ∧
    ∀ x ∈ m.task.written, ∀ c, m.state.store.ownCell? m.task.scope x = some c →
      first.state.store.cells.size ≤ c

variable {first a b : Moment} {s s' s'' : Store}

theorem Changes.refl (first : Moment) (s : Store) : first.Changes s s :=
  ⟨fun h => h, fun hnone hsome => absurd (hnone.symm.trans hsome) nofun, fun _ h => absurd rfl h⟩

theorem Changes.trans (h : first.Changes s s') (h' : first.Changes s' s'') :
    first.Changes s s'' := by
  refine ⟨fun hx => h'.kept (h.kept hx), fun {x c} hnone hsome => ?_, fun {c} hc hread => ?_⟩
  · cases hmiddle : s'.ownCell? .global x with
    | none => exact h'.bound hmiddle hsome
    | some c' => exact h.bound hnone hmiddle
  · by_cases hmiddle : s'.read c = s.read c
    · exact h'.read hc (hmiddle ▸ hread)
    · obtain ⟨x, hx, hassigns⟩ := h.read hc hmiddle
      exact ⟨x, h'.kept hx, hassigns⟩

theorem Starts.fresh (hstep : a.Starts b) (hfine : a.Fine) (hscope : b.task.scope = a.task.scope)
    {limit : Nat} (hlimit : limit ≤ a.state.store.cells.size) {x : String}
    (hx : x ∈ a.task.written)
    (h : ∀ x ∈ a.task.written, ∀ c, a.state.store.ownCell? a.task.scope x = some c → limit ≤ c)
    {c : CellId} (hown : b.state.store.ownCell? b.task.scope x = some c) : limit ≤ c := by
  cases hstep with
  | @write _ scope position y v ws s s₁ hwrite =>
    obtain ⟨-, rfl⟩ := ok_of_assignName hwrite
    have hput : (s.store.put scope y v).ownCell? scope x = some c := hown
    rw [Store.ownCell?_put hfine.ready.1] at hput
    split at hput
    · cases hbefore : s.store.ownCell? scope y with
      | none =>
        rw [hbefore] at hput
        cases hput
        exact hlimit
      | some c' =>
        rw [hbefore] at hput
        cases hput
        exact h y List.mem_cons_self _ hbefore
    · exact h x hx c hput
  | _ => exact absurd hx List.not_mem_nil

/-- The parameters, the locals and all else that a call writes have new cells. -/
theorem confined_of_call (hgood : (Policy.origin (Node.Each Node.NoExtern)).Good a)
    (hlimit : first.state.store.cells.size ≤ a.state.store.cells.size) {f : Function}
    {values : List Value} {caller : Scope} {position : Position}
    (hcall : a.task = .call f values caller position) (hstep : a.Starts b) :
    first.Confined b := by
  have hframe : b.task.scope.frame ≠ 0 := by
    have hnew := hstep.new_frame hgood.fine hcall
    exact Nat.ne_of_gt (Nat.lt_of_lt_of_le hgood.fine.sound.global hnew)
  refine Or.inr (Or.inr ⟨hframe, ?_⟩)
  have hs := hgood.fine.sound
  cases hstep with
  | @locals _ f _ caller _ s _ _ _ hnew =>
    have hfrom : f.From (Node.Each Node.NoExtern) := hgood.accepts.1
    cases hnew
    refine ⟨trivial, fun x hx c hown => ?_⟩
    -- The frame binds only what was taken along, and no local is.
    have hlocal : x ∈ f.locals := by
      obtain ⟨w, hw, rfl⟩ := List.mem_map.1 hx
      obtain ⟨y, hy, rfl⟩ := List.mem_map.1 hw
      exact hy
    have hnone : (s.store.newFrame f.captured).2.ownCell? ⟨s.store.frames.size, caller.chain⟩ x =
        none := by
      rw [Store.ownCell?, Store.bindings_newFrame, if_pos rfl]
      exact hfrom.not_captured (Or.inl hlocal)
    cases hnone.symm.trans hown
  | @parameters _ f values caller _ s _ _ s₂ _ hnew hlocals =>
    have hfrom : f.From (Node.Each Node.NoExtern) := hgood.accepts.1
    cases hnew
    refine ⟨trivial, fun x hx c hown => ?_⟩
    have hparameter : x ∈ f.parameters := by
      obtain ⟨w, hw, rfl⟩ := List.mem_map.1 hx
      exact (List.of_mem_zip hw).1
    have hprepared : f.Prepared s.store ⟨s.store.frames.size, caller.chain⟩ s₂.store :=
      Function.prepared_of_setAll hs.toDistinct hgood.fine.ready.1.captured
        (fun x hx => hfrom.not_captured (Or.inl hx)) (setAll_of_assignNames hlocals)
    exact Nat.le_trans hlimit (hprepared.fresh (hfrom.not_captured (Or.inr hparameter)) hown)
  | @enter _ f values caller _ s scope s₁ hcount henter =>
    have hfrom : f.From (Node.Each Node.NoExtern) := hgood.accepts.1
    obtain ⟨-, -, -, -, hall⟩ :=
      (safe_enter hs hgood.fine.ready.1 hgood.fine.ready.2 hcount _ _).of_ok henter
    refine ⟨hfrom.targets.mono fun part hpart x hx => ?_,
      fun x hx => absurd hx List.not_mem_nil⟩
    have hlocal := hpart x hx
    obtain ⟨c, hown⟩ := Option.isSome_iff_exists.1 (hall x (Or.inr (Or.inl hlocal)))
    refine ⟨c, hown, Nat.le_trans hlimit ?_⟩
    rcases hfrom with (rfl | rfl) | ⟨analysis, -, hmade⟩
    · cases hlocal
    · cases hlocal
    · obtain ⟨store, hprepared, hset⟩ :=
        prepared_of_enter hs.toDistinct hgood.fine.ready.1.captured hmade henter
      exact hprepared.fresh_of_setAll hset (hmade.not_captured hlocal) hown
  | _ => cases hcall

/-- The step lemma: what starts next is confined as well. -/
theorem Confined.step (h : first.Confined a)
    (hgood : (Policy.origin (Node.Each Node.NoExtern)).Good a) (hwithin : first.Within a)
    (hlimit : first.state.store.cells.size ≤ a.state.store.cells.size) (hstep : a.Starts b) :
    first.Confined b := by
  rcases hstep.inner with ⟨f, values, caller, position, hcall⟩ | ⟨hscope, hevery, hwritten⟩
  · exact confined_of_call hgood hlimit hcall hstep
  rcases h with
    ⟨f, values, caller, position, hcall⟩ | ⟨hglobal, hnames⟩ | ⟨hframe, htargets, hnames⟩
  · exact confined_of_call hgood hlimit hcall hstep
  · refine Or.inr (Or.inl ⟨hscope.trans hglobal, fun x hx => ?_⟩)
    rcases hwritten x hx with hx | ⟨code, htask, htarget⟩
    · exact hnames x hx
    · exact ⟨a, code, hwithin, hglobal ▸ htask, htarget⟩
  · have he := (hstep.leads hgood.fine).extended
    refine Or.inr (Or.inr ⟨hscope ▸ hframe, ?_, fun x hx c hown => ?_⟩)
    · rw [hscope]
      refine hevery _ (htargets.mono fun part hpart x hx => ?_)
      obtain ⟨c, hown, hle⟩ := hpart x hx
      exact ⟨c, he.kept hown, hle⟩
    · rcases hwritten x hx with hx | ⟨code, htask, htarget⟩
      · exact hstep.fresh hgood.fine hscope hlimit hx hnames hown
      · rw [htask] at htargets
        obtain ⟨c', hown', hle⟩ := Code.Every.self htargets x htarget
        have hkept : b.state.store.ownCell? b.task.scope x = some c' := by
          rw [hscope]
          exact he.kept hown'
        cases hown.symm.trans hkept
        exact hle

theorem Confined.changes {level : Nat} {scope : Scope} {position : Position} {x : String}
    {v : Value} {ws : List (String × Value)} {s : State}
    (h : first.Confined ⟨level, .writes scope position ((x, v) :: ws), s⟩)
    (hs : s.store.Sound) (hscope : scope.frame < s.store.frames.size)
    (hlimit : first.state.store.cells.size ≤ s.store.cells.size) :
    first.Changes s.store (s.store.put scope x v) := by
  have he : s.store.Extends (fun frame => frame = scope.frame) (s.store.put scope x v) :=
    Store.extends_put hscope v fun _ => rfl
  have hput := Store.ownCell?_put hscope x v
  rcases h with ⟨f, values, caller, position, hcall⟩ | ⟨hglobal, hnames⟩ | ⟨hframe, -, hnames⟩
  · cases hcall
  · have hglobal : scope = .global := hglobal
    subst hglobal
    have hassigns : first.Assigns x := hnames x List.mem_cons_self
    refine ⟨fun hx => he.kept hx, fun {y c} hnone hsome => ?_, fun {c} hc hread => ?_⟩
    · rw [hput] at hsome
      split at hsome
      · next e => exact e ▸ hassigns
      · cases hnone.symm.trans hsome
    · by_contra hother
      refine hread (Store.read_put_of_ne hs.toDistinct hscope fun hown => hother ?_)
      exact ⟨x, hown, hassigns⟩
  · refine ⟨fun hx => he.kept hx, fun {y c} hnone hsome => ?_, fun {c} hc hread => ?_⟩
    · have hsame : (s.store.put scope x v).bindings Scope.global.frame =
          s.store.bindings Scope.global.frame := he.closed hs.global (Ne.symm hframe)
      unfold Store.ownCell? at hnone hsome
      rw [hsame, hnone] at hsome
      cases hsome
    · refine absurd (Store.read_put_of_ne hs.toDistinct hscope fun hown => ?_) hread
      rw [hput, if_pos rfl] at hown
      cases hbefore : s.store.ownCell? scope x with
      | none =>
        rw [hbefore] at hown
        cases hown
        exact absurd hc (Nat.not_lt.2 hlimit)
      | some c' =>
        rw [hbefore] at hown
        cases hown
        exact absurd hc (Nat.not_lt.2 (hnames x List.mem_cons_self _ hbefore))

theorem changes_newFrame {first : Moment} {s : Store} (hs : s.Sound)
    (bindings : NameMap CellId) : first.Changes s (s.newFrame bindings).2 := by
  have hsame : ∀ x, (s.newFrame bindings).2.ownCell? .global x = s.ownCell? .global x := by
    intro x
    have he := Store.extends_newFrame (fun _ => False) s bindings
    have hframe : (s.newFrame bindings).2.bindings Scope.global.frame =
        s.bindings Scope.global.frame := he.closed hs.global id
    unfold Store.ownCell?
    rw [hframe]
  refine ⟨fun {x c} hx => (hsame x).trans hx, fun {x c} hnone hsome => ?_, fun _ hread => ?_⟩
  · rw [hsame, hnone] at hsome
    cases hsome
  · exact absurd rfl hread

end Moment

/-- From a moment on, all writes are confined, if nothing is declared to belong outside. -/
def Policy.confined {first : Moment}
    (hfirst : (Policy.origin (Node.Each Node.NoExtern)).Good first) : Policy where
  allows := Function.From (Node.Each Node.NoExtern)
  holds m := first.Within m ∧ first.Confined m
  may := first.Changes
  refl := Moment.Changes.refl first
  trans := Moment.Changes.trans
  step {a b} h hstep := by
    obtain ⟨hwithin, hconfined⟩ := h.holds
    have hlimit := (hwithin.leads hfirst.fine).extended.cells
    refine ⟨.tail hwithin hstep, hconfined.step ?_ hwithin hlimit hstep⟩
    exact (Policy.origin _).within hfirst hwithin
  made h hfound := (Policy.origin _).made ((Policy.origin _).within hfirst h.holds.1) hfound
  write h hcheck := by
    obtain ⟨hwithin, hconfined⟩ := h.holds
    have hlimit := (hwithin.leads hfirst.fine).extended.cells
    exact hconfined.changes h.fine.sound h.fine.ready.1 hlimit
  frame h := Moment.changes_newFrame h.fine.sound _

namespace Moment

variable {m : Moment} {s' : State}

theorem changes_of_at (hm : (Policy.origin (Node.Each Node.NoExtern)).Good m)
    (hconfined : m.Confined m) (hs' : m.At s') : m.Changes m.state.store s'.store := by
  have hgood : (Policy.confined hm).Good m :=
    ⟨hm.fine, hm.clean, hm.accepts, .refl, hconfined⟩
  have hkeeps := (Policy.confined hm).keeps hgood
  rcases hs' with rfl | ⟨values, hresult⟩ | ⟨e, hresult⟩
  · exact .refl _ _
  · exact (hkeeps.of_ok hresult).1
  · exact (hkeeps.of_error hresult).1

theorem Changes.assigns_of_value? {first : Moment} {s : Store} {x : String}
    (h : first.Changes first.state.store s) (hfirst : first.state.store.Sound) (hs : s.Sound)
    (hvalue : s.value? .global x ≠ first.state.store.value? .global x) : first.Assigns x := by
  rw [Store.value?, Store.value?, Store.cell?_eq_ownCell? rfl,
    Store.cell?_eq_ownCell? rfl] at hvalue
  cases hbefore : first.state.store.ownCell? .global x with
  | none =>
    cases hafter : s.ownCell? .global x with
    | none =>
      rw [hbefore, hafter] at hvalue
      exact absurd rfl hvalue
    | some cell => exact h.bound hbefore hafter
  | some cell =>
    have hafter : s.ownCell? .global x = some cell := h.kept hbefore
    have hread : s.read cell ≠ first.state.store.read cell := by
      intro e
      rw [hbefore, hafter, Option.map_some, Option.map_some, e] at hvalue
      exact hvalue rfl
    obtain ⟨y, hy, hassigns⟩ := h.read (hfirst.cells ⟨_, hbefore⟩) hread
    have hxy : x = y := hs.named ⟨_, hafter⟩ ⟨_, hy⟩
    exact hxy ▸ hassigns

/-- A call comes to no code of the top level. -/
theorem not_assigns_of_call (hm : m.Fine) {f : Function} {values : List Value} {caller : Scope}
    {position : Position} (hcall : m.task = .call f values caller position) (x : String) :
    ¬ m.Assigns x := by
  rintro ⟨m', code, hwithin, htask, -⟩
  rcases Relation.ReflTransGen.cases_head hwithin with rfl | ⟨b, hstep, hrest⟩
  · cases htask.symm.trans hcall
  · have hwithin' : b.Within m' := hrest
    have hnew : m.state.store.frames.size ≤ b.task.scope.frame := hstep.new_frame hm hcall
    have hinside : m'.task.Inside (fun _ => True) b.task.scope m.state.store.frames.size :=
      hwithin'.inside (hstep.leads hm).fine (hstep.leads hm).extended.frames (Or.inr hnew)
    have hle : m.state.store.frames.size ≤ m'.task.scope.frame := by
      rcases hinside with ⟨hscope, -⟩ | hle
      · exact hscope ▸ hnew
      · exact hle
    rw [htask] at hle
    exact absurd hm.sound.global (Nat.not_lt.2 hle)

end Moment

/-- In a session whose sources declare nothing to belong outside, no cell from before a call is
changed by the call, however it ends; and if a global has another value after some top-level code
than before it, then top-level code that belongs to it assigns the global. -/
theorem calls_keep_cells {a : Session} (ha : a.ReachedBy (Node.Each Node.NoExtern)) {m : Moment}
    (hm : a.VisitsBy (Node.Each Node.NoExtern) m) {s' : State} (hs' : m.At s') :
    (∀ f values caller position, m.task = .call f values caller position →
      ∀ cell < m.state.store.cells.size, s'.store.read cell = m.state.store.read cell) ∧
    ∀ code, m.task = .code code .global →
      ∀ x, s'.store.value? .global x ≠ m.state.store.value? .global x → m.Assigns x := by
  have hgood := hm.good ha
  constructor
  · intro f values caller position hcall cell hcell
    have hconfined : m.Confined m := Or.inl ⟨f, values, caller, position, hcall⟩
    have hchanges := Moment.changes_of_at hgood hconfined hs'
    by_contra hread
    obtain ⟨x, -, hassigns⟩ := hchanges.read hcell hread
    exact Moment.not_assigns_of_call hgood.fine hcall x hassigns
  · intro code htask x hvalue
    have hconfined : m.Confined m := by
      refine Or.inr (Or.inl ⟨?_, ?_⟩)
      · rw [htask]
        rfl
      · rw [htask]
        exact nofun
    have hchanges := Moment.changes_of_at hgood hconfined hs'
    exact hchanges.assigns_of_value? hgood.fine.sound (hgood.fine.leads.at hs').1 hvalue

/-- The function assigns to a name of the top level without declaring it, and its call leaves the
cell of the top level as it was. -/
theorem calls_keep_cells_assigned :
    ∃ m f values caller position values' s',
      (Session.start 0).VisitsBy (Node.Each Node.NoExtern) m ∧
      m.task = .call f values caller position ∧ m.result = .ok values' s' ∧
      m.state.store.value? .global "x" = some (.int 1) ∧ m.state.store.read 2 = .int 1 ∧
      s'.store.read 2 = .int 1 := by
  have hparses : ∃ root, Session.Parses "x := 1\nf := func(y) { x := y }\nf(2)" root ∧
      root.Each Node.NoExtern :=
    ⟨⟨.statements, _, _, [⟨.assign, _, _, [⟨.identifier, _, _, []⟩, ⟨.int, _, _, []⟩]⟩,
      ⟨.assign, _, _, [⟨.identifier, _, _, []⟩, ⟨.funcWord, _, _,
        [⟨.leftParen, _, _, [⟨.identifier, _, _, []⟩]⟩, ⟨.leftBracket, _, _, []⟩,
          ⟨.statements, _, _, [⟨.assign, _, _,
            [⟨.identifier, _, _, []⟩, ⟨.identifier, _, _, []⟩]⟩]⟩]⟩]⟩,
      ⟨.application, _, _, [⟨.identifier, _, _, []⟩, ⟨.int, _, _, []⟩]⟩]⟩, ⟨_, rfl, rfl⟩,
      by simp [Node.each_iff, Node.NoExtern]⟩
  obtain ⟨root, hroot, heach⟩ := hparses
  have hreads := Session.reads_of_parses hroot heach
  have hcall : ∃ m f values caller position values' s',
      (Session.start 0).VisitsBy (Node.Each Node.NoExtern) m ∧
      m.task = .call f values caller position ∧ m.result = .ok values' s' ∧
      m.state.store.value? .global "x" = some (.int 1) ∧ 2 < m.state.store.cells.size ∧
      m.state.store.read 2 = .int 1 :=
    ⟨⟨3, _, _⟩, _, _, _, _, _, _,
      ⟨.plain, _, _, _, 3, hreads, rfl, .tail (.tail (.tail .refl (.sequence ⟨rfl, rfl⟩))
        (.sequence ⟨rfl, rfl⟩)) (.apply ⟨rfl, rfl⟩ ⟨rfl, rfl⟩)⟩,
      rfl, rfl, rfl, by decide, rfl⟩
  obtain ⟨m, f, values, caller, position, values', s', hvisits, htask, hresult, hvalue, hcell,
    hread⟩ := hcall
  obtain ⟨hkept, -⟩ := calls_keep_cells (.start 0) hvisits (Or.inr (Or.inl ⟨values', hresult⟩))
  exact ⟨m, f, values, caller, position, values', s', hvisits, htask, hresult, hvalue, hread,
    (hkept f values caller position htask 2 hcell).trans hread⟩

end Scripting
