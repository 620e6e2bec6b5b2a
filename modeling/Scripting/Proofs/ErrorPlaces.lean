import Mathlib.Order.WellFounded
import Scripting.Proofs.Histories
import Scripting.Proofs.NodePlaces
import Scripting.Proofs.Places

/-!
# Proofs: where errors stand

An error of a run names a place, and a token stands there. If the source is refused, the token is of
that source. If evaluation fails, a construct fails itself, and the token is of the source that the
construct was written in: that of the run, or that of an earlier one, when the construct is in the
body of a function that the session has kept. What the library does itself stands in no source, but
it never fails.
-/

namespace Scripting

open Eval

/-! ## What fails itself -/

/-- How much there is to do, the bodies of calls apart: code is more than its parts, the rounds of a
loop are more than its condition and its body, and a call is more than its writes. -/
noncomputable def Task.weight : Task → Nat × Nat
  | .code c _ => (sizeOf c + 1, 0)
  | .rounds condition body _ _ bound => (sizeOf condition + sizeOf body + 1, bound)
  | .call _ _ _ _ => (1, 0)
  | .writes _ _ ws => (0, ws.length)

namespace Code

variable {code part : Code}

theorem sizeOf_pos (code : Code) : 0 < sizeOf code := by
  cases code <;> simp +arith

theorem sizeOf_lt_of_mem_parts (h : part ∈ code.parts) : sizeOf part < sizeOf code := by
  cases code with
  | literal | name | nothing | «break» | «continue» | function | primitive =>
    exact absurd h List.not_mem_nil
  | sequence | both | binary | logical | loop | apply =>
    simp only [parts, List.mem_cons, List.not_mem_nil, or_false] at h
    rcases h with rfl | rfl <;> simp +arith
  | assign | accumulate | default | unary | «return» =>
    cases List.mem_singleton.1 h
    simp +arith
  | branch =>
    simp only [parts, List.mem_cons, List.not_mem_nil, or_false] at h
    rcases h with rfl | rfl | rfl <;> simp +arith

end Code

namespace Moment

variable {a b m : Moment} {e : RuntimeError} {s : State} {part : Code}

/-- The second moment has less to do than the first. -/
def Less : Moment → Moment → Prop :=
  InvImage (Prod.Lex (· < ·) (Prod.Lex (· < ·) (· < ·))) fun m => (m.level, m.task.weight)

theorem less_of_parts {level : Nat} {code : Code} {scope scope' : Scope} {s s' : State}
    (h : part ∈ code.parts) :
    Less ⟨level, .code part scope', s'⟩ ⟨level, .code code scope, s⟩ :=
  .right _ (.left _ _ (Nat.succ_lt_succ (Code.sizeOf_lt_of_mem_parts h)))

/-- What a task starts is on a lower level, or it has less to do. -/
theorem Starts.less (h : a.Starts b) : Less b a := by
  cases h with
  | first h => exact less_of_parts (Code.mem_parts_of_first? h)
  | sequence | both | binary | logical | yes | arguments =>
    exact less_of_parts (.tail _ (.head _))
  | no => exact less_of_parts (.tail _ (.tail _ (.head _)))
  | default => exact less_of_parts (.head _)
  | assign | accumulate | defaultWrites | locals | parameters =>
    exact .right _ (.left _ _ (Nat.succ_pos _))
  | @loop level condition body =>
    have hloop : sizeOf condition + sizeOf body < sizeOf (Code.loop condition body ‹_›) := by
      simp +arith
    exact .right _ (.left _ _ (Nat.succ_lt_succ hloop))
  | @condition level condition body =>
    exact .right _ (.left _ _ (Nat.succ_lt_succ (Nat.lt_add_of_pos_right body.sizeOf_pos)))
  | @body level condition body =>
    exact .right _ (.left _ _ (Nat.succ_lt_succ (Nat.lt_add_of_pos_left condition.sizeOf_pos)))
  | round | write => exact .right _ (.right _ (Nat.lt_succ_self _))
  | apply => exact .right _ (.left _ _ (Nat.succ_lt_succ (Code.sizeOf_pos _)))
  | enter => exact .left _ _ (Nat.lt_succ_self _)

/-- Every task comes to an end. -/
theorem wellFounded_starts : WellFounded fun b a : Moment => a.Starts b :=
  Subrelation.wf Starts.less (InvImage.wf _ (WellFounded.prod_lex Nat.lt_wfRel.wf
    (WellFounded.prod_lex Nat.lt_wfRel.wf Nat.lt_wfRel.wf)))

/-- The task is to evaluate the construct, which fails with the error although nothing that is
evaluated for it does. -/
structure FailsItself (m : Moment) (part : Code) (e : RuntimeError) (s : State) : Prop where
  task : m.task = .code part m.task.scope
  result : m.result = .error (.error e) s
  inner : ∀ m' part', Relation.TransGen Starts m m' → m'.task = .code part' m'.task.scope →
    ∀ e' s', m'.result ≠ .error e' s'

/-- An error that code ends with is that of a construct which fails itself. -/
theorem failsItself_of_error (m : Moment) : ∀ {part : Code}, m.task = .code part m.task.scope →
    m.result = .error (.error e) s → ∃ m' part', m.Within m' ∧ m'.FailsItself part' e s := by
  induction m using wellFounded_starts.transGen.induction with
  | _ m ih =>
    intro part htask hresult
    by_cases hinner : ∃ m' part' e' s', Relation.TransGen Starts m m' ∧
      m'.task = .code part' m'.task.scope ∧ m'.result = .error e' s'
    · obtain ⟨m', part', e', s', hstarts, htask', hresult'⟩ := hinner
      have hm' : m.Within m' := hstarts.to_reflTransGen
      -- What fails within the task ends it, so it fails with the same error.
      cases (hm'.error hresult').symm.trans hresult
      obtain ⟨m'', part'', hm'', hfails⟩ := ih m' hstarts.swap htask' hresult'
      exact ⟨m'', part'', hm'.trans hm'', hfails⟩
    · refine ⟨m, part, .refl, htask, hresult, fun m' part' hstarts htask' e' s' hresult' => ?_⟩
      exact hinner ⟨m', part', e', s', hstarts, htask', hresult'⟩

/-- The error names the place of the construct that fails itself. -/
theorem FailsItself.raises (h : m.FailsItself part e s) (hm : m.Fine) :
    part.Raises m.task.scope s.store e := by
  obtain ⟨level, task, before⟩ := m
  obtain ⟨htask, hresult, hinner⟩ := h
  dsimp only at htask hinner
  rw [htask] at hm hresult hinner
  obtain ⟨level', part', scope', s₁, hwithin, hfails, hraises⟩ := raised_of_code hm hresult
  rcases Relation.reflTransGen_iff_eq_or_transGen.1 hwithin with hself | hstarts
  · cases hself
    exact hraises
  · exact absurd hfails (hinner _ part' hstarts rfl _ _)

end Moment

/-! ## Code inside code -/

namespace Code

/-- The codes that make up a construct: its parts, and the body of a function literal. -/
def inner : Code → List Code
  | .function _ _ _ _ _ body _ => [body]
  | code => code.parts

/-- The second code stands in the first, be it in the bodies of function literals. -/
inductive Contains : Code → Code → Prop
  | self {code} : Contains code code
  | inner {code between part} (hinner : between ∈ code.inner) (h : Contains between part) :
    Contains code part

variable {P : Code → Prop} {code between part : Code}

theorem mem_inner_of_mem_parts (h : part ∈ code.parts) : part ∈ code.inner := by
  cases code with
  | function => exact absurd h List.not_mem_nil
  | _ => exact h

theorem Contains.trans (h : code.Contains between) (h' : between.Contains part) :
    code.Contains part := by
  induction h with
  | self => exact h'
  | inner hinner _ ih => exact .inner hinner (ih h')

/-- What parts inherit holds of all of them. -/
theorem every_of_parts (hparts : ∀ code, P code → ∀ part ∈ code.parts, P part) (h : P code) :
    code.Every P := by
  induction code with
  | literal | name | nothing | «break» | «continue» | function | primitive => exact ⟨h, trivial⟩
  | sequence _ _ ih₁ ih₂ | both _ _ ih₁ ih₂ | binary _ _ _ _ ih₁ ih₂ | logical _ _ _ _ ih₁ ih₂
  | loop _ _ _ ih₁ ih₂ | apply _ _ _ ih₁ ih₂ =>
    exact ⟨h, ih₁ (hparts _ h _ (.head _)), ih₂ (hparts _ h _ (.tail _ (.head _)))⟩
  | assign _ _ _ ih | accumulate _ _ _ ih | default _ _ _ ih | unary _ _ _ ih | «return» _ ih =>
    exact ⟨h, ih (hparts _ h _ (.head _))⟩
  | branch _ _ _ _ ih₁ ih₂ ih₃ =>
    exact ⟨h, ih₁ (hparts _ h _ (.head _)), ih₂ (hparts _ h _ (.tail _ (.head _))),
      ih₃ (hparts _ h _ (.tail _ (.tail _ (.head _))))⟩

/-- The places that the code names, and those that what stands in it names, satisfy `P`. -/
def StandsIn (P : Position → Prop) (code : Code) : Prop :=
  ∀ part, code.Contains part → ∀ p, part.position? = some p → P p

theorem StandsIn.of_inner {P : Position → Prop} (hself : ∀ p, code.position? = some p → P p)
    (hinner : ∀ part ∈ code.inner, part.StandsIn P) : code.StandsIn P := by
  intro part hpart p hp
  cases hpart with
  | self => exact hself p hp
  | inner hmem hpart => exact hinner _ hmem part hpart p hp

/-- Code stands where the nodes do that it is made from. -/
theorem standsIn_of_compile {P : Position → Prop} {analysis? : Path → Option Analysis}
    (node : Node) : ∀ {path : Path} {inLoop : Bool} {code : Code}, node.StandsIn P →
      node.compile analysis? inLoop path = .ok code → code.StandsIn P := by
  induction node using Node.induct with
  | h kind literal position children ih =>
    intro path inLoop code hnode hcode
    obtain ⟨hposition, hchildren⟩ := Node.each_iff.1 hnode
    have hself : ∀ p, some position = some p → P p := by
      rintro _ ⟨⟩
      exact hposition
    have hnone : ∀ p, (none : Option Position) = some p → P p := nofun
    have hchild : ∀ {inLoop : Bool} {index : Nat} {code : Code},
        Node.ChildTo analysis? inLoop path children index code → code.StandsIn P := by
      rintro inLoop index code ⟨child, hc, hcode⟩
      have hmem := List.mem_of_getElem? hc
      exact ih child hmem (hchildren child hmem) hcode
    have hall : ∀ {codes : List Code},
        (∀ code ∈ codes, ∃ index, Node.ChildTo analysis? inLoop path children index code) →
        ∀ code ∈ codes, code.StandsIn P := by
      intro codes h code hmem
      obtain ⟨index, hcode⟩ := h code hmem
      exact hchild hcode
    have hnothing : Code.nothing.StandsIn P := .of_inner hnone (List.forall_mem_nil _)
    have htwo : ∀ {first rest : Code}, first.StandsIn P → rest.StandsIn P →
        ∀ part ∈ [first, rest], part.StandsIn P :=
      fun hfirst hrest => List.forall_mem_cons.2 ⟨hfirst, List.forall_mem_singleton.2 hrest⟩
    have htuple : ∀ {codes : List Code}, (∀ code ∈ codes, code.StandsIn P) →
        (tuple codes).StandsIn P :=
      of_tuple hnothing fun _ _ hfirst hrest => .of_inner hnone (htwo hfirst hrest)
    cases Node.compiledTo_of_compile hcode with
    | literal | «break» | «continue» => exact .of_inner hnone (List.forall_mem_nil _)
    | declaration => exact hnothing
    | name => exact .of_inner hself (List.forall_mem_nil _)
    | statements h =>
      exact of_statements hnothing
        (fun _ _ hfirst hrest => .of_inner hnone (htwo hfirst hrest)) (hall h)
    | tuple _ h => exact htuple (hall h)
    | assign _ h | default _ h | accumulate _ h | unary _ h =>
      exact .of_inner hself (List.forall_mem_singleton.2 (hchild h))
    | logical _ hleft hright | binary _ hleft hright =>
      exact .of_inner hself (htwo (hchild hleft) (hchild hright))
    | loop hcondition hbody => exact .of_inner hself (htwo (hchild hcondition) (hchild hbody))
    | branches h =>
      exact of_branches position hnothing (fun _ _ _ hcondition hyes hno =>
        .of_inner hself (List.forall_mem_cons.2 ⟨hcondition, htwo hyes hno⟩)) (hall h)
    | returnNothing => exact .of_inner hnone (List.forall_mem_singleton.2 hnothing)
    | «return» h => exact .of_inner hnone (List.forall_mem_singleton.2 (hchild h))
    | function _ h => exact .of_inner hself (List.forall_mem_singleton.2 (hchild h))
    | apply hcallee h => exact .of_inner hself (htwo (hchild hcallee) (htuple (hall h)))

/-! ## Code of sources -/

/-- The code stands in that of a program whose tree satisfies `Q`. -/
def WrittenIn (Q : Node → Prop) (part : Code) : Prop :=
  ∃ root p code, Q root ∧ Program.ofNode root = .ok p ∧ p.compile = .ok code ∧ code.Contains part

/-- The code stands in such a program, or it is of the library. -/
def KnownIn (Q : Node → Prop) (code : Code) : Prop :=
  (∃ p, code = .primitive p) ∨ code.WrittenIn Q

variable {Q : Node → Prop}

theorem WrittenIn.inner (h : code.WrittenIn Q) (hp : part ∈ code.inner) : part.WrittenIn Q := by
  obtain ⟨root, p, whole, hQ, hp', hcode, hcontains⟩ := h
  exact ⟨root, p, whole, hQ, hp', hcode, hcontains.trans (.inner hp .self)⟩

theorem WrittenIn.every (h : code.WrittenIn Q) : code.Every (KnownIn Q) :=
  Every.mono (fun _ => Or.inr)
    (every_of_parts (fun _ h _ hp => h.inner (mem_inner_of_mem_parts hp)) h)

/-- No part of a body of a program is of the library. -/
theorem PartIn.ne_primitive {p : Primitive} (h : code.PartIn Q) : code ≠ .primitive p := by
  rintro rfl
  obtain ⟨_, _, _, _, _, -, -, -, horigin⟩ := h
  cases horigin with
  | link h => exact h
  | node _ hkind h =>
    generalize hcode : Code.primitive p = code at h
    cases h with
    | statements | branches => exact absurd (by decide) hkind
    | tuple htuple => rcases htuple with rfl | rfl <;> exact absurd (by decide) hkind
    | _ => cases hcode

end Code

/-- All functions are of the library or have bodies that stand in programs whose trees satisfy `Q`,
and so does all code that is evaluated. -/
def Policy.written (Q : Node → Prop) : Policy where
  allows f := f.IsNative ∨ f.body.WrittenIn Q
  holds m := m.task.Every (Code.KnownIn Q)
  may _ _ := True
  refl _ := trivial
  trans _ _ := trivial
  step {a b} h hstep := by
    refine hstep.every (fun f values caller position htask => ?_) h.holds
    have haccepts := h.accepts
    rw [htask] at haccepts
    rcases haccepts.1 with (rfl | rfl) | hbody
    · exact ⟨.inl ⟨_, rfl⟩, trivial⟩
    · exact ⟨.inl ⟨_, rfl⟩, trivial⟩
    · exact hbody.every
  made {level l scope s} h _ := by
    have hknown : l.code.KnownIn Q := Code.Every.self h.holds
    rcases hknown with ⟨p, hp⟩ | hwritten
    · cases hp
    · exact Or.inr (hwritten.inner (List.mem_singleton_self l.body))
  write _ _ := trivial
  frame _ := trivial

namespace Session

variable {Q : Node → Prop} {a b : Session} {display : Display} {source : String} {code : Code}

theorem writtenIn_of_prepare (hsource : Reads Q source)
    (h : prepare display source a = .ok code b) : code.WrittenIn Q := by
  obtain ⟨root, p, hparses, hp, hcode⟩ := compile_of_prepare h
  exact ⟨root, p, code, hsource root hparses, hp, hcode, .self⟩

end Session

theorem Policy.written_suits (Q : Node → Prop) : (written Q).Suits Q :=
  ⟨fun _ hnative => Or.inl hnative, fun _ hsource hprepare =>
    (Session.writtenIn_of_prepare hsource hprepare).every⟩

/-! ## Runs -/

namespace Session

/-- While the run evaluates its source it comes to the construct, which fails itself with the error
and leaves the session as the run does. -/
def FailsAt (fuel : Nat) (display : Display) (source : String) (a b : Session) (part : Code)
    (e : RuntimeError) : Prop :=
  ∃ code b' level m, fuel = level + 1 ∧ prepare display source a = .ok code b' ∧
    Moment.Within ⟨level, .code code .global, b'.state⟩ m ∧ m.FailsItself part e b.state

variable {Q : Node → Prop} {a b : Session} {display : Display} {source : String} {fuel : Nat}
  {code part : Code} {e : RuntimeError}

/-- A construct that fails itself stands in a source, for printing finds what it prints. -/
theorem FailsAt.writtenIn (h : FailsAt fuel display source a b part e) (ha : a.ReachedBy Q)
    (hsource : Reads Q source) : part.WrittenIn Q := by
  obtain ⟨code, b', level, m, -, hprepare, hwithin, hfails⟩ := h
  have hsuits := Policy.written_suits Q
  have hgood := hsuits.good_of_prepare (hsuits.clean ha) hsource hprepare level
  have hknown := ((Policy.written Q).within hgood hwithin).holds
  change m.task.Every (Code.KnownIn Q) at hknown
  rw [hfails.task] at hknown
  rcases Code.Every.self hknown with ⟨primitive, rfl⟩ | hwritten
  · have hresult := hfails.result
    unfold Moment.result at hresult
    rw [hfails.task] at hresult
    obtain ⟨rfl, -, hnone⟩ := Moment.error_of_primitive hresult
    have hpart := partIn_of_missing ha hsource hprepare hwithin hfails.task
      (.inr (.inr ⟨_, hfails.result⟩)) List.mem_cons_self hnone
    exact absurd rfl hpart.ne_primitive
  · exact hwritten

/-- Code stands at tokens of its source. -/
theorem standsIn_of_translated (h : translated source = .ok code) :
    code.StandsIn (Position.OfToken source) := by
  unfold translated at h
  obtain ⟨tokens, hscan, h⟩ := bind_eq_ok_iff.1 h
  obtain ⟨root, hparse, h⟩ := bind_eq_ok_iff.1 h
  obtain ⟨program, hprogram, h⟩ := bind_eq_ok_iff.1 h
  have hparses : Parses source root :=
    ⟨tokens, mapError_eq_ok_iff.1 hscan, mapError_eq_ok_iff.1 hparse⟩
  have hcode := mapError_eq_ok_iff.1 h
  rw [Program.compile_eq (mapError_eq_ok_iff.1 hprogram)] at hcode
  exact Code.standsIn_of_compile root hparses.standsIn hcode

/-- A run that fails in evaluation comes to a construct that fails itself at the place of the
error. -/
theorem failsAt_of_run (ha : a.Reachable)
    (hrun : run fuel display source a = .error (.error (.runtime e)) b) :
    ∃ part, FailsAt fuel display source a b part e ∧ part.position? = some e.position := by
  obtain ⟨code, b', level, hfuel, hprepare, hresult⟩ := failure_of_run hrun
  obtain ⟨m, part, hwithin, hfails⟩ := Moment.failsItself_of_error _ rfl hresult
  have hfine := (hwithin.leads (fine_of_prepare ha.sound hprepare)).fine
  refine ⟨part, ?_, (hfails.raises hfine).position⟩
  exact ⟨code, b', level, m, hfuel, hprepare, hwithin, hfails⟩

end Session

/-- The construct stands in the code of the source of the run. -/
def Run.Wrote (r : Run) (part : Code) : Prop :=
  ∃ code, Session.translated r.source = .ok code ∧ code.Contains part

theorem Run.Wrote.ofToken {r : Run} {part : Code} {p : Position} (h : r.Wrote part)
    (hp : part.position? = some p) : p.OfToken r.source := by
  obtain ⟨code, hcode, hcontains⟩ := h
  exact Session.standsIn_of_translated hcode part hcontains p hp

/-- A construct that fails itself stands in the source of this run or of one before. -/
theorem Session.FailsAt.wrote {runs : List Run} {a b : Session} {fuel : Nat} {display : Display}
    {source : String} {part : Code} {e : RuntimeError}
    (h : FailsAt fuel display source a b part e) (ha : After runs a) :
    ∃ r ∈ runs ++ [⟨source, a, b⟩], r.Wrote part := by
  have hreads : ∀ r ∈ runs ++ [⟨source, a, b⟩], Reads
      (fun root => ∃ r ∈ runs ++ [⟨source, a, b⟩], Parses r.source root) r.source :=
    fun r hr root hparses => ⟨r, hr, hparses⟩
  have hreached := ha.reachedBy fun r hr => hreads r (List.mem_append_left _ hr)
  have hsource := hreads ⟨source, a, b⟩ (List.mem_append_right _ List.mem_cons_self)
  obtain ⟨root, p, code, ⟨r, hr, hparses⟩, hp, hcode, hcontains⟩ := h.writtenIn hreached hsource
  refine ⟨r, hr, code, ?_, hcontains⟩
  rw [translated_of_parses hparses hp, hcode]
  rfl

/-- Every error of a run names the place of a token, and never a place that no source has. If the
source is refused, it is a token of that source. If evaluation fails, it is a token of the source of
this run or of one before, in whose code the construct stands that fails itself. -/
theorem errors_stand_at_tokens {runs : List Run} {a b : Session} {fuel : Nat} {display : Display}
    {source : String} {e : Error} (ha : Session.After runs a)
    (hrun : Session.run fuel display source a = .error (.error e) b) :
    (∀ p, e.position? = some p → p ≠ .nowhere) ∧
    ((∀ e', e ≠ .runtime e') → ∀ p, e.position? = some p → p.OfToken source) ∧
    ∀ e', e = .runtime e' → ∃ r ∈ runs ++ [⟨source, a, b⟩], e'.position.OfToken r.source ∧
      ∃ part, r.Wrote part ∧ part.position? = some e'.position ∧
        Session.FailsAt fuel display source a b part e' := by
  obtain ⟨e', rfl⟩ | hrefused := Session.translated_of_run hrun
  · obtain ⟨part, hfails, hposition⟩ := Session.failsAt_of_run ha.reachable hrun
    obtain ⟨r, hr, hwrote⟩ := hfails.wrote ha
    have htoken := hwrote.ofToken hposition
    refine ⟨?_, fun hstatic => absurd rfl (hstatic e'), ?_⟩
    · rintro p ⟨⟩
      exact htoken.ne_nowhere
    · rintro _ ⟨⟩
      exact ⟨r, hr, htoken, part, hwrote, hposition, hfails⟩
  · have htoken : ∀ p, e.position? = some p → p.OfToken source :=
      fun p hp => Session.ofToken_of_translated hrefused hp
    refine ⟨fun p hp => (htoken p hp).ne_nowhere, fun _ => htoken, ?_⟩
    rintro e' rfl
    exact absurd hrefused (Session.translated_ne_runtime source e')

/-- The first run defines a function on its second line, and a later run calls it. The division that
then fails stands in the first source and not in the one that is run. A run that is refused is
refused at a token of its own source, here at the end. -/
theorem errors_stand_at_tokens_later :
    ∃ (r : Run) (b c : Session) (e : RuntimeError) (e' : ParseError),
      r.source = "\nf := func(x) \x7b return 1 / x \x7d" ∧ Session.After [r] r.after ∧
      Session.run 5 .plain "f(0)" r.after = .error (.error (.runtime e)) b ∧
      e.position = ⟨2, 25⟩ ∧ e.position.OfToken r.source ∧
      (∃ part, r.Wrote part ∧ Session.FailsAt 5 .plain "f(0)" r.after b part e) ∧
      Session.run 5 .plain "f(" r.after = .error (.error (.parse e')) c ∧
      e'.position = ⟨1, 3⟩ ∧ e'.position.OfToken "f(" := by
  have hfirst := (Session.After.start 0).next 5 .plain "\nf := func(x) \x7b return 1 / x \x7d"
  have hrun : ∃ b e, Session.run 5 .plain "f(0)" (ending (Session.run 5 .plain
      "\nf := func(x) \x7b return 1 / x \x7d" (.start 0))) =
        .error (.error (.runtime e)) b ∧ e.position = ⟨2, 25⟩ := ⟨_, _, rfl, rfl⟩
  have hrefused : ∃ c e', Session.run 5 .plain "f(" (ending (Session.run 5 .plain
      "\nf := func(x) \x7b return 1 / x \x7d" (.start 0))) =
        .error (.error (.parse e')) c ∧ e'.position = ⟨1, 3⟩ := ⟨_, _, rfl, rfl⟩
  obtain ⟨b, e, hrun, he⟩ := hrun
  obtain ⟨c, e', hrefused, he'⟩ := hrefused
  obtain ⟨-, -, hfailed⟩ := errors_stand_at_tokens hfirst hrun
  obtain ⟨-, hparse, -⟩ := errors_stand_at_tokens hfirst hrefused
  obtain ⟨r', hr', htoken, part, hwrote, -, hfails⟩ := hfailed e rfl
  refine ⟨_, b, c, e, e', rfl, hfirst, hrun, he, ?_⟩
  rcases List.mem_cons.1 hr' with rfl | hr'
  · exact ⟨htoken, ⟨part, hwrote, hfails⟩, hrefused, he', hparse (fun _ h => nomatch h) _ rfl⟩
  · -- The source that is run has no second line.
    cases List.mem_singleton.1 hr'
    have hline : ∃ tokens, Token.scan "f(0)" = .ok tokens ∧ ∀ t ∈ tokens, t.position.line = 1 :=
      ⟨_, rfl, by decide⟩
    obtain ⟨tokens, hscan, hline⟩ := hline
    obtain ⟨tokens', hscan', t, ht, hposition⟩ := htoken
    cases hscan.symm.trans hscan'
    rw [← hposition] at he
    exact absurd ((hline t ht).symm.trans (congrArg Position.line he)) (by decide)

end Scripting
