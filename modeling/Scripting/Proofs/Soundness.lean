import Scripting.Builtins
import Scripting.Proofs.Bindings
import Scripting.Proofs.Compiled

/-!
# Proofs: sound stores

The invariant of everything that evaluation keeps: cells hold data and never a signal, each cell is
bound under one name only, and every function comes from the library or from a function literal of
an analysed source, with cells for all names that its literal needs.
-/

namespace Scripting

/-! ## Functions -/

namespace Function

/-- The function belongs to the library. -/
def IsNative (f : Function) : Prop :=
  f = .print ∨ f = .clock

/-- The function was made by a literal that has the analysis `a`. -/
structure MadeFrom (f : Function) (a : Analysis) : Prop where
  governs : a.Governs f.body
  parameters : f.parameters = a.parameters
  channels : f.channels = a.channels
  locals : f.locals = a.locals.toList
  free : ∀ x ∈ a.free, (f.captured.get? x).isSome
  captures : ∀ {x}, (f.captured.get? x).isSome → x ∈ a.captures

/-- The cells that the function took along are bound in the store, and it has an origin. -/
structure Sound (s : Store) (f : Function) : Prop where
  captured : ∀ {x c}, f.captured.get? x = some c → s.Binds x c
  origin : f.IsNative ∨ ∃ a, f.MadeFrom a

end Function

/-! ## Values -/

namespace Value

/-- A value that a variable may hold: anything but a signal. -/
def IsData (s : Store) : Value → Prop
  | .control _ => False
  | .function f => f.Sound s
  | _ => True

/-- Values that variables may hold. -/
def AreData (s : Store) (values : List Value) : Prop :=
  ∀ v ∈ values, v.IsData s

/-- What evaluating code yields: data, or a single signal. Breaks and continues come only from
code that they can leave, which `loose` says. -/
inductive Yielded (s : Store) (loose : Prop) : List Value → Prop
  | data {values} (h : AreData s values) : Yielded s loose values
  | returning {values} (h : AreData s values) : Yielded s loose [.control (.returning values)]
  | breaking (h : loose) : Yielded s loose [.control .breaking]
  | continuing (h : loose) : Yielded s loose [.control .continuing]

variable {s s' : Store} {opened : FrameId → Prop} {loose loose' : Prop} {v : Value}
  {values : List Value}

theorem IsData.extends (h : v.IsData s) (he : s.Extends opened s') : v.IsData s' := by
  cases v with
  | function f => exact ⟨fun hc => (h.captured hc).extends he, h.origin⟩
  | control => exact h
  | _ => trivial

theorem AreData.extends (h : AreData s values) (he : s.Extends opened s') : AreData s' values :=
  fun v hv => (h v hv).extends he

theorem AreData.nil : AreData s [] :=
  fun _ hv => absurd hv List.not_mem_nil

theorem AreData.singleton (h : v.IsData s) : AreData s [v] :=
  fun _ hw => List.mem_singleton.1 hw ▸ h

theorem AreData.append {others : List Value} (h : AreData s values) (h' : AreData s others) :
    AreData s (values ++ others) :=
  fun v hv => (List.mem_append.1 hv).elim (h v) (h' v)

theorem IsData.not_control (h : v.IsData s) : v.type ≠ .control := by
  cases v with
  | control => exact h.elim
  | _ => exact nofun

theorem Yielded.mono (hl : loose → loose') (h : Yielded s loose values) :
    Yielded s loose' values := by
  cases h with
  | data h => exact .data h
  | returning h => exact .returning h
  | breaking h => exact .breaking (hl h)
  | continuing h => exact .continuing (hl h)

theorem Yielded.areData (h : Yielded s loose values) (hs : isSignal values = false) :
    AreData s values := by
  cases h with
  | data h => exact h
  | _ => simp [isSignal] at hs

/-- A call takes in the signal of a return, and no other comes out of a body. -/
theorem Yielded.returned (h : Yielded s False values) : AreData s (Eval.returned values) := by
  cases h with
  | data h =>
    unfold Eval.returned
    split
    · exact (h _ List.mem_cons_self).elim
    · exact h
  | returning h => exact h
  | breaking h => exact h.elim
  | continuing h => exact h.elim

end Value

/-! ## Stores -/

namespace Store

/-- A cell that is bound exists, and it is bound under one name only. -/
structure Distinct (s : Store) : Prop where
  cells : ∀ {x c}, s.Binds x c → c < s.cells.size
  named : ∀ {x y c}, s.Binds x c → s.Binds y c → x = y

/-- The invariant of the stores of a session. -/
structure Sound (s : Store) : Prop extends Distinct s where
  global : 0 < s.frames.size
  data : ∀ c, (s.read c).IsData s

variable {s : Store} {scope : Scope} {name : String} {value : Value}

theorem Distinct.newFrame (h : s.Distinct) {bindings : NameMap CellId}
    (hb : ∀ {x c}, bindings.get? x = some c → s.Binds x c) : (s.newFrame bindings).2.Distinct := by
  have hbinds : ∀ {x c}, (s.newFrame bindings).2.Binds x c → s.Binds x c := by
    rintro x c ⟨frame, hx⟩
    rw [bindings_newFrame] at hx
    split at hx
    · exact hb hx
    · exact ⟨frame, hx⟩
  exact ⟨fun hx => h.cells (hbinds hx), fun hx hy => h.named (hbinds hx) (hbinds hy)⟩

/-- A write goes to the one cell of its name, or to a new one. -/
theorem Distinct.put (h : s.Distinct) (hframe : scope.frame < s.frames.size) (name : String)
    (value : Value) : (s.put scope name value).Distinct := by
  have he : s.Extends (fun _ => True) (s.put scope name value) :=
    extends_put hframe value fun _ => trivial
  have hlt : ∀ {x c}, (s.put scope name value).Binds x c →
      s.Binds x c ∨ x = name ∧ c = s.cells.size ∧ c < (s.put scope name value).cells.size := by
    intro x c hx
    rcases binds_put hframe hx with hx | ⟨hnone, rfl, rfl⟩
    · exact Or.inl hx
    · exact Or.inr ⟨rfl, rfl, by simp [put_of_none hnone, newCell, bind]⟩
  refine ⟨fun {x c} hx => ?_, fun {x y c} hx hy => ?_⟩
  · rcases hlt hx with hx | ⟨-, -, hc⟩
    · exact Nat.lt_of_lt_of_le (h.cells hx) he.cells
    · exact hc
  · rcases hlt hx with hx' | ⟨ex, ec, -⟩ <;> rcases hlt hy with hy' | ⟨ey, ec', -⟩
    · exact h.named hx' hy'
    · exact absurd (h.cells hx') (ec' ▸ Nat.lt_irrefl _)
    · exact absurd (h.cells hy') (ec ▸ Nat.lt_irrefl _)
    · exact ex.trans ey.symm

theorem Sound.value? (h : s.Sound) (scope : Scope) (name : String) :
    ((s.value? scope name).getD .nil).IsData s := by
  unfold Store.value?
  cases s.cell? scope name with
  | none => trivial
  | some c => exact h.data c

theorem Sound.newFrame (h : s.Sound) {bindings : NameMap CellId}
    (hb : ∀ {x c}, bindings.get? x = some c → s.Binds x c) : (s.newFrame bindings).2.Sound := by
  refine ⟨h.toDistinct.newFrame hb, ?_, fun c => ?_⟩
  · simp [Store.newFrame]
  · exact (h.data c).extends (extends_newFrame (fun _ => False) s bindings)

/-- A write of data keeps the store sound. -/
theorem Sound.put (h : s.Sound) (hframe : scope.frame < s.frames.size) (hv : value.IsData s) :
    (s.put scope name value).Sound := by
  have he : s.Extends (fun _ => True) (s.put scope name value) :=
    extends_put hframe value fun _ => trivial
  refine ⟨h.toDistinct.put hframe name value, Nat.lt_of_lt_of_le h.global he.frames, fun c => ?_⟩
  rw [read_put (fun _ _ => h.cells)]
  split
  · exact hv.extends he
  · exact (h.data c).extends he

end Store

end Scripting
