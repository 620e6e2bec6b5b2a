import Mathlib.Data.List.Infix
import Scripting.Prompt
import Scripting.Proofs.PriorOutput

/-!
# Proofs: conversations at the prompt

The lines of a conversation fall into inputs, each as short as can be, and a rest that makes none.
What is pending after some lines is computed from those lines alone, and each line takes it to what
is pending after one line more, or completes an input. So a conversation asks for the lines and runs
the inputs in turn, and all but the prompts is as if the inputs were run one after the other.
-/

namespace Scripting

namespace Pending

variable {line : String} {lines chunk : List String}

/-! ## Inputs -/

/-- How many more brackets and braces the lines open than close. -/
def totalDepth (lines : List String) : Int :=
  lines.foldl (fun depth line => depth + bracketDepth line) 0

/-- The lines can be run: the last one asks for it, or no more brackets are opened than closed. -/
def Completes (lines : List String) : Prop :=
  ∃ last, lines.getLast? = some last ∧ (forces last ∨ totalDepth lines ≤ 0)

/-- The lines can be run, and no fewer of them from the first on. -/
def IsInput (lines : List String) : Prop :=
  Completes lines ∧ ∀ shorter, shorter <+: lines → Completes shorter → shorter = lines

/-- None of the lines completes an input. -/
def Unfinished (lines : List String) : Prop :=
  ∀ first, first <+: lines → ¬ Completes first

/-- The lines are inputs, one after the other, and a rest in which there is none. -/
structure Divided (lines : List String) (inputs : List (List String)) (rest : List String) :
    Prop where
  eq : lines = inputs.flatten ++ rest
  inputs : ∀ input ∈ inputs, IsInput input
  rest : Unfinished rest

/-- The source of an input: all lines but those that ask to run it, each with its line end. -/
def source (lines : List String) : String :=
  String.join ((lines.filter fun line => !forces line).map fun line => line ++ "\n")

theorem totalDepth_concat :
    totalDepth (lines ++ [line]) = totalDepth lines + bracketDepth line := by
  unfold totalDepth
  rw [List.foldl_append]
  rfl

theorem completes_concat : Completes (lines ++ [line]) ↔
    forces line ∨ totalDepth lines + bracketDepth line ≤ 0 := by
  simp [Completes, totalDepth_concat]

instance : DecidablePred Completes := fun lines =>
  match h : lines.getLast? with
  | some last => decidable_of_iff (forces last ∨ totalDepth lines ≤ 0) <| by
    simp [Completes, h]
  | .none => .isFalse <| by simp [Completes, h]

theorem unfinished_nil : Unfinished [] := by
  rintro first hfirst ⟨last, hlast, -⟩
  rw [List.prefix_nil.1 hfirst] at hlast
  cases hlast

theorem Unfinished.mono (h : Unfinished (lines ++ chunk)) : Unfinished lines :=
  fun first hfirst => h first (hfirst.trans (List.prefix_append lines chunk))

theorem Unfinished.concat (h : Unfinished lines) (hline : ¬ Completes (lines ++ [line])) :
    Unfinished (lines ++ [line]) := by
  intro first hfirst
  rcases List.prefix_concat_iff.1 hfirst with rfl | hfirst
  · exact hline
  · exact h first hfirst

theorem IsInput.ne_nil (h : IsInput lines) : lines ≠ [] := by
  rintro rfl
  exact unfinished_nil [] List.prefix_rfl h.1

/-- An input is over with the line that completes it. -/
theorem Unfinished.isInput (h : Unfinished lines) (hline : Completes (lines ++ [line])) :
    IsInput (lines ++ [line]) := by
  refine ⟨hline, fun shorter hshorter hcompletes => ?_⟩
  rcases List.prefix_concat_iff.1 hshorter with heq | hshorter
  · exact heq
  · exact absurd hcompletes (h shorter hshorter)

/-- The first lines of an input, when more are to come. -/
theorem IsInput.unfinished (h : IsInput (lines ++ chunk)) (hchunk : chunk ≠ []) :
    Unfinished lines := by
  intro first hfirst hcompletes
  have heq := h.2 first (hfirst.trans (List.prefix_append lines chunk)) hcompletes
  have hlength := hfirst.length_le
  rw [heq, List.length_append] at hlength
  exact hchunk (List.eq_nil_of_length_eq_zero (by omega))

/-- Lines that go on after unfinished ones: they stay unfinished, or an input ends among them. -/
theorem Unfinished.or_isInput : ∀ (more : List String) {lines : List String}, Unfinished lines →
    Unfinished (lines ++ more) ∨ ∃ input rest, lines ++ more = input ++ rest ∧ IsInput input
  | [], lines, h => .inl (by rwa [List.append_nil])
  | line :: more, lines, h => by
    rw [List.append_cons]
    by_cases hline : Completes (lines ++ [line])
    · exact .inr ⟨lines ++ [line], more, rfl, h.isInput hline⟩
    · exact Unfinished.or_isInput more (h.concat hline)

theorem divided_nil_iff {rest : List String} :
    Divided lines [] rest ↔ lines = rest ∧ Unfinished rest :=
  ⟨fun h => ⟨h.eq, h.rest⟩, fun ⟨heq, hrest⟩ => ⟨heq, nofun, hrest⟩⟩

theorem divided_cons_iff {input rest : List String} {inputs : List (List String)} :
    Divided lines (input :: inputs) rest ↔
      ∃ more, lines = input ++ more ∧ IsInput input ∧ Divided more inputs rest := by
  constructor
  · intro h
    obtain ⟨hinput, hinputs⟩ := List.forall_mem_cons.1 h.inputs
    refine ⟨inputs.flatten ++ rest, ?_, hinput, rfl, hinputs, h.rest⟩
    rw [h.eq, List.flatten_cons, List.append_assoc]
  · rintro ⟨more, rfl, hinput, hmore⟩
    refine ⟨?_, List.forall_mem_cons.2 ⟨hinput, hmore.inputs⟩, hmore.rest⟩
    rw [hmore.eq, List.flatten_cons, List.append_assoc]

/-- All lines can be divided. -/
theorem exists_divided (lines : List String) : ∃ inputs rest, Divided lines inputs rest := by
  induction hlength : lines.length using Nat.strong_induction_on generalizing lines with
  | _ length ih =>
    rcases unfinished_nil.or_isInput lines with h | ⟨input, more, heq, hinput⟩
    · exact ⟨[], lines, divided_nil_iff.2 ⟨rfl, h⟩⟩
    · have heq : lines = input ++ more := heq
      have hpositive := List.length_pos_iff.2 hinput.ne_nil
      have hshorter : more.length < length := by
        rw [← hlength, heq, List.length_append]
        omega
      obtain ⟨inputs, rest, hmore⟩ := ih more.length hshorter more rfl
      exact ⟨input :: inputs, rest, divided_cons_iff.2 ⟨more, heq, hinput, hmore⟩⟩

/-- Of two inputs at the start of the same lines, neither is longer. -/
theorem IsInput.eq_of_prefix {other : List String} (h : IsInput chunk) (ho : IsInput other)
    (hc : chunk <+: lines) (hoc : other <+: lines) : chunk = other := by
  rcases List.prefix_or_prefix_of_prefix hc hoc with hp | hp
  · exact ho.2 chunk hp h.1
  · exact (h.2 other hp ho.1).symm

/-- There is one way to divide lines. -/
theorem Divided.unique {inputs inputs' : List (List String)} {rest rest' : List String}
    (h : Divided lines inputs rest) (h' : Divided lines inputs' rest') :
    inputs = inputs' ∧ rest = rest' := by
  induction inputs generalizing lines inputs' with
  | nil =>
    obtain ⟨rfl, hrest⟩ := divided_nil_iff.1 h
    cases inputs' with
    | nil => exact ⟨rfl, (divided_nil_iff.1 h').1⟩
    | cons input inputs' =>
      obtain ⟨more, rfl, hinput, -⟩ := divided_cons_iff.1 h'
      exact absurd hinput.1 (hrest input (List.prefix_append _ _))
  | cons input inputs ih =>
    obtain ⟨more, rfl, hinput, hmore⟩ := divided_cons_iff.1 h
    cases inputs' with
    | nil =>
      obtain ⟨rfl, hrest⟩ := divided_nil_iff.1 h'
      exact absurd hinput.1 (hrest input (List.prefix_append _ _))
    | cons input' inputs' =>
      obtain ⟨more', heq, hinput', hmore'⟩ := divided_cons_iff.1 h'
      obtain rfl := hinput.eq_of_prefix hinput' (List.prefix_append _ more)
        (heq ▸ List.prefix_append _ more')
      obtain rfl := List.append_cancel_left heq
      obtain ⟨rfl, rfl⟩ := ih hmore hmore'
      exact ⟨rfl, rfl⟩

/-! ## What is pending -/

/-- What is pending after unfinished lines. -/
def ofLines (lines : List String) : Pending :=
  ⟨source lines, totalDepth lines⟩

theorem ofLines_nil : ofLines [] = none := rfl

theorem source_concat : source (lines ++ [line]) =
    if forces line then source lines else source lines ++ line ++ "\n" := by
  cases hforces : forces line with
  | true => simp [source, hforces]
  | false => simp [source, hforces, String.append_assoc]

/-- A line completes an input, or it is pending with the lines before it. -/
theorem add_ofLines (lines : List String) (line : String) : (ofLines lines).add line =
    if Completes (lines ++ [line]) then (none, some (source (lines ++ [line])))
    else (ofLines (lines ++ [line]), .none) := by
  unfold add ofLines
  rw [source_concat, totalDepth_concat]
  cases hforces : forces line with
  | true => rw [if_pos rfl, if_pos (completes_concat.2 (.inl hforces)), if_pos rfl]
  | false =>
    rw [if_neg Bool.false_ne_true, if_neg Bool.false_ne_true]
    have hcompletes : Completes (lines ++ [line]) ↔
        ¬ 0 < totalDepth lines + bracketDepth line := by
      simp [completes_concat, hforces]
    by_cases hdepth : 0 < totalDepth lines + bracketDepth line
    · rw [if_neg fun h => hcompletes.1 h hdepth]
      exact if_pos hdepth
    · rw [if_pos (hcompletes.2 hdepth)]
      exact if_neg hdepth

example : (ofLines ["\x7b", "f(1"]).add "." = (none, some "\x7b\nf(1\n") := by decide

/-- The prompt for a line, by its number in the input. -/
def promptAt : Nat → String
  | 0 => ">>> "
  | _ + 1 => "... "

theorem prompt_ofLines (h : Unfinished lines) : (ofLines lines).prompt = promptAt lines.length := by
  rcases List.eq_nil_or_concat' lines with rfl | ⟨before, line, rfl⟩
  · rfl
  · have hline : forces line = false := by
      refine Bool.eq_false_iff.2 fun hforces => ?_
      exact h _ List.prefix_rfl (completes_concat.2 (.inl hforces))
    have hsource : (source (before ++ [line])).isEmpty = false := by
      rw [source_concat, hline, ← Bool.not_eq_true, String.isEmpty_iff]
      simp [String.append_eq_empty_iff]
    have hprompt : (ofLines (before ++ [line])).prompt = "... " := by
      unfold prompt ofLines
      rw [hsource]
      rfl
    rw [hprompt, List.length_append]
    rfl

end Pending

/-! ## What a conversation does -/

namespace Console

open Pending

/-- A step of a conversation. -/
inductive Action where
  /-- Asks for a line. -/
  | ask (prompt : String)
  /-- Runs a source. -/
  | run (source : String)
  deriving DecidableEq

/-- The source that is run. -/
def Action.source? : Action → Option String
  | ask _ => .none
  | run source => some source

/-- What was printed on the console. -/
def output (c : Console) : String := c.session.state.output

/-- The console with other output. -/
def withOutput (c : Console) (text : String) : Console :=
  { c with session := { c.session with state := { c.session.state with output := text } } }

/-- The console once a text was printed. -/
def printed (c : Console) (text : String) : Console :=
  c.withOutput (c.output ++ text)

/-- The line on which values are printed. Without values there is none. -/
def valueLine (values : List Value) : String :=
  if values.isEmpty then "" else Value.joined values ++ "\n"

/-- Runs a source in the session. Its values are printed on a line, and its error is reported on a
line; an error does not end the conversation. -/
def runSource (fuel : Nat) (display : Display) (source : String) : ConsoleM Unit := fun c =>
  match Session.run fuel display source c.session with
  | .ok values s => .ok () (printed ⟨s, c.errors⟩ (valueLine values))
  | .error (.error e) s => .ok () ⟨s, c.errors ++ e.message ++ "\n"⟩
  | .error .outOfFuel s => .error .outOfFuel ⟨s, c.errors⟩

/-- Does a step. -/
def perform (fuel : Nat) (display : Display) : Action → ConsoleM Unit
  | .ask prompt => modify (printed · prompt)
  | .run source => runSource fuel display source

/-- Does steps in order. -/
def performAll (fuel : Nat) (display : Display) (actions : List Action) : ConsoleM Unit :=
  forM actions (perform fuel display)

/-- Asks for some lines of an input, the first of them by its number in the input. -/
def asks (first count : Nat) : List Action :=
  (List.range' first count).map fun i => .ask (promptAt i)

/-- Asks for the lines of each input and runs it, and then asks for the rest and once more. -/
def actions (inputs : List (List String)) (rest : List String) : List Action :=
  inputs.flatMap (fun input => asks 0 input.length ++ [.run (source input)]) ++
    asks 0 (rest.length + 1)

variable {fuel : Nat} {display : Display} {line : String} {lines rest : List String}

theorem asks_succ (first count : Nat) :
    asks first (count + 1) = .ask (promptAt first) :: asks (first + 1) count := rfl

theorem actions_cons (input : List String) (inputs : List (List String)) (rest : List String) :
    actions (input :: inputs) rest =
      asks 0 input.length ++ [.run (source input)] ++ actions inputs rest := by
  rw [actions, List.flatMap_cons, List.append_assoc]
  rfl

/-- Running a script at the prompt is running its source. -/
theorem attempt_runScript (source : String) :
    attempt (Session.runScript fuel display source) = runSource fuel display source := by
  funext c
  unfold attempt Session.runScript runSource
  cases hrun : Session.run fuel display source c.session with
  | error stop s =>
    rw [bind_error hrun]
    cases stop <;> rfl
  | ok values s =>
    rw [bind_ok hrun]
    cases values with
    | nil =>
      have hnothing : printed ⟨s, c.errors⟩ (valueLine []) = ⟨s, c.errors⟩ := by
        show withOutput _ (_ ++ "") = _
        rw [String.append_empty]
        rfl
      exact congrArg (EStateM.Result.ok ()) hnothing.symm
    | cons => rfl

theorem performAll_nil : performAll fuel display [] = pure () := rfl

theorem performAll_cons (action : Action) (more : List Action) :
    performAll fuel display (action :: more) =
      perform fuel display action >>= fun _ => performAll fuel display more :=
  List.forM_cons

theorem performAll_append (first more : List Action) :
    performAll fuel display (first ++ more) =
      performAll fuel display first >>= fun _ => performAll fuel display more :=
  List.forM_append

theorem performAll_singleton (action : Action) :
    performAll fuel display [action] = perform fuel display action := by
  rw [performAll_cons, performAll_nil]
  exact bind_pure_unit

/-- One round of a conversation, after lines that complete no input. -/
theorem converse_cons (h : Unfinished lines) (line : String) (rest : List String) :
    converse fuel display (ofLines lines) (line :: rest) =
      perform fuel display (.ask (promptAt lines.length)) >>= fun _ =>
        if Completes (lines ++ [line]) then
          perform fuel display (.run (source (lines ++ [line]))) >>= fun _ =>
            converse fuel display none rest
        else converse fuel display (ofLines (lines ++ [line])) rest := by
  rw [converse, ask, prompt_ofLines h]
  refine bind_congr fun _ => ?_
  rw [submit, add_ofLines]
  by_cases hline : Completes (lines ++ [line])
  · rw [if_pos hline, if_pos hline]
    simp only [bind_assoc, pure_bind, attempt_runScript]
    rfl
  · rw [if_neg hline, if_neg hline]
    rfl

/-- Lines that complete no input are only asked for. -/
theorem converse_rest : ∀ (more : List String) {lines : List String}, Unfinished (lines ++ more) →
    converse fuel display (ofLines lines) more =
      performAll fuel display (asks lines.length (more.length + 1))
  | [], lines, h => by
    rw [List.append_nil] at h
    rw [converse, ask, prompt_ofLines h]
    exact (performAll_singleton (.ask (promptAt lines.length))).symm
  | line :: more, lines, h => by
    have hmore : Unfinished ((lines ++ [line]) ++ more) := by rwa [← List.append_cons]
    rw [converse_cons h.mono, if_neg (hmore.mono _ List.prefix_rfl), converse_rest more hmore,
      List.length_cons, asks_succ lines.length, performAll_cons, List.length_append,
      List.length_singleton]

/-- The lines of an input are asked for, and the input is run. -/
theorem converse_input (rest : List String) : ∀ (more : List String) {lines : List String},
    more ≠ [] → IsInput (lines ++ more) → converse fuel display (ofLines lines) (more ++ rest) =
      performAll fuel display (asks lines.length more.length ++ [.run (source (lines ++ more))])
        >>= fun _ => converse fuel display none rest
  | [], _, hne, _ => absurd rfl hne
  | [line], lines, hne, h => by
    rw [List.singleton_append, converse_cons (h.unfinished hne), if_pos h.1]
    show _ = performAll fuel display [.ask _, .run _] >>= _
    rw [performAll_cons, performAll_singleton, bind_assoc]
  | line :: next :: more, lines, hne, h => by
    have hmore : IsInput ((lines ++ [line]) ++ (next :: more)) := by rwa [← List.append_cons]
    have hopen := hmore.unfinished (List.cons_ne_nil next more)
    rw [List.cons_append, converse_cons (h.unfinished hne), if_neg (hopen _ List.prefix_rfl),
      converse_input rest (next :: more) (List.cons_ne_nil next more) hmore, ← List.append_cons,
      List.length_append, List.length_singleton, List.length_cons (a := line),
      asks_succ lines.length, List.cons_append, performAll_cons, bind_assoc]

/-- A conversation asks for the lines of the inputs and runs them in order. -/
theorem converse_divided {inputs : List (List String)} (h : Divided lines inputs rest) :
    converse fuel display none lines = performAll fuel display (actions inputs rest) := by
  induction inputs generalizing lines with
  | nil =>
    obtain ⟨rfl, hrest⟩ := divided_nil_iff.1 h
    have hrest : Unfinished ([] ++ lines) := hrest
    exact converse_rest lines hrest
  | cons input inputs ih =>
    obtain ⟨more, rfl, hinput, hmore⟩ := divided_cons_iff.1 h
    have hfirst : IsInput ([] ++ input) := hinput
    rw [← ofLines_nil, converse_input more input hinput.ne_nil hfirst, ih hmore, actions_cons,
      performAll_append (asks 0 input.length ++ _)]
    rfl

/-! ## What a conversation comes to -/

/-- The console if `before` had been printed before. -/
def behind (before : String) (c : Console) : Console :=
  { c with session := c.session.behind before }

/-- Sources are run one after the other in the session of a console, each in the session that the
one before it left. Each run adds a text to the output. -/
inductive Runs (fuel : Nat) (display : Display) :
    List String → Console → List String → Console → Prop
  | nil {c} : Runs fuel display [] c [] c
  /-- A run gives values, which are printed behind what it printed itself. -/
  | succeeds {source sources c d values s text texts}
    (h : Session.run fuel display source c.session = .ok values s)
    (htext : s.state.output = c.output ++ text)
    (hmore : Runs fuel display sources (printed ⟨s, c.errors⟩ (valueLine values)) texts d) :
    Runs fuel display (source :: sources) c ((text ++ valueLine values) :: texts) d
  /-- A run fails. What it did and what it printed stays, and its error is reported. -/
  | fails {source sources c d e s text texts}
    (h : Session.run fuel display source c.session = .error (.error e) s)
    (htext : s.state.output = c.output ++ text)
    (hmore : Runs fuel display sources ⟨s, c.errors ++ e.message ++ "\n"⟩ texts d) :
    Runs fuel display (source :: sources) c (text :: texts) d

/-- What steps print in all, if their runs print the texts. -/
def transcript : List Action → List String → String
  | [], _ => ""
  | .ask prompt :: more, texts => prompt ++ transcript more texts
  | .run _ :: more, text :: texts => text ++ transcript more texts
  | .run _ :: more, [] => transcript more []

variable {c d : Console} {sources texts : List String}

theorem commutes_runSource (before source : String) :
    Commutes (behind before) (runSource fuel display source) := by
  intro c
  have hrun : Session.run fuel display source (c.session.behind before) =
      shifted (Session.behind before) (Session.run fuel display source c.session) :=
    Session.commutes_run fuel display source c.session
  unfold runSource behind
  dsimp only
  rw [hrun]
  match Session.run fuel display source c.session with
  | .ok values s =>
    show EStateM.Result.ok () (withOutput _ (before ++ s.state.output ++ valueLine values)) = _
    rw [String.append_assoc]
    rfl
  | .error (.error _) _ | .error .outOfFuel _ => rfl

/-- On a console with other output all but the output is the same, and the same is printed. -/
theorem runSource_withOutput (source text : String) :
    runSource fuel display source (c.withOutput text) = .ok () d ↔
      ∃ e printed, runSource fuel display source c = .ok () e ∧ e.output = c.output ++ printed ∧
        d = e.withOutput (text ++ printed) := by
  have hbehind : ∀ before, runSource fuel display source (c.withOutput before) =
      shifted (behind before) (runSource fuel display source (c.withOutput "")) := by
    intro before
    rw [← commutes_runSource]
    show _ = runSource fuel display source (c.withOutput (before ++ ""))
    rw [String.append_empty]
  have hc : runSource fuel display source c =
      shifted (behind c.output) (runSource fuel display source (c.withOutput "")) :=
    hbehind c.output
  rw [hbehind, hc]
  cases runSource fuel display source (c.withOutput "") with
  | error stop f => exact ⟨nofun, fun ⟨_, _, h, _⟩ => nomatch h⟩
  | ok _ f =>
    refine ⟨fun hd => ⟨f.behind c.output, f.output, rfl, rfl, ?_⟩, ?_⟩
    · cases hd
      rfl
    · rintro ⟨e, printed, he, hprinted, rfl⟩
      cases he
      obtain rfl := (String.append_right_inj c.output).1 hprinted
      rfl

/-- The first run goes on behind what was printed, and the others go on from there. -/
theorem runs_cons_iff {source : String} : Runs fuel display (source :: sources) c texts d ↔
    ∃ e text more, texts = text :: more ∧ runSource fuel display source c = .ok () e ∧
      e.output = c.output ++ text ∧ Runs fuel display sources e more d := by
  constructor
  · intro h
    cases h with
    | @succeeds _ _ _ _ values s text _ h htext hmore =>
      refine ⟨_, _, _, rfl, by rw [runSource, h], ?_, hmore⟩
      show s.state.output ++ valueLine values = _
      rw [htext, String.append_assoc]
    | fails h htext hmore => exact ⟨⟨_, _⟩, _, _, rfl, by rw [runSource, h], htext, hmore⟩
  · rintro ⟨e, text, more, rfl, hrun, htext, hmore⟩
    have hprints := Session.output_of_run fuel display source c.session
    unfold runSource at hrun
    cases hsession : Session.run fuel display source c.session with
    | ok values s =>
      rw [hsession] at hrun hprints
      obtain ⟨own, hown⟩ := hprints
      cases hrun
      have hline : s.state.output ++ valueLine values = c.output ++ text := htext
      rw [hown, String.append_assoc] at hline
      obtain rfl := (String.append_right_inj c.output).1 hline
      exact .succeeds hsession hown hmore
    | error stop s =>
      rw [hsession] at hrun
      cases stop with
      | outOfFuel => cases hrun
      | error e =>
        cases hrun
        exact .fails hsession htext hmore

/-- Steps come to what their runs come to one after the other, and print their prompts between what
the runs print. -/
theorem performAll_iff {actions : List Action} {text : String} :
    performAll fuel display actions (c.withOutput text) = .ok () d ↔
      ∃ texts e, Runs fuel display (actions.filterMap Action.source?) c texts e ∧
        d = e.withOutput (text ++ transcript actions texts) := by
  induction actions generalizing c text with
  | nil =>
    rw [performAll_nil]
    constructor
    · intro h
      cases h
      exact ⟨[], c, .nil, by rw [transcript, String.append_empty]⟩
    · rintro ⟨texts, e, ⟨⟩, rfl⟩
      rw [transcript, String.append_empty]
      rfl
  | cons action more ih =>
    rw [performAll_cons]
    cases action with
    | ask prompt =>
      have hask : perform fuel display (.ask prompt) (c.withOutput text) =
        .ok () (c.withOutput (text ++ prompt)) := rfl
      rw [bind_ok hask, ih]
      simp only [transcript, String.append_assoc]
      rfl
    | run source =>
      constructor
      · intro h
        obtain ⟨_, d₁, hrun, h⟩ := ok_of_bind h
        obtain ⟨e₁, printed, hfirst, hprinted, rfl⟩ := (runSource_withOutput source text).1 hrun
        obtain ⟨texts, e, hmore, rfl⟩ := ih.1 h
        refine ⟨printed :: texts, e, ?_, by rw [transcript, String.append_assoc]⟩
        exact runs_cons_iff.2 ⟨e₁, printed, texts, rfl, hfirst, hprinted, hmore⟩
      · rintro ⟨texts, e, hruns, rfl⟩
        obtain ⟨e₁, printed, texts, rfl, hfirst, hprinted, hmore⟩ := runs_cons_iff.1 hruns
        have hrun := (runSource_withOutput source text).2 ⟨e₁, printed, hfirst, hprinted, rfl⟩
        refine (bind_ok hrun).trans (ih.2 ⟨texts, e, hmore, ?_⟩)
        rw [transcript, String.append_assoc]

theorem sources_asks (first count : Nat) : (asks first count).filterMap Action.source? = [] := by
  simp [asks, Action.source?]

theorem sources_actions (inputs : List (List String)) (rest : List String) :
    (actions inputs rest).filterMap Action.source? = inputs.map source := by
  induction inputs with
  | nil => exact sources_asks 0 _
  | cons input inputs ih =>
    rw [actions_cons, List.append_assoc, List.filterMap_append, sources_asks,
      List.singleton_append, List.nil_append]
    exact congrArg (source input :: ·) ih

/-- Lines at the prompt are divided in one way. A conversation asks for the lines of each input with
its prompts and runs the source of the input, in order, and does nothing else; that holds whatever
is shown, also when every run shows its tree. It comes to an end if the runs do, and then it leaves
what the runs leave when they are made one after the other in the session: the state and the
warnings, what they print and behind it their values, and the errors of those that fail. The prompts
stand between the texts that are printed. -/
theorem converse_inputs (lines : List String) : ∃ inputs rest,
    (∀ inputs' rest', Divided lines inputs' rest' ↔ inputs' = inputs ∧ rest' = rest) ∧
    ∀ fuel display,
      converse fuel display none lines = performAll fuel display (actions inputs rest) ∧
      ∀ c d, converse fuel display none lines c = .ok () d ↔
        ∃ texts e, Runs fuel display (inputs.map source) c texts e ∧
          d = e.withOutput (c.output ++ transcript (actions inputs rest) texts) := by
  obtain ⟨inputs, rest, h⟩ := exists_divided lines
  refine ⟨inputs, rest, fun inputs' rest' => ⟨fun h' => h'.unique h, ?_⟩, fun fuel display =>
    ⟨converse_divided h, fun c d => ?_⟩⟩
  · rintro ⟨rfl, rfl⟩
    exact h
  · rw [converse_divided h, ← sources_actions inputs rest]
    exact performAll_iff

/-- An input of two lines, one that fails, one with two values that sees what the first did, and a
rest that is not run. -/
theorem converse_inputs_failing : ∃ d,
    converse 3 .plain none ["x := (", "1)", "y", "x + 1, x", "\x7b"] ⟨.start 0, ""⟩ = .ok () d ∧
      d.output = ">>> ... 1\n>>> >>> 2, 1\n>>> ... " ∧
      d.errors = "1:1: attempt to access undefined variable y\n" ∧
      d.session.warnings = ["y"] := by
  obtain ⟨inputs, rest, hdivided, hconverse⟩ :=
    converse_inputs ["x := (", "1)", "y", "x + 1, x", "\x7b"]
  have hopen : Unfinished ["x := ("] := unfinished_nil.concat (by decide)
  obtain ⟨rfl, rfl⟩ := (hdivided [["x := (", "1)"], ["y"], ["x + 1, x"]] ["\x7b"]).1
    ⟨rfl, List.forall_mem_cons.2 ⟨hopen.isInput (by decide), List.forall_mem_cons.2
      ⟨unfinished_nil.isInput (by decide), List.forall_mem_singleton.2
        (unfinished_nil.isInput (by decide))⟩⟩, unfinished_nil.concat (by decide)⟩
  obtain ⟨e, hruns, herrors, hwarnings⟩ : ∃ e,
      Runs 3 .plain ["x := (\n1)\n", "y\n", "x + 1, x\n"] ⟨.start 0, ""⟩ ["1\n", "", "2, 1\n"] e ∧
        e.errors = "1:1: attempt to access undefined variable y\n" ∧ e.session.warnings = ["y"] :=
    ⟨_, @Runs.succeeds _ _ _ _ _ _ [.int 1] _ "" _ rfl rfl <| @Runs.fails _ _ _ _ _ _ _ _ "" _
      rfl rfl <| @Runs.succeeds _ _ _ _ _ _ [.int 2, .int 1] _ "" _ rfl rfl .nil, rfl, rfl⟩
  exact ⟨_, ((hconverse 3 .plain).2 _ _).2 ⟨_, e, hruns, rfl⟩, rfl, herrors, hwarnings⟩

end Console

end Scripting
