import Scripting.Proofs.Captures
import Scripting.Proofs.Compiled
import Scripting.Proofs.Refusals

/-!
# Proofs: what is compiled was analysed

The compiler leaves out parameters, declarations, targets of assignments and children that a
construct does not have; the survey leaves out parameters, fields and objects of method calls. Every
node that the compiler goes to the survey has been to before, so each function has its own analysis
when it is compiled.
-/

namespace Scripting

open Node

namespace Program

variable {p : Program} {root node : Node} {path : Path} {e : CompileError}

/-- No function that the compiler goes to lacks an analysis or a body. -/
theorem fault_of_compile (hp : ofNode root = .ok p) (h : p.compile = .error e) :
    e.fault ≠ .missingAnalysis ∧ e.fault ≠ .malformed .funcWord := by
  rw [compile_eq hp] at h
  obtain ⟨path, node, hreaches, htrue⟩ := trueOf_of_compile root h
  rw [List.append_nil] at htrue
  have hvisited := hreaches.mono fun _ _ h => h.surveysChild
  constructor
  · intro hfault
    obtain ⟨hkind, hnone⟩ := htrue.missing hfault
    obtain ⟨a, body, s, ha, -⟩ := analysis?_of_reaches hp hvisited hkind
    cases hnone.symm.trans ha
  · intro hfault
    obtain ⟨hkind, hfits⟩ := htrue.malformed _ hfault
    obtain ⟨a, body, s, -, hat⟩ := analysis?_of_reaches hp hvisited hkind
    obtain ⟨_, _, _, _, _, hnode, -⟩ := hat.node
    cases hreaches.at?.symm.trans hnode
    exact hfits (Nat.le_add_left 3 _)

/-- What the compiler asks an analysed program for, the program has. Each function that the compiler
goes to has an analysis, which describes that function, and no other analysis is looked up. The
functions of the program are those that the survey goes to, each listed once, before the functions
inside it and with the innermost function around it. -/
theorem compile_covered (hp : ofNode root = .ok p) :
    (∀ e, p.compile = .error e →
      e.fault ≠ .missingAnalysis ∧ e.fault ≠ .malformed .funcWord) ∧
    (∀ path node, root.Reaches Kind.CompilesChild path node → node.kind = .funcWord →
      ∃ literal position parameters channels body rest a,
        node = ⟨.funcWord, literal, position, parameters :: channels :: body :: rest⟩ ∧
        p.analysis? path = some a ∧ a.Describes parameters channels body) ∧
    (∀ analysis?, root.AgreeOn p.analysis? analysis? [] →
      p.compile = root.compile analysis? false []) ∧
    (∀ path, (∃ f ∈ p.functions, f.path = path) ↔
      ∃ node, root.Reaches Kind.SurveysChild path node ∧ node.kind = .funcWord) ∧
    (p.functions.Pairwise fun f g => ¬ g.path <:+ f.path) ∧
    ∀ j f, p.functions[j]? = some f → p.HasParent j f := by
  refine ⟨fun e => fault_of_compile hp, fun path node hreaches hkind => ?_, fun analysis? h => ?_,
    fun path => exists_function_iff hp, pairwise_functions hp, fun j f => hasParent hp⟩
  · have hvisited := hreaches.mono fun _ _ h => h.surveysChild
    obtain ⟨a, body, s, ha, hat⟩ := analysis?_of_reaches hp hvisited hkind
    obtain ⟨literal, position, parameters, channels, rest, hnode, hdescribes⟩ := hat.describes
    cases hreaches.at?.symm.trans hnode
    exact ⟨literal, position, parameters, channels, body, rest, a, rfl, ha, hdescribes⟩
  · rw [compile_eq hp]
    exact compile_congr root h

/-- The function has a child too many, a function without its parts, which is neither surveyed nor
compiled. What the program is refused for is the break. -/
theorem compile_covered_malformed :
    ∃ root p node f, ofNode root = .ok p ∧ root.Reaches Kind.CompilesChild [0] node ∧
      node.kind = .funcWord ∧ node.children.length = 4 ∧ p.functions[0]? = some f ∧
      p.compile = .error ⟨.outsideLoop .breakWord, ⟨1, 9⟩⟩ ∧
      CompileFault.outsideLoop .breakWord ≠ .missingAnalysis ∧
      (∃ a parameters channels body, p.analysis? [0] = some a ∧
        a.Describes parameters channels body) ∧ p.HasParent 0 f := by
  obtain ⟨root, p, node, f, hp, hreaches, hkind, hlength, hf, herror⟩ : ∃ root p node f,
      ofNode root = .ok p ∧ root.Reaches Kind.CompilesChild [0] node ∧
      node.kind = .funcWord ∧ node.children.length = 4 ∧ p.functions[0]? = some f ∧
      p.compile = .error ⟨.outsideLoop .breakWord, ⟨1, 9⟩⟩ := by
    refine ⟨⟨.statements, "stmts", ⟨1, 1⟩, [⟨.funcWord, "func", ⟨1, 1⟩,
      [⟨.leftParen, "params", ⟨1, 5⟩, []⟩, ⟨.leftBracket, "channels", ⟨1, 7⟩, []⟩,
        ⟨.statements, "stmts", ⟨1, 9⟩, [⟨.breakWord, "break", ⟨1, 9⟩, []⟩]⟩,
        ⟨.funcWord, "func", ⟨1, 16⟩, []⟩]⟩]⟩, _, _, _, rfl, .child .root trivial rfl, rfl, rfl,
      rfl, rfl⟩
  obtain ⟨hfaults, hanalyses, -, -, -, hparents⟩ := compile_covered hp
  obtain ⟨_, _, parameters, channels, body, _, a, -, ha, hdescribes⟩ :=
    hanalyses [0] node hreaches hkind
  exact ⟨root, p, node, f, hp, hreaches, hkind, hlength, hf, herror, (hfaults _ herror).1,
    ⟨a, parameters, channels, body, ha, hdescribes⟩, hparents 0 f hf⟩

end Program

end Scripting
