import Scripting.Proofs.Listing
import Scripting.Proofs.Sources
import Mathlib.Logic.Relation

/-!
# Proofs: what a function captures

A function captures the names that it needs itself, and those that a function inside it needs and
that no function on the way down to that one binds.
-/

namespace Scripting

open Node

namespace Analysis

variable {a : Analysis} {x : String}

theorem binds_eq_false_iff :
    a.binds x = false ↔ x ∉ a.parameters ∧ x ∉ a.channels ∧ x ∉ a.locals := by
  simp [binds, and_assoc]

theorem mem_free_iff : x ∈ a.free ↔
    x ∈ a.externs ∨ x ∈ a.identifiers ∧ x ∉ a.parameters ∧ x ∉ a.channels ∧ x ∉ a.locals := by
  rw [free, Names.mem_union, Names.mem_filter, Bool.not_eq_true', binds_eq_false_iff]

theorem mem_captures_iff : x ∈ a.captures ↔
    x ∈ a.free ∨ x ∈ a.nested ∧ x ∉ a.parameters ∧ x ∉ a.channels ∧ x ∉ a.locals := by
  rw [captures, Names.mem_union, Names.mem_filter, Bool.not_eq_true', binds_eq_false_iff]

/-- The analysis has the lists of a function and the names that its body refers to, assigns and
declares. -/
structure Describes (a : Analysis) (parameters channels body : Node) : Prop where
  parameters : parameters.nameList = .ok a.parameters
  channels : channels.nameList = .ok a.channels
  mem_locals_iff : ∀ x, x ∈ a.locals ↔ body.Has (AssignsTo x) ∧ ¬ body.Has (Declares x)
  mem_free_iff : ∀ x, x ∈ a.free ↔
    body.Has (RefersTo x) ∧ x ∉ a.parameters ∧ x ∉ a.channels ∧ ¬ body.Has (AssignsTo x) ∨
      body.Has (Declares x)

end Analysis

namespace Node

variable {root body : Node} {path : Path} {s : Survey} {a : Analysis} {x : String}

/-- The names that nested functions take are the captures of the functions directly inside. -/
theorem mem_nested_iff (hs : body.survey path = .ok s) :
    x ∈ s.mentions.nested ↔ ∃ site ∈ s.sites, x ∈ site.analysis.captures := by
  have hnames : Survey.Additive (x ∈ ·.mentions.nested) :=
    ⟨Names.not_mem_empty, fun _ _ => Names.mem_union⟩
  have hnone : ¬ ∃ site ∈ ([] : List FunctionSite), x ∈ site.analysis.captures := by simp
  have hsites : Survey.Additive fun s => ∃ site ∈ s.sites, x ∈ site.analysis.captures :=
    ⟨hnone, fun a b => by simp [or_and_right, exists_or]⟩
  rw [holds_iff hnames body hs, holds_iff hsites body hs]
  refine exists_congr fun rel => exists_congr fun below => exists_congr fun own =>
    and_congr_right fun _ => and_congr_right fun hnotes => ?_
  cases hnotes with
  | function => simp [Survey.ofFunction]
  | object | assignment | declaration | name => exact iff_of_false Names.not_mem_empty hnone

/-- The analysis of a function describes it. -/
theorem FunctionAt.describes (h : FunctionAt root path a body s) :
    ∃ literal position parameters channels rest,
      root.at? path = some ⟨.funcWord, literal, position, parameters :: channels :: body :: rest⟩ ∧
      a.Describes parameters channels body := by
  obtain ⟨literal, position, parameters, channels, rest, hnode, hps, hcs⟩ := h.node
  refine ⟨literal, position, parameters, channels, rest, hnode, hps, hcs, fun x => ?_, fun x => ?_⟩
  · rw [← mem_assigned_iff h.survey, ← mem_externs_iff h.survey, h.analysis]
    exact Names.mem_sdiff
  · rw [Analysis.mem_free_iff, ← mem_identifiers_iff h.survey, ← mem_assigned_iff h.survey,
      ← mem_externs_iff h.survey, h.analysis]
    simp only [Analysis.ofMentions, Names.mem_sdiff]
    -- A name that is declared is free, whether or not it is also assigned.
    by_cases hdeclared : x ∈ s.mentions.externs <;> simp [hdeclared]

end Node

namespace FunctionSite

variable {root : Node} {site : FunctionSite} {x : String}

/-- What a function captures it needs itself, or a function directly inside captures it. -/
theorem Found.mem_captures_iff (h : Found root site) : x ∈ site.analysis.captures ↔
    x ∈ site.analysis.free ∨ (∃ inside ∈ site.inner, x ∈ inside.analysis.captures) ∧
      x ∉ site.analysis.parameters ∧ x ∉ site.analysis.channels ∧ x ∉ site.analysis.locals := by
  cases h with
  | @mk path node a body s _ hat =>
    have hnested : a.nested = s.mentions.nested := by
      rw [hat.analysis]
      rfl
    rw [Analysis.mem_captures_iff, hnested, mem_nested_iff hat.survey]

end FunctionSite

namespace Program

/-- The second function is directly inside the first, which does not bind the name. -/
structure Passes (p : Program) (x : String) (f g : FunctionEntry) : Prop where
  mem : g ∈ p.functions
  inside : p.root.InnermostAround f.path g.path
  unbound : x ∉ f.analysis.parameters ∧ x ∉ f.analysis.channels ∧ x ∉ f.analysis.locals

variable {p : Program} {root : Node} {x : String} {f g : FunctionEntry} {site : FunctionSite}

theorem Passes.mem_captures (hp : ofNode root = .ok p) (hf : f ∈ p.functions)
    (h : p.Passes x f g) (hx : x ∈ g.analysis.captures) : x ∈ f.analysis.captures := by
  obtain ⟨around, site, hfound, hof, hof', hsite⟩ :=
    inner_of_innermostAround hp hf h.mem (root_of_ofNode hp ▸ h.inside)
  rw [hof.analysis, hfound.mem_captures_iff]
  exact Or.inr ⟨⟨site, hsite, hof'.analysis ▸ hx⟩, hof.analysis ▸ h.unbound⟩

/-- A name that is captured is passed down to a function that needs it. -/
theorem exists_passes (hp : ofNode root = .ok p) (site : FunctionSite) :
    FunctionSite.Found root site → ∀ f, f.Of site → x ∈ site.analysis.captures →
      ∃ g, Relation.ReflTransGen (p.Passes x) f g ∧ x ∈ g.analysis.free := by
  induction site using FunctionSite.induct with
  | h path a inner ih =>
    intro hfound f hof hx
    rcases hfound.mem_captures_iff.1 hx with hx | ⟨⟨inside, hinside, hx⟩, hunbound⟩
    · exact ⟨f, .refl, hof.analysis ▸ hx⟩
    · obtain ⟨hfound', haround⟩ := hfound.inner hinside
      obtain ⟨g, hg, hof'⟩ := entry_of_found hp hfound'
      obtain ⟨h, hpasses, hfree⟩ := ih inside hinside hfound' g hof' hx
      rw [← hof.path, ← hof'.path, ← root_of_ofNode hp] at haround
      exact ⟨h, .head ⟨hg, haround, hof.analysis ▸ hunbound⟩ hpasses, hfree⟩

/-- A function on the way down to one that needs the name captures it. -/
theorem mem_captures_of_passes (hp : ofNode root = .ok p)
    (hpasses : Relation.ReflTransGen (p.Passes x) f g) (hfree : x ∈ g.analysis.free) :
    f ∈ p.functions → x ∈ f.analysis.captures := by
  induction hpasses using Relation.ReflTransGen.head_induction_on with
  | refl => exact fun _ => Analysis.mem_captures_iff.2 (Or.inl hfree)
  | head hstep _ ih => exact fun hf => hstep.mem_captures hp hf (ih hstep.mem)

/-- A function captures a name if and only if it hands the name down, through functions directly
inside each other that do not bind it, to one that needs it free. What a function needs free and
what it binds can be read off the function itself. -/
theorem mem_captures_iff_passes (hp : ofNode root = .ok p) (hf : f ∈ p.functions) (x : String) :
    (x ∈ f.analysis.captures ↔
      ∃ g, Relation.ReflTransGen (p.Passes x) f g ∧ x ∈ g.analysis.free) ∧
    ∃ literal position parameters channels body rest,
      root.at? f.path =
        some ⟨.funcWord, literal, position, parameters :: channels :: body :: rest⟩ ∧
      f.analysis.Describes parameters channels body := by
  obtain ⟨site, hfound, hof⟩ := found_of_entry hp hf
  refine ⟨⟨fun hx => exists_passes hp site hfound f hof (hof.analysis ▸ hx), ?_⟩, ?_⟩
  · rintro ⟨g, hpasses, hfree⟩
    exact mem_captures_of_passes hp hpasses hfree hf
  · obtain ⟨body, s, hat⟩ := truthful_of_mem hp hf
    obtain ⟨literal, position, parameters, channels, rest, hnode, hdescribes⟩ := hat.describes
    exact ⟨literal, position, parameters, channels, body, rest, hnode, hdescribes⟩

/-- The inner function hands `y` up to the outer one, which binds `a`. -/
theorem mem_captures_iff_passes_nested :
    ∃ root p f, Session.Parses "func(a) { func() { a + y } }" root ∧ ofNode root = .ok p ∧
      f ∈ p.functions ∧ f.path = [0] ∧
      (∃ g, Relation.ReflTransGen (p.Passes "y") f g ∧ "y" ∈ g.analysis.free) ∧
      ¬ ∃ g, Relation.ReflTransGen (p.Passes "a") f g ∧ "a" ∈ g.analysis.free := by
  obtain ⟨root, p, hparses, hp, f, hf, hpath, hy, ha⟩ : ∃ root p,
      Session.Parses "func(a) { func() { a + y } }" root ∧ ofNode root = .ok p ∧
      ∃ f ∈ p.functions, f.path = [0] ∧ "y" ∈ f.analysis.captures ∧ "a" ∉ f.analysis.captures := by
    refine ⟨⟨.statements, "stmts", ⟨1, 1⟩, [⟨.funcWord, "func", ⟨1, 1⟩,
      [⟨.leftParen, "params", ⟨1, 5⟩, [⟨.identifier, "a", ⟨1, 6⟩, []⟩]⟩,
        ⟨.leftBracket, "channels", ⟨1, 9⟩, []⟩,
        ⟨.statements, "stmts", ⟨1, 11⟩, [⟨.funcWord, "func", ⟨1, 11⟩,
          [⟨.leftParen, "params", ⟨1, 15⟩, []⟩, ⟨.leftBracket, "channels", ⟨1, 18⟩, []⟩,
            ⟨.statements, "stmts", ⟨1, 20⟩, [⟨.plus, "+", ⟨1, 22⟩,
              [⟨.identifier, "a", ⟨1, 20⟩, []⟩, ⟨.identifier, "y", ⟨1, 24⟩, []⟩]⟩]⟩]⟩]⟩]⟩]⟩,
      _, ⟨_, rfl, rfl⟩, rfl, _, .head _, rfl, by decide, by decide⟩
  obtain ⟨hiff, -⟩ := mem_captures_iff_passes hp hf "y"
  obtain ⟨hiff', -⟩ := mem_captures_iff_passes hp hf "a"
  exact ⟨root, p, f, hparses, hp, hf, hpath, hiff.1 hy, fun h => ha (hiff'.2 h)⟩

end Program

end Scripting
