import Scripting.Names

/-!
# What a function binds and mentions

The analysis of a function, or of the top level of a program, says which names it binds, which it
mentions, and which of those must come from the scope where it is defined.
-/

namespace Scripting

/-- The names of a function's body, the bodies of nested functions left out, by the part they
play. -/
structure Mentions where
  /-- The names that are assigned. -/
  assigned : Names
  /-- The names that are declared to belong outside. -/
  externs : Names
  /-- The names that are mentioned. -/
  identifiers : Names
  /-- The names that nested functions take from outside themselves. -/
  nested : Names

namespace Mentions

/-- Nothing at all. -/
def none : Mentions := ⟨∅, ∅, ∅, ∅⟩

/-- The mentions of two stretches of a body together. -/
def append (a b : Mentions) : Mentions :=
  ⟨a.assigned ∪ b.assigned, a.externs ∪ b.externs, a.identifiers ∪ b.identifiers,
    a.nested ∪ b.nested⟩

instance : Append Mentions := ⟨append⟩

end Mentions

/-- What a function, or the top level, binds and mentions. -/
structure Analysis where
  /-- The parameters in order, repetitions kept. -/
  parameters : List String
  /-- The channels in order, repetitions kept. -/
  channels : List String
  /-- The assigned names that are not declared to belong outside. -/
  locals : Names
  /-- The names that are declared to belong outside. -/
  externs : Names
  /-- The names that the body mentions. -/
  identifiers : Names
  /-- The names that nested functions take from outside themselves. -/
  nested : Names

namespace Analysis

/-- The analysis of a function from its lists and the mentions of its body. -/
def ofMentions (parameters channels : List String) (m : Mentions) : Analysis :=
  ⟨parameters, channels, m.assigned \ m.externs, m.externs, m.identifiers, m.nested⟩

/-- Does the function bind the name itself? -/
def binds (a : Analysis) (name : String) : Bool :=
  a.parameters.contains name || a.channels.contains name || decide (name ∈ a.locals)

/-- The names that must come from the defining scope: those mentioned and not bound, and those
declared to belong outside. -/
def free (a : Analysis) : Names :=
  a.externs ∪ a.identifiers.filter fun name => !a.binds name

/-- The free names and those that nested functions need and this one does not bind. -/
def captures (a : Analysis) : Names :=
  a.free ∪ a.nested.filter fun name => !a.binds name

end Analysis

/-- An analysis with those of the functions around it, the innermost first. The last one belongs to
the top level. -/
structure PlacedAnalysis where
  /-- The analysis. -/
  analysis : Analysis
  /-- The analyses around it. -/
  outer : List Analysis

namespace PlacedAnalysis

/-- Is the name bound here or in a function around? -/
def bound (p : PlacedAnalysis) (name : String) : Bool :=
  (p.analysis :: p.outer).any (·.binds name)

/-- The free names that nothing around binds either. -/
def missing (p : PlacedAnalysis) : List String :=
  p.analysis.free.toList.filter fun name => !p.bound name

/-- One line of a report. -/
def reportLine (title : String) (names : List String) : String :=
  title ++ ": " ++ ", ".intercalate names

/-- The analysis in words, without a line end behind the last line. -/
def report (p : PlacedAnalysis) : String :=
  "\n".intercalate [
    reportLine "identifiers" p.analysis.identifiers.toList,
    reportLine "parameters" p.analysis.parameters,
    reportLine "channels" p.analysis.channels,
    reportLine "locals" p.analysis.locals.toList,
    reportLine "externs" p.analysis.externs.toList,
    reportLine "free" p.analysis.free.toList,
    reportLine "unbound" p.missing]

end PlacedAnalysis

end Scripting
