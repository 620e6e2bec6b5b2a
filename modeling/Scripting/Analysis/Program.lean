import Scripting.Analysis
import Scripting.Node

/-!
# Analysed programs

The survey of a tree goes through it once. Every function found gets an analysis of its own, made
from its body alone, and what the function takes from outside is handed to the function around it.
Analyses are kept beside the tree, by the paths of the function nodes.

A tree that does not have the shape that a function, an assignment, a declaration or a method call
needs is refused at the first such node in the order of the source.
-/

namespace Scripting

/-- Why a tree cannot be analysed. -/
inductive AnalysisFault where
  /-- A function without its three parts. -/
  | incompleteFunction
  /-- A method call on nothing. -/
  | missingObject
  /-- An assignment to nothing. -/
  | missingTarget
  /-- A declaration of something that is no name. -/
  | externNotIdentifier
  /-- An access to nothing, where a name is needed. -/
  | missingIdentifier
  /-- Something else where a name is needed. -/
  | notIdentifier (found : String)
  deriving DecidableEq, Repr

/-- The wording of a fault. -/
def AnalysisFault.message : AnalysisFault → String
  | incompleteFunction => "function needs parameters, channels and a body"
  | missingObject => "method call without an object"
  | missingTarget => "assignment without a target"
  | externNotIdentifier => "extern expects identifiers"
  | missingIdentifier => "expected an identifier"
  | notIdentifier found => "expected an identifier, found '" ++ found ++ "'"

/-- A node that cannot be analysed. -/
structure AnalysisError where
  /-- What is wrong. -/
  fault : AnalysisFault
  /-- Where the node stands. -/
  position : Position
  deriving DecidableEq, Repr

/-- The wording of an error with its place. -/
def AnalysisError.message (e : AnalysisError) : String :=
  e.position.report e.fault.message

namespace Node

mutual

/-- The names in a list of parameters or channels, whose items may be lists again. -/
def nameList : Node → Except AnalysisError (List String)
  | ⟨kind, literal, position, children⟩ =>
    match kind with
    | .identifier => .ok [literal]
    | .comma | .leftBracket | .leftParen => nameLists children
    | _ => .error ⟨.notIdentifier literal, position⟩

/-- The names in several such lists. -/
def nameLists : List Node → Except AnalysisError (List String)
  | [] => .ok []
  | node :: rest => do return (← nameList node) ++ (← nameLists rest)

end

/-- The leftmost name of an expression of accesses: `a` for `a[b]` and for `a.b.c[2]`. -/
def leftmostName : Node → Except AnalysisError String
  | ⟨kind, literal, position, children⟩ =>
    match kind with
    | .identifier => .ok literal
    | .period | .leftBracket =>
      match children with
      | [] => .error ⟨.missingIdentifier, position⟩
      | first :: _ => leftmostName first
    | _ => .error ⟨.notIdentifier literal, position⟩

/-- The name that a declaration gives. -/
def declaredName (node : Node) : Except AnalysisError String :=
  if node.kind = .identifier then .ok node.literal
  else .error ⟨.externNotIdentifier, node.position⟩

end Node

/-- A function of a program. -/
structure FunctionSite where
  /-- The way to its node. -/
  path : Path
  /-- Its analysis. -/
  analysis : Analysis
  /-- The functions directly inside. -/
  inner : List FunctionSite

/-- What a stretch of a body mentions, and the functions directly inside it. -/
structure Survey where
  /-- The names. -/
  mentions : Mentions
  /-- The functions, in the order of the source. -/
  sites : List FunctionSite

namespace Survey

/-- The survey of nothing. -/
def empty : Survey := ⟨.none, []⟩

/-- The surveys of two stretches together. -/
def append (a b : Survey) : Survey := ⟨a.mentions ++ b.mentions, a.sites ++ b.sites⟩

instance : Append Survey := ⟨append⟩

/-- Names that are assigned. -/
def ofAssigned (names : List String) : Survey :=
  ⟨{ Mentions.none with assigned := .ofList names }, []⟩

/-- Names that are declared to belong outside. -/
def ofExterns (names : List String) : Survey :=
  ⟨{ Mentions.none with externs := .ofList names }, []⟩

/-- A name that is mentioned. -/
def ofIdentifier (name : String) : Survey :=
  ⟨{ Mentions.none with identifiers := .ofList [name] }, []⟩

/-- A function with the survey of its body. -/
def ofFunction (path : Path) (parameters channels : List String) (body : Survey) : Survey :=
  let analysis := Analysis.ofMentions parameters channels body.mentions
  ⟨{ Mentions.none with nested := analysis.captures }, [⟨path, analysis, body.sites⟩]⟩

end Survey

namespace Node

mutual

/-- The survey of the node at `path`. A field is no mention of a name, and of the object of a method
call only the leftmost name counts. -/
def survey (path : Path) : Node → Except AnalysisError Survey
  | ⟨kind, literal, position, children⟩ =>
    match kind with
    | .funcWord =>
      match children with
      | parameters :: channels :: body :: _ => do
        let parameters ← parameters.nameList
        let channels ← channels.nameList
        return .ofFunction path parameters channels (← survey (2 :: path) body)
      | _ => .error ⟨.incompleteFunction, position⟩
    | .methodCall =>
      match children with
      | [] => .error ⟨.missingObject, position⟩
      | [object] => return .ofIdentifier (← object.leftmostName)
      | object :: _ :: arguments => do
        let name ← object.leftmostName
        return .ofIdentifier name ++ (← surveys path 2 arguments)
    | .assign | .default | .accumulate =>
      match children with
      | [] => .error ⟨.missingTarget, position⟩
      | target :: _ => do
        let names ← target.listed.mapM leftmostName
        return .ofAssigned names ++ (← surveys path 0 children)
    | .externWord => do
      let names ← children.mapM declaredName
      return .ofExterns names ++ (← surveys path 0 children)
    | .identifier => return .ofIdentifier literal ++ (← surveys path 0 children)
    | .period =>
      match children with
      | [] => .ok .empty
      | object :: _ => survey (0 :: path) object
    | _ => surveys path 0 children

/-- The survey of children of the node at `path`, the first of them number `index`. -/
def surveys (path : Path) (index : Nat) : List Node → Except AnalysisError Survey
  | [] => .ok .empty
  | node :: rest => do
    let first ← survey (index :: path) node
    return first ++ (← surveys path (index + 1) rest)

end

end Node

/-- A function of a program with its surroundings. -/
structure FunctionEntry extends PlacedAnalysis where
  /-- The way to its node. -/
  path : Path
  /-- The number of the function around it; there is none at the top level. -/
  parent : Option Nat

namespace FunctionSite

mutual

/-- A function and all functions inside it. The first is numbered `index`, and each function comes
before those inside it. -/
def entries (outer : List Analysis) (parent : Option Nat) (index : Nat) :
    FunctionSite → List FunctionEntry
  | ⟨path, analysis, inner⟩ =>
    ⟨⟨analysis, outer⟩, path, parent⟩ ::
      entriesAll (analysis :: outer) (some index) (index + 1) inner

/-- Several functions with all functions inside them. -/
def entriesAll (outer : List Analysis) (parent : Option Nat) (index : Nat) :
    List FunctionSite → List FunctionEntry
  | [] => []
  | site :: rest =>
    let first := entries outer parent index site
    first ++ entriesAll outer parent (index + first.length) rest

end

end FunctionSite

/-- A tree with the analyses of its top level and of its functions. -/
structure Program where
  /-- The tree. -/
  root : Node
  /-- The analysis of what is in no function. -/
  top : Analysis
  /-- The functions at the top level. -/
  sites : List FunctionSite

namespace Program

/-- The analysed program of a tree. -/
def ofNode (root : Node) : Except AnalysisError Program := do
  let s ← root.survey []
  return ⟨root, .ofMentions [] [] s.mentions, s.sites⟩

/-- The top level among its surroundings, of which there are none. -/
def outermost (p : Program) : PlacedAnalysis :=
  ⟨p.top, []⟩

/-- All functions in the order of the source. -/
def functions (p : Program) : List FunctionEntry :=
  FunctionSite.entriesAll [p.top] none 0 p.sites

/-- The analysis of the function at `path`. -/
def analysis? (p : Program) (path : Path) : Option Analysis :=
  (p.functions.find? (·.path = path)).map (·.analysis)

/-- The names that nothing binds and that are not known otherwise, function by function. -/
def warnings (p : Program) (known : List String) : List String :=
  (p.outermost :: p.functions.map (·.toPlacedAnalysis)).flatMap fun a =>
    a.missing.filter fun name => !known.contains name

end Program

end Scripting
