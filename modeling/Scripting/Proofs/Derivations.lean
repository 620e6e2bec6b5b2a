import Scripting.Proofs.Readers

/-!
# Proofs: derivations of trees

Which tokens a reader takes and which nodes it makes of them is one relation, `Node.Derives`, with a
rule for each construct. Precedence and the separators between statements are no part of it: a
derivation says how a row of tokens was taken, not why the readers stopped behind it. One walk over
the readers shows that whatever they give is derived. What holds of all parsed trees and their
tokens is then an induction on derivations.
-/

namespace Scripting

namespace Kind

/-- The kinds of tokens that are expressions by themselves. -/
def leaves : List Kind :=
  [identifier, int, float, string, trueWord, falseWord, nilWord, breakWord, continueWord]

/-- The kinds of the operators between two operands that become a node with both. -/
def binary : List Kind :=
  [assign, default, accumulate, and, or, plus, minus, times, divide, modulo, equal, notEqual, less,
    lessEqual, greater, greaterEqual]

/-- The kinds of the brackets that close a list. -/
def closers : List Kind :=
  [rightParen, rightBracket]

end Kind

namespace Node

/-- What the readers read: expressions, rows of them and the parts of constructs. -/
inductive Phrase where
  /-- An expression, which is one node. -/
  | expression
  /-- The statements of a block or of a program. -/
  | statements
  /-- One item or more with commas between them. -/
  | items
  /-- Items, if there are any, and the token that closes them. -/
  | listed (closer : Kind)
  /-- A block in braces. -/
  | block
  /-- The branches of a conditional behind its first block. -/
  | alternatives
  /-- The channels of a function, if it has any. -/
  | channels

/-- The tokens are read as the nodes. A block stands where the first token behind its brace does,
and the channels of a function stand where the first token behind its parameters does. -/
inductive Derives : Phrase → List Token → List Node → Prop
  -- What a token can begin.
  | leaf {t : Token} (hkind : t.kind ∈ Kind.leaves) : Derives .expression [t] [ofToken t []]
  | unit {t close : Token} (hkind : t.kind = .leftParen) (hclose : close.kind = .rightParen) :
    Derives .expression [t, close] [ofToken t []]
  | group {t close : Token} {taken node} (hkind : t.kind = .leftParen)
    (hclose : close.kind = .rightParen) (h : Derives .expression taken [node]) :
    Derives .expression (t :: (taken ++ [close])) [node]
  | sign {t : Token} {taken operand} (hkind : t.kind = .not ∨ t.kind = .minus)
    (h : Derives .expression taken [operand]) :
    Derives .expression (t :: taken) [ofToken t [operand]]
  | bareReturn {t : Token} (hkind : t.kind = .returnWord) : Derives .expression [t] [ofToken t []]
  | valueReturn {t : Token} {taken operand} (hkind : t.kind = .returnWord)
    (h : Derives .expression taken [operand]) :
    Derives .expression (t :: taken) [ofToken t [operand]]
  | declaration {t : Token} {taken children} (hkind : t.kind = .externWord)
    (h : Derives .items taken children) : Derives .expression (t :: taken) [ofToken t children]
  | function {t bracket first : Token} {p c b parameters channels body}
    (hkind : t.kind = .funcWord) (hbracket : bracket.kind = .leftParen)
    (hparameters : Derives (.listed .rightParen) p parameters)
    (hchannels : Derives .channels c channels) (hbody : Derives .block b [body])
    (hfirst : (c ++ b).head? = some first) :
    Derives .expression (t :: bracket :: (p ++ (c ++ b)))
      [ofToken t [⟨.leftParen, "params", bracket.position, parameters⟩,
        ⟨.leftBracket, "channels", first.position, channels⟩, body]]
  | conditional {t : Token} {c b r condition body rest} (hkind : t.kind = .ifWord)
    (hcondition : Derives .expression c [condition]) (hbody : Derives .block b [body])
    (hrest : Derives .alternatives r rest) :
    Derives .expression (t :: (c ++ (b ++ r))) [ofToken t (condition :: body :: rest)]
  | loop {t : Token} {c b condition body} (hkind : t.kind = .whileWord)
    (hcondition : Derives .expression c [condition]) (hbody : Derives .block b [body]) :
    Derives .expression (t :: (c ++ b)) [ofToken t [condition, body]]
  -- What a token can add to an expression.
  | operation {t : Token} {l r left right} (hkind : t.kind ∈ Kind.binary)
    (hleft : Derives .expression l [left]) (hright : Derives .expression r [right]) :
    Derives .expression (l ++ t :: r) [ofToken t [left, right]]
  | comma {t : Token} {l r left item} (hkind : t.kind = .comma)
    (hleft : Derives .expression l [left]) (hitem : Derives .expression r [item]) :
    Derives .expression (l ++ t :: r) [ofToken t (commaItems left ++ [item])]
  | application {t : Token} {l r callee arguments} (hkind : t.kind = .leftParen)
    (hcallee : Derives .expression l [callee])
    (harguments : Derives (.listed .rightParen) r arguments) :
    Derives .expression (l ++ t :: r) [applied t callee arguments]
  | index {t close : Token} {l r left inner} (hkind : t.kind = .leftBracket)
    (hclose : close.kind = .rightBracket) (hleft : Derives .expression l [left])
    (hinner : Derives .expression r [inner]) :
    Derives .expression (l ++ t :: (r ++ [close])) [ofToken t [left, inner]]
  | field {t name : Token} {l left} (hkind : t.kind = .period) (hname : name.kind = .identifier)
    (hleft : Derives .expression l [left]) :
    Derives .expression (l ++ [t, name]) [ofToken t [left, ofToken name []]]
  -- Rows of expressions.
  | item {taken node} (h : Derives .expression taken [node]) : Derives .items taken [node]
  | moreItems {t : Token} {taken node more nodes} (hkind : t.kind = .comma)
    (h : Derives .expression taken [node]) (hmore : Derives .items more nodes) :
    Derives .items (taken ++ t :: more) (node :: nodes)
  | emptyList {close : Token} {closer} (hcloser : closer ∈ Kind.closers)
    (hclose : close.kind = closer) : Derives (.listed closer) [close] []
  | list {close : Token} {closer taken nodes} (hcloser : closer ∈ Kind.closers)
    (hclose : close.kind = closer) (h : Derives .items taken nodes) :
    Derives (.listed closer) (taken ++ [close]) nodes
  | nothing : Derives .statements [] []
  | semicolon {t : Token} {taken nodes} (hkind : t.kind = .semicolon)
    (h : Derives .statements taken nodes) : Derives .statements (t :: taken) nodes
  | statement {taken node more nodes} (h : Derives .expression taken [node])
    (hmore : Derives .statements more nodes) : Derives .statements (taken ++ more) (node :: nodes)
  -- Parts of constructs.
  | block {t close first : Token} {taken nodes} (hkind : t.kind = .leftBrace)
    (hclose : close.kind = .rightBrace) (h : Derives .statements taken nodes)
    (hfirst : (taken ++ [close]).head? = some first) :
    Derives .block (t :: (taken ++ [close]))
      [⟨.statements, Kind.statements.name, first.position, nodes⟩]
  | noBranch : Derives .alternatives [] []
  | lastBranch {t : Token} {taken body} (hkind : t.kind = .elseWord)
    (h : Derives .block taken [body]) : Derives .alternatives (t :: taken) [body]
  | branch {t t' : Token} {c b r condition body rest} (hkind : t.kind = .elseWord)
    (hkind' : t'.kind = .ifWord) (hcondition : Derives .expression c [condition])
    (hbody : Derives .block b [body]) (hrest : Derives .alternatives r rest) :
    Derives .alternatives (t :: t' :: (c ++ (b ++ r))) (condition :: body :: rest)
  | noChannels : Derives .channels [] []
  | someChannels {t : Token} {taken nodes} (hkind : t.kind = .leftBracket)
    (h : Derives (.listed .rightBracket) taken nodes) : Derives .channels (t :: taken) nodes

open Token

variable {taken : List Token} {nodes : List Node}

theorem Derives.skip {blank : List Token} (hblank : ∀ t ∈ blank, t.kind = .semicolon)
    (h : Derives .statements taken nodes) : Derives .statements (blank ++ taken) nodes := by
  induction blank with
  | nil => exact h
  | cons t blank ih =>
    obtain ⟨ht, hblank⟩ := List.forall_mem_cons.1 hblank
    exact .semicolon ht (ih hblank)

/-! ## How phrases end -/

/-- An expression ends with a token that can end one. So does each part of it, if it has tokens. -/
def Phrase.Ends : Phrase → List Token → Prop
  | .statements, _ => True
  | .alternatives, taken | .channels, taken => taken ≠ [] → Token.CanEnd taken
  | _, taken => Token.CanEnd taken

theorem Derives.ends {phrase : Phrase} (h : Derives phrase taken nodes) : phrase.Ends taken := by
  have hsingle : ∀ {t : Token} {kind : Kind}, t.kind = kind → kind.endsExpression = true →
      CanEnd [t] := fun h hends => canEnd_singleton (h ▸ hends)
  have hcloses : ∀ kind ∈ Kind.closers, kind.endsExpression = true := by decide
  have hleaves : ∀ kind ∈ Kind.leaves, kind.endsExpression = true := by decide
  induction h with
  | leaf hkind => exact hsingle rfl (hleaves _ hkind)
  | bareReturn hkind => exact hsingle hkind rfl
  | unit _ hclose => exact (hsingle hclose rfl).cons _
  | group _ hclose => exact ((hsingle hclose rfl).append_left _).cons _
  | sign _ _ ih | valueReturn _ _ ih | declaration _ _ ih => exact CanEnd.cons ih _
  | function _ _ _ _ _ _ _ _ ih =>
    exact (((CanEnd.append_left ih _).append_left _).cons _).cons _
  | conditional _ _ _ _ _ ih ihrest => exact ((CanEnd.append ih ihrest).append_left _).cons _
  | loop _ _ _ _ ih => exact (CanEnd.append_left ih _).cons _
  | operation _ _ _ _ ih | comma _ _ _ _ ih | application _ _ _ _ ih | moreItems _ _ _ _ ih =>
    exact (CanEnd.cons ih _).append_left _
  | index _ hclose => exact (((hsingle hclose rfl).append_left _).cons _).append_left _
  | field _ hname => exact ((hsingle hname rfl).cons _).append_left _
  | item _ ih => exact ih
  | emptyList hcloser hclose => exact hsingle hclose (hcloses _ hcloser)
  | list hcloser hclose => exact (hsingle hclose (hcloses _ hcloser)).append_left _
  | nothing | semicolon | statement => trivial
  | block _ hclose => exact ((hsingle hclose rfl).append_left _).cons _
  | noBranch | noChannels => exact fun h => absurd rfl h
  | lastBranch _ _ ih | someChannels _ _ ih => exact fun _ => CanEnd.cons ih _
  | branch _ _ _ _ _ _ ih ihrest =>
    exact fun _ => (((CanEnd.append ih ihrest).append_left _).cons _).cons _

/-! ## The readers -/

open ParseM

section

variable {expr : Nat → ParseM Node} {before : List Token} {s : Stream}
  (hexpr : ∀ {power before s}, Takes before (expr power) s fun taken node =>
    Derives .expression taken [node])
include hexpr

/-- A separator is wanted right behind an expression. -/
theorem takes_statements (closer : Option Kind) (fuel : Nat) :
    Takes before (statements expr closer fuel) s (Derives .statements) := by
  induction fuel generalizing before s with
  | zero => exact takes_exhausted
  | succ fuel ih =>
    unfold statements
    refine takes_skipSemicolons.bind fun blank _ s₁ _ hblank => takes_get ?_
    split
    · exact takes_pure (Derives.nothing.skip hblank)
    · refine hexpr.bind fun taken statement s₂ _ hstatement => takes_get ?_
      split
      · have hended : CanEnd (before ++ blank ++ taken) := CanEnd.append_left hstatement.ends _
        refine (takes_expect fun _ => hended).discard.bind ?_
        rintro _ _ s₃ _ ⟨separator, hkind, rfl⟩
        refine ih.map fun more rest _ _ hrest => Derives.skip hblank ?_
        exact .statement hstatement (.semicolon hkind hrest)
      · exact ih.map fun more rest _ _ hrest =>
          Derives.skip hblank (.statement hstatement hrest)

theorem takes_items (fuel : Nat) : Takes before (items expr fuel) s (Derives .items) := by
  induction fuel generalizing before s with
  | zero => exact takes_exhausted
  | succ fuel ih =>
    unfold items
    refine hexpr.bind fun taken item s₁ _ hitem => takes_accept (fun t s₂ ht _ => ?_) ?_
    · exact ih.map fun more rest _ _ hrest => .moreItems ht hitem hrest
    · exact takes_pure (by simpa using Derives.item hitem)

theorem takes_enclosed {closer : Kind} (hcloser : closer ∈ Kind.closers)
    {expectation : Expectation} (hne : expectation ≠ .separator) (fuel : Nat) :
    Takes before (enclosed expr closer expectation fuel) s (Derives (.listed closer)) := by
  have hclosed : ∀ {before s} taken children, (∀ close : Token, close.kind = closer →
      Derives (.listed closer) (taken ++ [close]) children) → Takes before (do
        discard (expect closer expectation)
        return children) s fun more nodes => Derives (.listed closer) (taken ++ more) nodes := by
    intro before s taken children h
    refine (takes_expect fun hseparator => absurd hseparator hne).discard.map ?_
    rintro _ _ s' _ ⟨close, hkind, rfl⟩
    exact h close hkind
  unfold enclosed
  refine takes_startsWith ?_
  split
  · exact hclosed [] [] fun close hkind => .emptyList hcloser hkind
  · exact (takes_items hexpr fuel).bind fun taken children s' _ hchildren =>
      hclosed taken children fun close hkind => .list hcloser hkind hchildren

theorem takes_block (fuel : Nat) :
    Takes before (block expr fuel) s fun taken node => Derives .block taken [node] := by
  unfold block
  refine (takes_expect (by nofun)).discard.bind ?_
  rintro _ _ s₁ _ ⟨t, hkind, rfl⟩
  refine takes_peek ?_
  refine (takes_statements hexpr _ fuel).bind fun taken children s₂ hs₁ hchildren => ?_
  refine (takes_expect (by nofun)).discard.map ?_
  rintro _ _ s₃ hs₂ ⟨close, hclose, rfl⟩
  refine .block hkind hclose hchildren ?_
  -- The token looked at behind the brace is the first of those taken from there on.
  rw [hs₁, hs₂, ← Stream.prepend_append, Stream.head?_eq_some_head_prepend (by simp)]

theorem takes_alternatives (depth fuel : Nat) :
    Takes before (alternatives expr depth fuel) s (Derives .alternatives) := by
  induction fuel generalizing before s with
  | zero => exact takes_exhausted
  | succ fuel ih =>
    unfold alternatives
    refine takes_accept (fun t s₁ ht _ => takes_accept (fun t' s₂ ht' _ => ?_) ?_) ?_
    · refine hexpr.bind fun c condition s₃ _ hcondition => ?_
      refine (takes_block hexpr depth).bind fun b body s₄ _ hbody => ?_
      exact ih.map fun r rest _ _ hrest => .branch ht ht' hcondition hbody hrest
    · exact (takes_block hexpr depth).map fun b body _ _ hbody => .lastBranch ht hbody
    · exact takes_pure .noBranch

theorem takes_function (fuel : Nat) {t : Token} (ht : t.kind = .funcWord) :
    Takes before (function expr fuel) s fun taken children =>
      Derives .expression (t :: taken) [ofToken t children] := by
  unfold function
  refine (takes_expect (by nofun)).bind ?_
  rintro _ bracket s₁ _ ⟨hbracket, rfl⟩
  refine (takes_enclosed hexpr (by decide) (by nofun) fuel).bind ?_
  intro p parameters s₂ _ hparameters
  refine takes_peek ?_
  -- Both ways go on to the body, from where the place of the channels was looked up.
  have hrest : ∀ {before s c channels}, s₂ = s.prepend c → Derives .channels c channels →
      Takes before (do
        let body ← block expr fuel
        return [⟨.leftParen, "params", bracket.position, parameters⟩,
          ⟨.leftBracket, "channels", s₂.head.position, channels⟩, body]) s fun b children =>
        Derives .expression (t :: bracket :: (p ++ (c ++ b))) [ofToken t children] := by
    intro before s c channels hs hchannels
    refine (takes_block hexpr fuel).map fun b body s₃ hs₃ hbody => ?_
    refine .function ht hbracket hparameters hchannels hbody ?_
    have hne : c ++ b ≠ [] := List.append_ne_nil_of_right_ne_nil c (CanEnd.ne_nil hbody.ends)
    rw [hs, hs₃, ← Stream.prepend_append, Stream.head?_eq_some_head_prepend hne]
  refine takes_accept (fun t' s₃ ht' hs₂ => ?_) ?_
  · refine (takes_enclosed hexpr (by decide) (by nofun) fuel).bind ?_
    intro c channels s₄ hs₃ hchannels
    exact hrest (c := t' :: c) (hs₂.trans (hs₃ ▸ rfl)) (.someChannels ht' hchannels)
  · exact hrest (c := []) rfl .noChannels

/-- What a token begins is derived together with the token, which is not the end of the input. -/
theorem takes_start (fuel : Nat) {token : Token} (htoken : (s.prepend before).Has token) :
    Takes before (start expr fuel token) s fun taken node =>
      token.kind ≠ .finish ∧ Derives .expression (token :: taken) [node] := by
  have hone : ∀ power, (∀ taken node, Derives .expression taken [node] →
      Derives .expression (token :: taken) [ofToken token [node]]) → token.kind ≠ .finish →
      Takes before (do return ofToken token [← expr power]) s fun taken node =>
        token.kind ≠ .finish ∧ Derives .expression (token :: taken) [node] :=
    fun power h hne => hexpr.map fun taken node _ _ hnode => ⟨hne, h taken node hnode⟩
  obtain ⟨kind, lexeme, position⟩ := token
  unfold start
  cases kind with
  | identifier | int | float | string | trueWord | falseWord | nilWord | breakWord
  | continueWord => exact takes_pure ⟨nofun, .leaf (by simp [Kind.leaves])⟩
  | not => exact hone _ (fun _ _ => .sign (.inl rfl)) nofun
  | minus => exact hone _ (fun _ _ => .sign (.inr rfl)) nofun
  | leftParen =>
    refine takes_accept (fun close s₁ hclose _ => ?_) ?_
    · exact takes_pure ⟨nofun, .unit rfl hclose⟩
    · refine hexpr.bind fun taken inner s₁ _ hinner => ?_
      refine (takes_expect (by nofun)).discard.map ?_
      rintro _ _ s₂ _ ⟨close, hclose, rfl⟩
      exact ⟨nofun, .group rfl hclose hinner⟩
  | returnWord =>
    refine takes_peek ?_
    split
    · exact takes_pure ⟨nofun, .bareReturn rfl⟩
    · exact hone _ (fun _ _ => .valueReturn rfl) nofun
  | externWord =>
    exact (takes_items hexpr fuel).map fun taken children _ _ h =>
      ⟨nofun, .declaration rfl h⟩
  | funcWord => exact (takes_function hexpr fuel rfl).map fun taken children _ _ h => ⟨nofun, h⟩
  | ifWord =>
    refine hexpr.bind fun c condition s₁ _ hcondition => ?_
    refine (takes_block hexpr fuel).bind fun b body s₂ _ hbody => ?_
    exact (takes_alternatives hexpr fuel fuel).map fun r rest _ _ hrest =>
      ⟨nofun, .conditional rfl hcondition hbody hrest⟩
  | whileWord =>
    refine hexpr.bind fun c condition s₁ _ hcondition => ?_
    exact (takes_block hexpr fuel).map fun b body _ _ hbody =>
      ⟨nofun, .loop rfl hcondition hbody⟩
  | _ => exact takes_fail (by nofun) htoken

/-- An expression is derived anew with each operator. -/
theorem takes_extend (fuel : Nat) {token : Token} {l : List Token} {left : Node}
    (hpower : 0 < token.kind.bindingPower) (hleft : Derives .expression l [left]) :
    Takes before (extend expr fuel token left) s fun taken node =>
      Derives .expression (l ++ token :: taken) [node] := by
  have hbinary : token.kind ∈ Kind.binary → ∀ power,
      Takes before (do return ofToken token [left, ← expr power]) s fun taken node =>
        Derives .expression (l ++ token :: taken) [node] :=
    fun hkind power => hexpr.map fun r right _ _ hright =>
      .operation hkind hleft hright
  obtain ⟨kind, lexeme, position⟩ := token
  unfold extend
  cases kind with
  | assign | default | accumulate | and | or | plus | minus | times | divide | modulo | equal
  | notEqual | less | lessEqual | greater | greaterEqual => exact hbinary (by simp [Kind.binary]) _
  | comma => exact hexpr.map fun r item _ _ hitem => .comma rfl hleft hitem
  | leftParen =>
    exact (takes_enclosed hexpr (by decide) (by nofun) fuel).map fun r arguments _ _ h =>
      .application rfl hleft h
  | leftBracket =>
    refine hexpr.bind fun r inner s₁ _ hinner => ?_
    refine (takes_expect (by nofun)).discard.map ?_
    rintro _ _ s₂ _ ⟨close, hclose, rfl⟩
    exact .index rfl hclose hleft hinner
  | period =>
    refine (takes_expect (by nofun)).map ?_
    rintro _ name s₁ _ ⟨hname, rfl⟩
    exact .field rfl hname hleft
  | _ => exact absurd hpower (Nat.lt_irrefl 0)

theorem takes_operators (depth power fuel : Nat) {l : List Token} {left : Node}
    (hleft : Derives .expression l [left]) :
    Takes before (operators expr depth power fuel left) s fun taken node =>
      Derives .expression (l ++ taken) [node] := by
  induction fuel generalizing before s l left with
  | zero => exact takes_exhausted
  | succ fuel ih =>
    unfold operators
    refine takes_peek ?_
    split
    · next hpower =>
      refine takes_next (fun token s₁ hs => ?_) fun hrest hfinish => ?_
      · -- The token that is taken is the one that was looked at.
        have hpower : power < token.kind.bindingPower := by rwa [hs] at hpower
        refine (takes_extend hexpr depth (Nat.zero_lt_of_lt hpower) hleft).bind ?_
        exact fun taken extended s₂ _ hextended =>
          (ih hextended).mono fun more node h => by simpa using h
      · -- Nothing binds the end of the input.
        have hhead : s.head.kind = .finish := by rw [Stream.head, hrest]; exact hfinish
        rw [hhead] at hpower
        exact absurd hpower (Nat.not_lt_zero power)
    · exact takes_pure (by rwa [List.append_nil])

end

/-- Every expression that is read is derived from the tokens that are taken. -/
theorem takes_expression (fuel : Nat) {power : Nat} {before : List Token} {s : Stream} :
    Takes before (expression fuel power) s fun taken node => Derives .expression taken [node] := by
  induction fuel generalizing power before s with
  | zero => exact takes_exhausted
  | succ fuel ih =>
    unfold expression
    refine takes_next (fun token s₁ _ => ?_) fun _ hfinish => ?_
    · have htoken : token ∈ before ++ [token] ++ s₁.rest := by simp
      refine (takes_start ih fuel (.inl htoken)).bind fun taken left s₂ _ hleft => ?_
      exact takes_operators ih fuel power fuel hleft.2
    · exact (takes_start ih fuel (.inr rfl)).bind fun _ _ _ _ hleft => absurd hfinish hleft.1

theorem derives_of_expression {fuel power : Nat} {s s' : Stream} {node : Node}
    (h : expression fuel power s = .ok (node, s')) (hfinish : s.finish.kind = .finish) :
    ∃ taken, s = s'.prepend taken ∧ Derives .expression taken [node] := by
  have htakes : Takes [] (expression fuel power) s _ := takes_expression fuel
  exact htakes.ok hfinish h

/-! ## Whole programs -/

theorem takes_program (fuel : Nat) (s : Stream) :
    Takes [] (program fuel) s fun taken root => Derives .statements taken root.children := by
  unfold program
  exact takes_peek ((takes_statements (takes_expression fuel) none fuel).map
    fun taken children _ _ h => h)

/-- The parser is the reader of programs, given all tokens. -/
theorem ofTokens_eq (tokens : List Token) : ofTokens tokens =
    match program (tokens.length + 2) (Stream.ofTokens tokens) with
    | .ok (root, _) => .ok root
    | .error stop => .error stop := by
  unfold ofTokens StateT.run'
  cases program (tokens.length + 2) (Stream.ofTokens tokens) <;> rfl

/-- The tree of a source is a list of statements. -/
theorem statements_of_ofTokens {tokens : List Token} {root : Node}
    (h : ofTokens tokens = .ok root) : ∃ children s,
      root = ⟨.statements, Kind.statements.name, (Stream.ofTokens tokens).head.position,
        children⟩ ∧
      statements (expression (tokens.length + 2)) none (tokens.length + 2)
        (Stream.ofTokens tokens) = .ok (children, s) := by
  rw [ofTokens_eq] at h
  split at h
  · next root s hprogram =>
    cases h
    obtain ⟨first, _, ⟨⟩, hprogram⟩ := ParseM.ok_of_bind hprogram
    obtain ⟨children, _, hchildren, ⟨⟩⟩ := ParseM.ok_of_bind hprogram
    exact ⟨children, _, rfl, hchildren⟩
  · cases h

/-- A list of statements that no token closes goes on to the end of the input. -/
theorem rest_eq_nil_of_statements {expr : Nat → ParseM Node} (fuel : Nat) :
    ∀ {s s' : Stream} {nodes : List Node}, statements expr none fuel s = .ok (nodes, s') →
      s'.rest = [] := by
  induction fuel with
  | zero => exact fun h => nomatch h
  | succ fuel ih =>
    intro s s' nodes h
    unfold statements at h
    obtain ⟨_, s₁, _, h⟩ := ParseM.ok_of_bind h
    obtain ⟨_, _, ⟨⟩, h⟩ := ParseM.ok_of_bind h
    split at h
    · next hempty =>
      cases h
      simpa using hempty
    · obtain ⟨_, s₂, _, h⟩ := ParseM.ok_of_bind h
      obtain ⟨_, _, ⟨⟩, h⟩ := ParseM.ok_of_bind h
      obtain ⟨_, s₃, _, h⟩ := ParseM.ok_of_bind h
      obtain ⟨rest, _, hrest, h⟩ := ParseM.ok_of_bind h
      cases h
      exact ih hrest

/-- The tree of a row of tokens is derived from all of them. -/
theorem derives_of_ofTokens {tokens : List Token} {root : Node} (h : ofTokens tokens = .ok root) :
    ∃ children, Derives .statements (Stream.ofTokens tokens).rest children ∧ root =
      ⟨.statements, Kind.statements.name, (Stream.ofTokens tokens).head.position, children⟩ := by
  obtain ⟨children, s, hroot, hstatements⟩ := statements_of_ofTokens h
  have htakes : Takes [] (statements (expression (tokens.length + 2)) none (tokens.length + 2))
      (Stream.ofTokens tokens) (Derives .statements) :=
    takes_statements (takes_expression _) none _
  obtain ⟨taken, hs, hchildren⟩ := htakes.ok (Stream.kind_finish_ofTokens tokens) hstatements
  have hrest : (Stream.ofTokens tokens).rest = taken := by
    rw [hs, Stream.prepend, rest_eq_nil_of_statements _ hstatements, List.append_nil]
  exact ⟨children, hrest ▸ hchildren, hroot⟩

/-- What the parser misses, it misses in its tokens. -/
theorem misses_of_ofTokens {tokens : List Token} {e : ParseError}
    (h : ofTokens tokens = .error (.error e)) : e.Misses (Stream.ofTokens tokens) := by
  rw [ofTokens_eq] at h
  split at h
  · cases h
  · next stop hprogram =>
    cases h
    exact (takes_program _ _).misses (Stream.kind_finish_ofTokens tokens) hprogram

end Node

end Scripting
