import Scripting.Proofs.Acceptance
import Scripting.Proofs.AlikeAnalyses

/-!
# Proofs: the code of alike trees

Trees that are equal up to places have the same code up to places, wherever they stand in their
programs. A function brings its analysis along, since that depends on the function alone and not on
what is around it.
-/

namespace Scripting

/-! ## Code without places -/

namespace Code

/-- The code without places. -/
def erased : Code → Code
  | literal value => literal value
  | name x _ => name x .nowhere
  | nothing => nothing
  | sequence first rest => sequence first.erased rest.erased
  | both first rest => both first.erased rest.erased
  | assign targets value _ => assign targets value.erased .nowhere
  | accumulate target value _ => accumulate target value.erased .nowhere
  | default targets value _ => default targets value.erased .nowhere
  | unary op operand _ => unary op operand.erased .nowhere
  | binary op left right _ => binary op left.erased right.erased .nowhere
  | logical decides left right _ => logical decides left.erased right.erased .nowhere
  | branch condition yes no _ => branch condition.erased yes.erased no.erased .nowhere
  | loop condition body _ => loop condition.erased body.erased .nowhere
  | «return» operand => «return» operand.erased
  | «break» => «break»
  | «continue» => «continue»
  | function parameters channels locals free passed body _ =>
    function parameters channels locals free passed body.erased .nowhere
  | apply callee arguments _ => apply callee.erased arguments.erased .nowhere
  | primitive p => primitive p

theorem erased_statements (codes : List Code) :
    (statements codes).erased = statements (codes.map erased) := by
  induction codes with
  | nil => rfl
  | cons first rest ih =>
    cases rest with
    | nil => rfl
    | cons second rest => exact congrArg (sequence first.erased) ih

theorem erased_tuple (codes : List Code) : (tuple codes).erased = tuple (codes.map erased) := by
  induction codes with
  | nil => rfl
  | cons first rest ih =>
    cases rest with
    | nil => rfl
    | cons second rest => exact congrArg (both first.erased) ih

theorem erased_branches (position : Position) : ∀ codes : List Code,
    (branches position codes).erased = branches .nowhere (codes.map erased)
  | [] | [_] => rfl
  | condition :: block :: rest =>
    congrArg (branch condition.erased block.erased · .nowhere) (erased_branches position rest)

end Code

/-! ## Code of alike trees -/

/-- The node stands at the path in the analysed program of a parsed tree. -/
structure Program.Has (p : Program) (path : Path) (node : Node) : Prop where
  made : ofNode p.root = .ok p
  stands : p.root.at? path = some node
  ready : Node.Ready p.analysis? path node

namespace Program

variable {p p' : Program} {path path' : Path} {kind : Kind} {literal : String}
  {position : Position} {children : List Node}

theorem has_root {root : Node} (hshaped : root.Shaped) (hp : ofNode root = .ok p) :
    p.Has [] root := by
  obtain ⟨s, hs, -⟩ := bind_eq_ok_iff.1 hp
  have hroot := root_of_ofNode hp
  exact ⟨hroot ▸ hp, hroot ▸ rfl, hshaped, s, hs, fun q hq => analysis?_of_finds hs hp hq⟩

theorem Has.child (h : p.Has path ⟨kind, literal, position, children⟩)
    (hkind : kind ∉ [Kind.funcWord, .methodCall, .period]) {i : Nat} {child : Node}
    (hc : children[i]? = some child) : p.Has (i :: path) child :=
  ⟨h.made, Node.at?_child h.stands hc, h.ready.child hkind hc⟩

theorem Has.row (h : p.Has path ⟨kind, literal, position, children⟩)
    (hkind : kind ∉ [Kind.funcWord, .methodCall, .period]) (i : Nat) (child : Node)
    (hc : children[i]? = some child) : p.Has ((0 + i) :: path) child :=
  (Nat.zero_add i).symm ▸ h.child hkind hc

/-- Alike functions have the same analysis. -/
theorem Has.analysis_eq {p p' : Program} {path path' : Path} {position position' : Position}
    {parameters channels body parameters' channels' body' : Node}
    (h : p.Has path ⟨.funcWord, literal, position, [parameters, channels, body]⟩)
    (h' : p'.Has path' ⟨.funcWord, literal, position', [parameters', channels', body']⟩)
    (hparameters : parameters.Alike parameters') (hchannels : channels.Alike channels')
    (hbody : body.Alike body') :
    ∃ a, p.analysis? path = some a ∧ p'.analysis? path' = some a ∧ p.Has (2 :: path) body ∧
      p'.Has (2 :: path') body' := by
  obtain ⟨_, _, _, a, e, ha, hready⟩ := h.ready.function
  cases e
  obtain ⟨_, _, _, a', e, ha', hready'⟩ := h'.ready.function
  cases e
  obtain ⟨-, _, _, hfun⟩ := functionAt_of_analysis? h.made ha
  obtain ⟨-, _, _, hfun'⟩ := functionAt_of_analysis? h'.made ha'
  cases hfun.analysis_eq hfun' h.stands h'.stands
    (.cons hparameters.readsAs (.cons hchannels.readsAs (.cons hbody.readsAs .nil)))
  exact ⟨a, ha, ha', ⟨h.made, Node.at?_child h.stands rfl, hready⟩,
    ⟨h'.made, Node.at?_child h'.stands rfl, hready'⟩⟩

end Program

namespace Node

variable {p p' : Program} {node node' : Node}

/-- A name is taken where a node is an identifier. -/
theorem Alike.name {ε : Type} {e e' : ε} (h : node.Alike node') :
    Matches id (if node.kind = .identifier then .ok node.literal else .error e)
      (if node'.kind = .identifier then .ok node'.literal else .error e') := by
  rw [h.kind, h.literal]
  split
  · exact matches_ok rfl
  · exact matches_error

theorem Alike.targets (h : node.Alike node') {operator : Kind} {position position' : Position}
    {rest rest' : List Node} : Matches id (targets operator position (node :: rest))
      (targets operator position' (node' :: rest')) :=
  matches_mapM h.listed fun _ _ h => h.name

theorem number_alike {kind : Kind} {literal : String} {position position' : Position} :
    Matches Code.erased (number kind literal position) (number kind literal position') := by
  intro code h
  obtain ⟨value, rfl⟩ := literal_of_number h
  refine ⟨_, ?_, rfl⟩
  unfold number at h ⊢
  split at h
  all_goals
    split at h
    · exact h
    · cases h

/-- Where the trees stand in the programs, they have the same code up to places. -/
def CompilesAs (p p' : Program) (node node' : Node) : Prop :=
  ∀ inLoop path path', p.Has path node → p'.Has path' node' →
    Matches Code.erased (node.compile p.analysis? inLoop path)
      (node'.compile p'.analysis? inLoop path')

theorem matches_compileAll (inLoop : Bool) {path path' : Path} {nodes nodes' : List Node}
    (h : List.Forall₂ (CompilesAs p p') nodes nodes') : ∀ index index' : Nat,
      (∀ (i : Nat) (child : Node), nodes[i]? = some child → p.Has ((index + i) :: path) child) →
      (∀ (i : Nat) (child : Node), nodes'[i]? = some child → p'.Has ((index' + i) :: path') child) →
        Matches (List.map Code.erased) (compileAll p.analysis? inLoop path index nodes)
          (compileAll p'.analysis? inLoop path' index' nodes') := by
  induction h with
  | nil =>
    intro index index' _ _
    rw [compileAll, compileAll]
    exact matches_ok rfl
  | cons hfirst _ ih =>
    intro index index' hn hn'
    rw [compileAll, compileAll]
    refine (hfirst inLoop _ _ (hn 0 _ rfl) (hn' 0 _ rfl)).bind fun code code' hcode => ?_
    refine (ih _ _ ?_ ?_).map fun codes codes' hcodes => congrArg₂ List.cons hcode hcodes
    · exact fun i child hc => Nat.add_right_comm index 1 i ▸ hn (i + 1) child hc
    · exact fun i child hc => Nat.add_right_comm index' 1 i ▸ hn' (i + 1) child hc

/-- Alike trees have alike code. -/
theorem Alike.compilesAs (h : node.Alike node') : CompilesAs p p' node node' := by
  refine Alike.induct ?_ h
  intro kind literal position position' children children' hchildren inLoop path path' hp hp'
  have hchild : kind ∉ [Kind.funcWord, .methodCall, .period] → ∀ {inLoop : Bool} (i : Nat)
      {child child' : Node}, child.Alike child' ∧ CompilesAs p p' child child' →
        children[i]? = some child → children'[i]? = some child' →
          Matches Code.erased (child.compile p.analysis? inLoop (i :: path))
            (child'.compile p'.analysis? inLoop (i :: path')) :=
    fun hkind _ i _ _ h hc hc' => h.2 _ _ _ (hp.child hkind hc) (hp'.child hkind hc')
  have hall : kind ∉ [Kind.funcWord, .methodCall, .period] →
      Matches (List.map Code.erased) (compileAll p.analysis? inLoop path 0 children)
        (compileAll p'.analysis? inLoop path' 0 children') := by
    intro hkind
    exact matches_compileAll inLoop (hchildren.imp fun _ _ h => h.2) 0 0 (hp.row hkind)
      (hp'.row hkind)
  obtain ⟨-, htakes⟩ := hp.ready.shaped.self
  cases kind with
  | int =>
    rw [compile_int, compile_int]
    exact number_alike
  | float =>
    rw [compile_float, compile_float]
    exact number_alike
  | string | trueWord | falseWord | nilWord =>
    rw [compile_constant rfl, compile_constant rfl]
    exact matches_ok rfl
  | identifier =>
    rw [compile_identifier, compile_identifier]
    exact matches_ok rfl
  | statements =>
    rw [compile_statements, compile_statements]
    refine (hall (by decide)).map fun codes codes' hcodes => ?_
    rw [Code.erased_statements, Code.erased_statements, hcodes]
  | comma | leftParen =>
    rw [compile_tuple (by decide), compile_tuple (by decide)]
    refine (hall (by decide)).map fun codes codes' hcodes => ?_
    rw [Code.erased_tuple, Code.erased_tuple, hcodes]
  | assign =>
    match hchildren, htakes with
    | .cons htarget (.cons hvalue .nil), _ =>
      rw [compile_assign, compile_assign]
      refine htarget.1.targets.bind fun names names' hnames => ?_
      cases hnames
      refine (hchild (by decide) 1 hvalue rfl rfl).map ?_
      exact fun code code' hcode => congrArg (Code.assign names · .nowhere) hcode
  | default =>
    match hchildren, htakes with
    | .cons htarget (.cons hvalue .nil), _ =>
      rw [compile_default, compile_default]
      refine htarget.1.targets.bind fun names names' hnames => ?_
      cases hnames
      refine (hchild (by decide) 1 hvalue rfl rfl).map ?_
      exact fun code code' hcode => congrArg (Code.default names · .nowhere) hcode
  | accumulate =>
    match hchildren, htakes with
    | .cons (a := target) (b := target') htarget (.cons hvalue .nil), _ =>
      obtain ⟨kind, name, place, below⟩ := target
      obtain ⟨kind', name', place', below'⟩ := target'
      obtain ⟨rfl, rfl, -⟩ := erased_eq_iff.1 htarget.1
      by_cases hkind : kind = .identifier
      · subst hkind
        rw [compile_accumulation, compile_accumulation]
        refine (hchild (by decide) 1 hvalue rfl rfl).map ?_
        exact fun code code' hcode => congrArg (Code.accumulate name · .nowhere) hcode
      · intro code hcode
        exact absurd (compiles_accumulate_iff.1 ⟨code, hcode⟩).1 hkind
  | and | or =>
    match hchildren, htakes with
    | .cons hleft (.cons hright .nil), _ =>
      rw [compile_logical (by decide), compile_logical (by decide)]
      refine (hchild (by decide) 0 hleft rfl rfl).bind fun left left' hl => ?_
      refine (hchild (by decide) 1 hright rfl rfl).map ?_
      exact fun right right' hr => congrArg₂ (Code.logical _ · · .nowhere) hl hr
  | plus | times | divide | modulo | equal | notEqual | less | lessEqual | greater
  | greaterEqual =>
    match hchildren, htakes with
    | .cons hleft (.cons hright .nil), _ =>
      rw [compile_binary rfl, compile_binary rfl]
      refine (hchild (by decide) 0 hleft rfl rfl).bind fun left left' hl => ?_
      refine (hchild (by decide) 1 hright rfl rfl).map ?_
      exact fun right right' hr => congrArg₂ (Code.binary _ · · .nowhere) hl hr
  | not =>
    match hchildren, htakes with
    | .cons hoperand .nil, _ =>
      rw [compile_not, compile_not]
      refine (hchild (by decide) 0 hoperand rfl rfl).map ?_
      exact fun code code' hcode => congrArg (Code.unary .not · .nowhere) hcode
  | minus =>
    match hchildren, htakes with
    | .cons hoperand .nil, _ =>
      rw [compile_negate, compile_negate]
      refine (hchild (by decide) 0 hoperand rfl rfl).map ?_
      exact fun code code' hcode => congrArg (Code.unary .negate · .nowhere) hcode
    | .cons hleft (.cons hright .nil), _ =>
      rw [compile_binary rfl, compile_binary rfl]
      refine (hchild (by decide) 0 hleft rfl rfl).bind fun left left' hl => ?_
      refine (hchild (by decide) 1 hright rfl rfl).map ?_
      exact fun right right' hr => congrArg₂ (Code.binary _ · · .nowhere) hl hr
  | returnWord =>
    match hchildren, htakes with
    | .nil, _ =>
      rw [compile_return_nothing, compile_return_nothing]
      exact matches_ok rfl
    | .cons hoperand .nil, _ =>
      rw [compile_return, compile_return]
      refine (hchild (by decide) 0 hoperand rfl rfl).map ?_
      exact fun code code' hcode => congrArg Code.return hcode
  | ifWord =>
    intro code hcode
    obtain ⟨codes, hcodes⟩ := (compiles_branches_iff htakes).1 ⟨code, hcode⟩
    obtain ⟨codes', hcodes', heq⟩ := hall (by decide) codes hcodes
    have hlength : codes.length = codes'.length := by simpa using congrArg List.length heq
    have htwo : 2 ≤ codes.length := length_of_compileAll hcodes ▸ htakes
    cases (compile_branches hcodes htwo).symm.trans hcode
    refine ⟨_, compile_branches hcodes' (hlength ▸ htwo), ?_⟩
    rw [Code.erased_branches, Code.erased_branches, heq]
  | whileWord =>
    match hchildren, htakes with
    | .cons hcondition (.cons hbody .nil), _ =>
      rw [compile_loop, compile_loop]
      refine (hchild (by decide) 0 hcondition rfl rfl).bind fun condition condition' hc => ?_
      refine (hchild (by decide) 1 hbody rfl rfl).map ?_
      exact fun body body' hb => congrArg₂ (Code.loop · · .nowhere) hc hb
  | breakWord =>
    rw [compile_break, compile_break]
    split
    · exact matches_ok rfl
    · exact matches_error
  | continueWord =>
    rw [compile_continue, compile_continue]
    split
    · exact matches_ok rfl
    · exact matches_error
  | externWord =>
    rw [compile_declared, compile_declared]
    exact matches_ok rfl
  | funcWord =>
    match hchildren, htakes with
    | .cons hparameters (.cons hchannels (.cons hbody .nil)), _ =>
      obtain ⟨a, ha, ha', hin, hin'⟩ :=
        hp.analysis_eq hp' hparameters.1 hchannels.1 hbody.1
      rw [compile_function ha, compile_function ha']
      refine (hbody.2 _ _ _ hin hin').map fun code code' hcode => ?_
      exact congrArg (Code.function _ _ _ _ _ · .nowhere) hcode
  | application =>
    match hchildren, htakes with
    | .cons hcallee harguments, _ =>
      rw [compile_apply, compile_apply]
      refine (hchild (by decide) 0 hcallee rfl rfl).bind fun callee callee' hc => ?_
      refine (matches_compileAll inLoop (harguments.imp fun _ _ h => h.2) 1 1 ?_ ?_).map
        fun codes codes' hcodes => ?_
      · exact fun i child hi => hp.child (by decide) (Nat.add_comm 1 i ▸ hi)
      · exact fun i child hi => hp'.child (by decide) (Nat.add_comm 1 i ▸ hi)
      · show Code.apply callee.erased (Code.tuple codes).erased .nowhere =
          Code.apply callee'.erased (Code.tuple codes').erased .nowhere
        rw [hc, Code.erased_tuple, Code.erased_tuple, hcodes]
  | _ =>
    rw [compile_refused (by decide)]
    exact matches_error

/-- Nodes that follow others are surveyed after them. -/
theorem surveys_append {path : Path} {nodes' : List Node} {s' : Survey} {nodes : List Node} :
    ∀ {index : Nat} {s : Survey}, surveys path index nodes = .ok s →
      surveys path (index + nodes.length) nodes' = .ok s' →
        ∃ t, surveys path index (nodes ++ nodes') = .ok t := by
  induction nodes with
  | nil => exact fun _ h' => ⟨s', h'⟩
  | cons first rest ih =>
    intro index s h h'
    obtain ⟨a, b, ha, hb, -⟩ := surveys_cons h
    rw [List.length_cons, ← Nat.add_assoc, Nat.add_right_comm] at h'
    obtain ⟨t, ht⟩ := ih hb h'
    rw [List.cons_append, surveys, ha]
    exact ⟨a ++ t, bind_eq_ok_iff.2 ⟨a, rfl, bind_eq_ok_iff.2 ⟨t, ht, rfl⟩⟩⟩

/-- Nodes that follow others are compiled after them. -/
theorem compileAll_append {analysis? : Path → Option Analysis} {inLoop : Bool} {path : Path}
    {nodes' : List Node} {codes' : List Code} {nodes : List Node} :
    ∀ {index : Nat} {codes : List Code}, compileAll analysis? inLoop path index nodes = .ok codes →
      compileAll analysis? inLoop path (index + nodes.length) nodes' = .ok codes' →
        compileAll analysis? inLoop path index (nodes ++ nodes') = .ok (codes ++ codes') := by
  induction nodes with
  | nil =>
    intro index codes h h'
    rw [compileAll] at h
    cases h
    exact h'
  | cons first rest ih =>
    intro index codes h h'
    rw [compileAll] at h
    obtain ⟨a, ha, h⟩ := bind_eq_ok_iff.1 h
    obtain ⟨b, hb, h⟩ := bind_eq_ok_iff.1 h
    cases h
    rw [List.length_cons, ← Nat.add_assoc, Nat.add_right_comm] at h'
    rw [List.cons_append, compileAll, ha]
    exact bind_eq_ok_iff.2 ⟨a, rfl, bind_eq_ok_iff.2 ⟨b ++ codes', ih hb h', rfl⟩⟩

theorem survey_statements {path : Path} {literal : String} {position : Position}
    {children : List Node} :
    survey path ⟨.statements, literal, position, children⟩ = surveys path 0 children :=
  rfl

end Node

namespace Program

variable {p₁ p₂ : Program} {literal : String} {place place' joined : Position}
  {children children' nodes : List Node} {code₁ code₂ : Code}

/-- The code of a list of statements, node by node. -/
theorem codes_of_compile {p : Program} {code : Code}
    (hp : ofNode ⟨.statements, literal, place, children⟩ = .ok p) (h : p.compile = .ok code) :
    ∃ codes, Node.compileAll p.analysis? false [] 0 children = .ok codes ∧
      code = .statements codes := by
  rw [compile_eq hp, Node.compile_statements] at h
  obtain ⟨codes, hcodes, h⟩ := bind_eq_ok_iff.1 h
  cases h
  exact ⟨codes, hcodes, rfl⟩

/-- The statements of two programs together are a program, whose code is that of the first and then
that of the second. -/
theorem compile_join (hshaped₁ : Node.Shaped ⟨.statements, literal, place, children⟩)
    (hp₁ : ofNode ⟨.statements, literal, place, children⟩ = .ok p₁) (h₁ : p₁.compile = .ok code₁)
    (hshaped₂ : Node.Shaped ⟨.statements, literal, place', children'⟩)
    (hp₂ : ofNode ⟨.statements, literal, place', children'⟩ = .ok p₂)
    (h₂ : p₂.compile = .ok code₂)
    (hshaped : Node.Shaped ⟨.statements, literal, joined, nodes⟩)
    (hnodes : nodes.map Node.erased = (children ++ children').map Node.erased) :
    ∃ p codes codes' code, ofNode ⟨.statements, literal, joined, nodes⟩ = .ok p ∧
      p.compile = .ok code ∧ code₁ = .statements codes ∧ code₂ = .statements codes' ∧
      codes'.length = children'.length ∧
      code.erased = (Code.statements (codes ++ codes')).erased := by
  have hhas₁ := has_root hshaped₁ hp₁
  have hhas₂ := has_root hshaped₂ hp₂
  obtain ⟨s₁, hs₁, -⟩ := bind_eq_ok_iff.1 hp₁
  obtain ⟨s₂, hs₂, -⟩ := bind_eq_ok_iff.1 hp₂
  rw [Node.survey_statements] at hs₁ hs₂
  obtain ⟨codes, hcodes, rfl⟩ := codes_of_compile hp₁ h₁
  obtain ⟨codes', hcodes', rfl⟩ := codes_of_compile hp₂ h₂
  rw [List.map_append] at hnodes
  obtain ⟨front, back, rfl, hfront, hback⟩ := List.map_eq_append_iff.1 hnodes
  have hfront : List.Forall₂ Node.Alike children front := Node.forall₂_alike_iff.2 hfront.symm
  have hback : List.Forall₂ Node.Alike children' back := Node.forall₂_alike_iff.2 hback.symm
  -- The statements together can be analysed.
  obtain ⟨t₁, ht₁, -⟩ :=
    Node.matches_surveys (hfront.imp fun _ _ h => h.readsAs.mentions) 0 0 s₁ hs₁
  obtain ⟨t₂, ht₂, -⟩ :=
    Node.matches_surveys (hback.imp fun _ _ h => h.readsAs.mentions) 0 (0 + front.length) s₂ hs₂
  obtain ⟨t, ht⟩ := Node.surveys_append ht₁ ht₂
  obtain ⟨p, hp⟩ : ∃ p, ofNode ⟨.statements, literal, joined, front ++ back⟩ = .ok p :=
    ⟨_, bind_eq_ok_iff.2 ⟨t, Node.survey_statements.trans ht, rfl⟩⟩
  have hhas := has_root hshaped hp
  -- And they have code.
  have hhas_front : ∀ (i : Nat) (child : Node), front[i]? = some child → p.Has [0 + i] child := by
    intro i child hc
    refine hhas.row (by decide) i child ?_
    rw [List.getElem?_append_left (List.getElem?_eq_some_iff.1 hc).1, hc]
  have hhas_back : ∀ (i : Nat) (child : Node), back[i]? = some child →
      p.Has [0 + front.length + i] child := by
    intro i child hc
    rw [Nat.add_assoc]
    refine hhas.row (by decide) _ child ?_
    rw [List.getElem?_append_right (Nat.le_add_right _ _), Nat.add_sub_cancel_left, hc]
  obtain ⟨fronts, hfronts, hsame⟩ := Node.matches_compileAll false
    (hfront.imp fun _ _ h => h.compilesAs) 0 0 (hhas₁.row (by decide)) hhas_front codes hcodes
  obtain ⟨backs, hbacks, hsame'⟩ := Node.matches_compileAll false
    (hback.imp fun _ _ h => h.compilesAs) 0 (0 + front.length) (hhas₂.row (by decide))
    hhas_back codes' hcodes'
  have hcompile : p.compile = .ok (.statements (fronts ++ backs)) := by
    rw [compile_eq hp, Node.compile_statements, Node.compileAll_append hfronts hbacks]
    rfl
  refine ⟨p, codes, codes', _, hp, hcompile, rfl, rfl, Node.length_of_compileAll hcodes', ?_⟩
  rw [Code.erased_statements, Code.erased_statements, List.map_append, List.map_append, hsame,
    hsame']

end Program

end Scripting
