import Scripting.Proofs.JoinedTrees
import Scripting.Proofs.ParsedTrees
import Scripting.Proofs.Sources

/-!
# Proofs: where nodes stand

Places are made by the scanner alone. A node that the parser makes for a token stands where the
token stands, and one that it makes without a token, for a block or a list of a function, where a
token stands that comes next. What the parser expects it misses at a token, too. The analysis and
the compiler find fault with a node, at the place of the node. So the places that refusals name are
those of tokens of the source, and none of them is on a line before the first.
-/

namespace Scripting

/-- The token stands at a place that satisfies `P`. -/
abbrev Token.StandsIn (P : Position → Prop) (t : Token) : Prop :=
  P t.position

/-- The node and all nodes below stand at places that satisfy `P`. -/
abbrev Node.StandsIn (P : Position → Prop) (node : Node) : Prop :=
  node.Each fun node => P node.position

/-- The place that an error names. A scan that fails names one for each of its faults. -/
def Error.position? : Error → Option Position
  | .scan _ => none
  | .parse e => some e.position
  | .analysis e => some e.position
  | .compile e => some e.position
  | .runtime e => some e.position

/-- A token of the source stands at the place. -/
def Position.OfToken (source : String) (p : Position) : Prop :=
  ∃ tokens, Token.scan source = .ok tokens ∧ ∃ t ∈ tokens, t.position = p

namespace Node

open Token

/-! ## Trees -/

variable {P : Position → Prop}

/-- An application stands at its bracket. -/
theorem standsIn_applied {paren : Token} {callee : Node} {arguments : List Node}
    (hparen : paren.StandsIn P) (hcallee : callee.StandsIn P)
    (harguments : ∀ node ∈ arguments, node.StandsIn P) :
    (applied paren callee arguments).StandsIn P := by
  unfold applied
  split
  · obtain ⟨hobject, hmethod⟩ := List.forall_mem_cons.1 (each_iff.1 hcallee).2
    exact each_iff.2 ⟨hparen, List.forall_mem_cons.2 ⟨hobject,
      List.forall_mem_cons.2 ⟨List.forall_mem_singleton.1 hmethod, harguments⟩⟩⟩
  · exact each_iff.2 ⟨hparen, List.forall_mem_cons.2 ⟨hcallee, harguments⟩⟩

theorem standsIn_commaItems {left : Node} (h : left.StandsIn P) :
    ∀ node ∈ commaItems left, node.StandsIn P := by
  unfold commaItems
  split
  · exact fun _ hc => h.child hc
  · exact List.forall_mem_singleton.2 h

/-- The nodes that are derived from tokens at places that satisfy `P` stand at such places. -/
theorem Derives.standsIn {phrase : Phrase} {taken : List Token} {nodes : List Node}
    (h : Derives phrase taken nodes) (hP : ∀ t ∈ taken, t.StandsIn P) :
    ∀ node ∈ nodes, node.StandsIn P := by
  have hnode : ∀ {kind : Kind} {literal : String} {position : Position} {children : List Node},
      P position → (∀ child ∈ children, StandsIn P child) →
      ∀ node ∈ [⟨kind, literal, position, children⟩], StandsIn P node :=
    fun hposition hchildren => List.forall_mem_singleton.2 (each_iff.2 ⟨hposition, hchildren⟩)
  have hone : ∀ {node : Node}, (∀ child ∈ [node], StandsIn P child) → node.StandsIn P :=
    List.forall_mem_singleton.1
  have hcons : ∀ {node : Node} {nodes : List Node}, (∀ child ∈ [node], StandsIn P child) →
      (∀ node ∈ nodes, StandsIn P node) → ∀ child ∈ node :: nodes, StandsIn P child :=
    fun hfirst hrest => List.forall_mem_cons.2 ⟨hone hfirst, hrest⟩
  induction h with
  | leaf | bareReturn | unit => exact hnode (hP _ List.mem_cons_self) (List.forall_mem_nil _)
  | group _ _ _ ih =>
    obtain ⟨-, hP⟩ := List.forall_mem_cons.1 hP
    exact ih (List.forall_mem_append.1 hP).1
  | sign _ _ ih | valueReturn _ _ ih | declaration _ _ ih =>
    obtain ⟨ht, hP⟩ := List.forall_mem_cons.1 hP
    exact hnode ht (ih hP)
  | function _ _ _ _ _ hfirst ihparameters ihchannels ihbody =>
    simp only [List.forall_mem_cons, List.forall_mem_append] at hP
    obtain ⟨ht, hbracket, hp, hc, hb⟩ := hP
    have hplace := List.forall_mem_append.2 ⟨hc, hb⟩ _ (List.mem_of_mem_head? hfirst)
    exact hnode ht (hcons (hnode hbracket (ihparameters hp))
      (hcons (hnode hplace (ihchannels hc)) (ihbody hb)))
  | conditional _ _ _ _ ihcondition ihbody ihrest =>
    simp only [List.forall_mem_cons, List.forall_mem_append] at hP
    obtain ⟨ht, hc, hb, hr⟩ := hP
    exact hnode ht (hcons (ihcondition hc) (hcons (ihbody hb) (ihrest hr)))
  | loop _ _ _ ihcondition ihbody =>
    simp only [List.forall_mem_cons, List.forall_mem_append] at hP
    obtain ⟨ht, hc, hb⟩ := hP
    exact hnode ht (hcons (ihcondition hc) (ihbody hb))
  | operation _ _ _ ihleft ihright =>
    simp only [List.forall_mem_cons, List.forall_mem_append] at hP
    obtain ⟨hl, ht, hr⟩ := hP
    exact hnode ht (hcons (ihleft hl) (ihright hr))
  | comma _ _ _ ihleft ihitem =>
    simp only [List.forall_mem_cons, List.forall_mem_append] at hP
    obtain ⟨hl, ht, hr⟩ := hP
    exact hnode ht
      (List.forall_mem_append.2 ⟨standsIn_commaItems (hone (ihleft hl)), ihitem hr⟩)
  | application _ _ _ ihcallee iharguments =>
    simp only [List.forall_mem_cons, List.forall_mem_append] at hP
    obtain ⟨hl, ht, hr⟩ := hP
    exact List.forall_mem_singleton.2
      (standsIn_applied ht (hone (ihcallee hl)) (iharguments hr))
  | index _ _ _ _ ihleft ihinner =>
    simp only [List.forall_mem_cons, List.forall_mem_append] at hP
    obtain ⟨hl, ht, hr, -⟩ := hP
    exact hnode ht (hcons (ihleft hl) (ihinner hr))
  | field _ _ _ ihleft =>
    simp only [List.forall_mem_cons, List.forall_mem_append] at hP
    obtain ⟨hl, ht, hname, -⟩ := hP
    exact hnode ht (hcons (ihleft hl) (hnode hname (List.forall_mem_nil _)))
  | item _ ih => exact ih hP
  | moreItems _ _ _ ih ihmore =>
    simp only [List.forall_mem_cons, List.forall_mem_append] at hP
    obtain ⟨hfirst, -, hmore⟩ := hP
    exact hcons (ih hfirst) (ihmore hmore)
  | emptyList | nothing | noBranch | noChannels => exact List.forall_mem_nil _
  | list _ _ _ ih => exact ih (List.forall_mem_append.1 hP).1
  | semicolon _ _ ih | someChannels _ _ ih | lastBranch _ _ ih =>
    exact ih (List.forall_mem_cons.1 hP).2
  | statement _ _ ih ihmore =>
    obtain ⟨hfirst, hmore⟩ := List.forall_mem_append.1 hP
    exact hcons (ih hfirst) (ihmore hmore)
  | block _ _ _ hfirst ih =>
    obtain ⟨-, hP⟩ := List.forall_mem_cons.1 hP
    exact hnode (hP _ (List.mem_of_mem_head? hfirst)) (ih (List.forall_mem_append.1 hP).1)
  | branch _ _ _ _ _ ihcondition ihbody ihrest =>
    simp only [List.forall_mem_cons, List.forall_mem_append] at hP
    obtain ⟨-, -, hc, hb, hr⟩ := hP
    exact hcons (ihcondition hc) (hcons (ihbody hb) (ihrest hr))

theorem standsIn_of_ofTokens {tokens : List Token} {root : Node} (h : ofTokens tokens = .ok root)
    (htokens : (Stream.ofTokens tokens).All (Token.StandsIn P)) : root.StandsIn P := by
  obtain ⟨children, hchildren, rfl⟩ := derives_of_ofTokens h
  exact each_iff.2 ⟨htokens.of_has (Stream.has_head _), hchildren.standsIn htokens.1⟩

theorem position_of_ofTokens {tokens : List Token} {e : ParseError}
    (h : ofTokens tokens = .error (.error e))
    (htokens : (Stream.ofTokens tokens).All (Token.StandsIn P)) : P e.position :=
  htokens.of_has (misses_of_ofTokens h).found

/-! ## Refused trees -/

theorem position_of_nameList (node : Node) : ∀ e : AnalysisError, node.StandsIn P →
    node.nameList = .error e → P e.position := by
  refine @Node.rec (fun node => ∀ e : AnalysisError, node.StandsIn P → node.nameList = .error e →
    P e.position) (fun nodes => ∀ e : AnalysisError, (∀ node ∈ nodes, node.StandsIn P) →
      nameLists nodes = .error e → P e.position) ?_ ?_ ?_ node
  · intro kind literal position children ih e hnode h
    obtain ⟨hposition, hchildren⟩ := each_iff.1 hnode
    rw [nameList.eq_def] at h
    cases kind with
    | identifier => cases h
    | comma | leftBracket | leftParen => exact ih e hchildren h
    | _ =>
      cases h
      exact hposition
  · intro e _ h
    rw [nameLists] at h
    cases h
  · intro first rest hfirst hrest e hnodes h
    obtain ⟨hnode, hnodes⟩ := List.forall_mem_cons.1 hnodes
    rw [nameLists] at h
    obtain h | ⟨a, -, h⟩ := bind_eq_error_iff.1 h
    · exact hfirst e hnode h
    · obtain h | ⟨b, -, h⟩ := bind_eq_error_iff.1 h
      · exact hrest e hnodes h
      · cases h

theorem position_of_leftmostName {e : AnalysisError} (node : Node) (hnode : node.StandsIn P)
    (h : node.leftmostName = .error e) : P e.position := by
  induction node using Node.induct with
  | h kind literal position children ih =>
    obtain ⟨hposition, hchildren⟩ := each_iff.1 hnode
    rw [leftmostName.eq_def] at h
    cases kind with
    | identifier => cases h
    | period | leftBracket =>
      cases children with
      | nil =>
        cases h
        exact hposition
      | cons first rest =>
        exact ih first List.mem_cons_self (hchildren first List.mem_cons_self) h
    | _ =>
      cases h
      exact hposition

theorem standsIn_listed {node target : Node} (hnode : node.StandsIn P)
    (h : target ∈ node.listed) : target.StandsIn P := by
  obtain ⟨-, hlisted⟩ | ⟨-, -, hlisted⟩ := node.listed_cases
  · exact hnode.child (hlisted ▸ h)
  · rw [hlisted] at h
    exact List.mem_singleton.1 h ▸ hnode

/-- The analysis finds fault with one of the nodes, at its place. -/
theorem position_of_survey (node : Node) : ∀ {path : Path} {e : AnalysisError}, node.StandsIn P →
    node.survey path = .error e → P e.position := by
  induction node using Node.induct with
  | h kind literal position children ih =>
    intro path e hnode h
    obtain ⟨hposition, hchildren⟩ := each_iff.1 hnode
    have hchild : ∀ {path : Path} {child : Node}, child ∈ children →
        child.survey path = .error e → P e.position :=
      fun hc h => ih _ hc (hchildren _ hc) h
    have hrow : ∀ {index : Nat} {nodes : List Node}, (∀ i, nodes[i]? = children[index + i]?) →
        surveys path index nodes = .error e → P e.position := by
      intro index nodes hnodes h
      obtain ⟨i, child, -, hc, h⟩ := error_of_surveys hnodes h
      exact hchild (List.mem_of_getElem? hc) h
    have hall : surveys path 0 children = .error e → P e.position :=
      hrow fun i => by rw [Nat.zero_add]
    rw [survey.eq_def] at h
    cases kind with
    | funcWord =>
      rcases children with _ | ⟨parameters, _ | ⟨channels, _ | ⟨body, rest⟩⟩⟩
      case cons.cons.cons =>
        obtain h | ⟨ps, -, h⟩ := bind_eq_error_iff.1 h
        · exact position_of_nameList _ _ (hchildren parameters (by simp)) h
        obtain h | ⟨cs, -, h⟩ := bind_eq_error_iff.1 h
        · exact position_of_nameList _ _ (hchildren channels (by simp)) h
        obtain h | ⟨s, -, h⟩ := bind_eq_error_iff.1 h
        · exact hchild (by simp) h
        · cases h
      all_goals
        cases h
        exact hposition
    | methodCall =>
      rcases children with _ | ⟨object, _ | ⟨method, arguments⟩⟩
      · cases h
        exact hposition
      · obtain h | ⟨name, -, h⟩ := bind_eq_error_iff.1 h
        · exact position_of_leftmostName object (hchildren object List.mem_cons_self) h
        · cases h
      · obtain h | ⟨name, -, h⟩ := bind_eq_error_iff.1 h
        · exact position_of_leftmostName object (hchildren object List.mem_cons_self) h
        obtain h | ⟨s, -, h⟩ := bind_eq_error_iff.1 h
        · exact hrow (fun i => by rw [Nat.add_comm]; rfl) h
        · cases h
    | assign | default | accumulate =>
      cases children with
      | nil =>
        cases h
        exact hposition
      | cons target rest =>
        obtain h | ⟨names, -, h⟩ := bind_eq_error_iff.1 h
        · obtain ⟨name, hname, h⟩ := error_of_mapM h
          exact position_of_leftmostName name
            (standsIn_listed (hchildren target List.mem_cons_self) hname) h
        obtain h | ⟨s, -, h⟩ := bind_eq_error_iff.1 h
        · exact hall h
        · cases h
    | externWord =>
      obtain h | ⟨names, -, h⟩ := bind_eq_error_iff.1 h
      · obtain ⟨child, hc, h⟩ := error_of_mapM h
        unfold declaredName at h
        split at h
        · cases h
        · cases h
          exact (hchildren child hc).self
      obtain h | ⟨s, -, h⟩ := bind_eq_error_iff.1 h
      · exact hall h
      · cases h
    | identifier =>
      obtain h | ⟨s, -, h⟩ := bind_eq_error_iff.1 h
      · exact hall h
      · cases h
    | period =>
      cases children with
      | nil => cases h
      | cons object rest => exact hchild List.mem_cons_self h
    | _ => exact hall h

/-- So does the compiler. -/
theorem position_of_compile {analysis? : Path → Option Analysis} {inLoop : Bool} {path : Path}
    {node : Node} {e : CompileError} (hnode : node.StandsIn P)
    (h : node.compile analysis? inLoop path = .error e) : P e.position := by
  obtain ⟨rel, below, hreaches, htrue⟩ := trueOf_of_compile node h
  rw [htrue.position]
  exact (hnode.at? hreaches.at?).self

end Node

namespace Token

/-! ## The tokens of a source -/

/-- A token stands where one of the lexemes does. -/
theorem position_of_layout (row : List PlacedLexeme) : ∀ (last : Option Kind),
    ∀ t ∈ layout last row, ∃ l ∈ row, l.position = t.position := by
  have hclosing : ∀ position last, ∀ t ∈ closing position last, position = t.position := by
    intro position last t ht
    unfold closing at ht
    split at ht
    · cases List.mem_singleton.1 ht
      rfl
    · cases ht
  induction row with
  | nil => exact fun _ t ht => absurd ht List.not_mem_nil
  | cons l rest ih =>
    intro last t ht
    have hrest : ∀ last, t ∈ layout last rest → ∃ l' ∈ l :: rest, l'.position = t.position := by
      intro last ht
      obtain ⟨l', hl', hposition⟩ := ih last t ht
      exact ⟨l', List.mem_cons_of_mem _ hl', hposition⟩
    obtain ⟨position, lexeme⟩ := l
    cases lexeme with
    | token kind text =>
      rcases List.mem_cons.1 ht with rfl | ht
      · exact ⟨_, List.mem_cons_self, rfl⟩
      · exact hrest _ ht
    | newline =>
      rcases List.mem_append.1 ht with ht | ht
      · exact ⟨_, List.mem_cons_self, hclosing _ _ t ht⟩
      · exact hrest _ ht
    | finish =>
      rcases List.mem_append.1 ht with ht | ht
      · exact ⟨_, List.mem_cons_self, hclosing _ _ t ht⟩
      · rcases List.mem_cons.1 ht with rfl | ht
        · exact ⟨_, List.mem_cons_self, rfl⟩
        · exact hrest _ ht
    | blank | faulty => exact hrest _ ht

/-- No lexeme is on a line above that of the first character. -/
theorem line_le_of_lexemes (text : List Char) : ∀ (position : Position) (inside : Nat),
    ∀ l ∈ lexemes position inside text, position.line ≤ l.position.line := by
  induction text with
  | nil =>
    intro position inside l hl
    cases List.mem_singleton.1 hl
    exact Nat.le_refl position.line
  | cons c rest ih =>
    intro position inside l hl
    cases inside with
    | succ inside => exact ih position.right inside l hl
    | zero =>
      unfold lexemes at hl
      split at hl
      · rcases List.mem_cons.1 hl with rfl | hl
        · exact Nat.le_refl position.line
        · exact Nat.le_of_succ_le (ih position.below _ l hl)
      · rcases List.mem_cons.1 hl with rfl | hl
        · exact Nat.le_refl position.line
        · exact ih position.right _ l hl

/-- The parser is given the tokens of the source and no others, be it at the end. -/
theorem all_of_scan {source : String} {tokens : List Token} (h : scan source = .ok tokens) :
    (Stream.ofTokens tokens).All (StandsIn (Position.OfToken source)) := by
  have htoken : ∀ t ∈ tokens, t.StandsIn (Position.OfToken source) :=
    fun t ht => ⟨tokens, h, t, ht, rfl⟩
  obtain ⟨row, place, front, -, -, rfl, hkinds⟩ := layout_of_scan h
  rw [Stream.ofTokens_eq hkinds rfl]
  exact ⟨fun t ht => htoken t (List.mem_append_left _ ht),
    htoken _ (List.mem_append_right _ List.mem_cons_self)⟩

end Token

/-- No token stands nowhere. -/
theorem Position.OfToken.ne_nowhere {source : String} {p : Position} (h : p.OfToken source) :
    p ≠ .nowhere := by
  obtain ⟨tokens, hscan, t, ht, rfl⟩ := h
  obtain ⟨-, rfl⟩ := Token.scan_ok_iff.1 hscan
  obtain ⟨l, hl, hposition⟩ := Token.position_of_layout _ _ t ht
  have hline : Position.start.line ≤ l.position.line := Token.line_le_of_lexemes _ .start 0 l hl
  intro hnowhere
  rw [hposition, hnowhere] at hline
  exact absurd hline (by decide)

/-! ## Refused sources -/

namespace Session

variable {source : String}

theorem Parses.standsIn {root : Node} (h : Parses source root) :
    root.StandsIn (Position.OfToken source) := by
  obtain ⟨tokens, hscan, hparse⟩ := h
  exact Node.standsIn_of_ofTokens hparse (Token.all_of_scan hscan)

/-- What a source is refused for stands at one of its tokens. -/
theorem ofToken_of_translated {e : Error} {p : Position}
    (h : translated source = .error (.error e)) (hp : e.position? = some p) :
    p.OfToken source := by
  unfold translated at h
  obtain h | ⟨tokens, hscan, h⟩ := bind_eq_error_iff.1 h
  · obtain ⟨errors, -, ⟨⟩⟩ := mapError_eq_error_iff.1 h
    cases hp
  obtain h | ⟨root, hparse, h⟩ := bind_eq_error_iff.1 h
  · obtain ⟨stop, hstop, he⟩ := mapError_eq_error_iff.1 h
    cases stop with
    | outOfFuel => cases he
    | error e' =>
      cases he
      cases hp
      exact Node.position_of_ofTokens hstop (Token.all_of_scan (mapError_eq_ok_iff.1 hscan))
  have hroot : root.StandsIn (Position.OfToken source) :=
    Parses.standsIn ⟨tokens, mapError_eq_ok_iff.1 hscan, mapError_eq_ok_iff.1 hparse⟩
  obtain h | ⟨program, hprogram, h⟩ := bind_eq_error_iff.1 h
  · obtain ⟨e', he, ⟨⟩⟩ := mapError_eq_error_iff.1 h
    cases hp
    obtain he | ⟨s, -, he⟩ := bind_eq_error_iff.1 he
    · exact Node.position_of_survey root hroot he
    · cases he
  · obtain ⟨e', he, ⟨⟩⟩ := mapError_eq_error_iff.1 h
    cases hp
    rw [Program.compile_eq (mapError_eq_ok_iff.1 hprogram)] at he
    exact Node.position_of_compile hroot he

end Session

end Scripting
