import TreeFeller.ExtraRuns

namespace TreeFeller

/-!
# Where extras end up

On a run without conflicts the state above an extra is the state below it, and
the state above any other cell is prescribed by its shift or its goto.  In the
tree of an accepted root every extra is a child of the deepest reduction that
reaches around it, or of the root.
-/

/-! ## Trees -/

namespace RawTree

mutual

/-- The tokens of a tree, in order, and whether each is an extra. -/
def leaves : RawTree → List (TFToken × Bool)
  | .token shifted extra => [(shifted, extra)]
  | .rule _ _ children => leavesAll children

/-- The tokens of some trees, in order. -/
def leavesAll : List RawTree → List (TFToken × Bool)
  | [] => []
  | tree :: rest => leaves tree ++ leavesAll rest

end

mutual

/-- The reductions of a tree, each after those below it. -/
def rules : RawTree → List RawTree
  | .token _ _ => []
  | .rule at_ productionId children =>
      rulesAll children ++ [.rule at_ productionId children]

/-- The reductions of some trees, in order. -/
def rulesAll : List RawTree → List RawTree
  | [] => []
  | tree :: rest => rules tree ++ rulesAll rest

end

@[simp] theorem leavesAll_append (first second : List RawTree) :
    leavesAll (first ++ second) = leavesAll first ++ leavesAll second := by
  induction first with
  | nil =>
      simp [leavesAll]
  | cons tree rest inductionHypothesis =>
      simp [leavesAll, inductionHypothesis]

@[simp] theorem rulesAll_append (first second : List RawTree) :
    rulesAll (first ++ second) = rulesAll first ++ rulesAll second := by
  induction first with
  | nil =>
      simp [rulesAll]
  | cons tree rest inductionHypothesis =>
      simp [rulesAll, inductionHypothesis]

/-- A tree whose reductions start and end with children that are no extras. -/
inductive Trimmed : RawTree → Prop where
  | token {token : TFToken} {extra : Bool} : Trimmed (.token token extra)
  | rule
      {token : TFToken}
      {productionId : Nat}
      {children : List RawTree}
      (first :
        ∀ child, children.head? = some child → child.extra = false)
      (last :
        ∀ child, children.getLast? = some child → child.extra = false)
      (each : ∀ child ∈ children, Trimmed child) :
      Trimmed (.rule token productionId children)

/-- The tree at the end of a path of child indices. -/
inductive At : RawTree → List Nat → RawTree → Prop where
  | here {tree : RawTree} : At tree [] tree
  | deeper
      {tree child target : RawTree}
      {index : Nat}
      {path : List Nat}
      (isChild : tree.children[index]? = some child)
      (later : At child path target) :
      At tree (index :: path) target

/-- A place that lies entirely before another in a tree. -/
def Before : List Nat → List Nat → Prop
  | i :: path, j :: path' => i < j ∨ i = j ∧ Before path path'
  | _, _ => False

/--
A reduction that reaches around a place: one of its children that are no
extras lies entirely before it, and another entirely after it.
-/
structure Straddles (root : RawTree) (path place : List Nat) : Prop where
  around :
    ∃ tree, At root path tree ∧
      (∃ index child, tree.children[index]? = some child ∧
        child.extra = false ∧ Before (path ++ [index]) place) ∧
      ∃ index child, tree.children[index]? = some child ∧
        child.extra = false ∧ Before place (path ++ [index])

/-- Children lie in order. -/
theorem before_children
    (path : List Nat)
    {i j : Nat}
    (less : i < j) :
    Before (path ++ [i]) (path ++ [j]) := by
  induction path with
  | nil =>
      exact Or.inl less
  | cons index rest inductionHypothesis =>
      exact Or.inr ⟨rfl, inductionHypothesis⟩

/-- What lies between two children of a node lies below the node. -/
theorem prefix_of_between
    {path place : List Nat}
    {i j : Nat}
    (after : Before (path ++ [i]) place)
    (before : Before place (path ++ [j])) :
    ∃ index rest, place = path ++ index :: rest := by
  induction path generalizing place with
  | nil =>
      cases place with
      | nil =>
          cases before
      | cons index rest =>
          exact ⟨index, rest, rfl⟩
  | cons step path inductionHypothesis =>
      cases place with
      | nil =>
          cases before
      | cons index rest =>
          rcases after with larger | ⟨rfl, after⟩
          · rcases before with smaller | ⟨same, _⟩
            · omega
            · omega
          · rcases before with smaller | ⟨_, before⟩
            · omega
            · obtain ⟨next, more, parts⟩ := inductionHypothesis after before
              exact ⟨next, more, by rw [parts]; rfl⟩

/-- A trimmed tree is trimmed throughout. -/
theorem Trimmed.at_
    {tree target : RawTree}
    {path : List Nat}
    (trimmed : tree.Trimmed)
    (isAt : At tree path target) :
    target.Trimmed := by
  induction isAt with
  | here =>
      exact trimmed
  | deeper isChild later inductionHypothesis =>
      refine inductionHypothesis ?_
      cases trimmed with
      | token =>
          cases isChild
      | rule first last each =>
          exact each _ (List.mem_of_getElem? isChild)

/-- The place of a child ends in its index. -/
theorem at_append
    {root target : RawTree}
    {path : List Nat}
    {index : Nat}
    (isAt : At root (path ++ [index]) target) :
    ∃ tree, At root path tree ∧ tree.children[index]? = some target := by
  induction path generalizing root with
  | nil =>
      cases isAt with
      | deeper isChild later =>
          cases later
          exact ⟨root, .here, isChild⟩
  | cons step path inductionHypothesis =>
      cases isAt with
      | deeper isChild later =>
          obtain ⟨tree, isAt, isTarget⟩ := inductionHypothesis later
          exact ⟨tree, .deeper isChild isAt, isTarget⟩

/-- A trimmed reduction reaches around each of its extras. -/
theorem Trimmed.around
    {tree : RawTree}
    {index : Nat}
    {token : TFToken}
    (trimmed : tree.Trimmed)
    (isChild : tree.children[index]? = some (.token token true)) :
    (∃ i child, tree.children[i]? = some child ∧ child.extra = false ∧
        i < index) ∧
      ∃ j child, tree.children[j]? = some child ∧ child.extra = false ∧
        index < j := by
  cases trimmed with
  | token =>
      cases isChild
  | @rule at_ productionId children first last each =>
      have inRange : index < children.length :=
        (List.getElem?_eq_some_iff.mp isChild).1
      have isChild' : children[index]? = some (.token token true) := isChild
      have isFirst : children[0]? = some children[0] :=
        List.getElem?_eq_getElem (by omega)
      have isLast :
          children[children.length - 1]? =
            some children[children.length - 1] :=
        List.getElem?_eq_getElem (by omega)
      refine ⟨⟨0, children[0], ?_, ?_, ?_⟩,
        ⟨children.length - 1, children[children.length - 1], ?_, ?_, ?_⟩⟩
      · exact isFirst
      · refine first _ ?_
        rw [List.head?_eq_getElem?]
        exact isFirst
      · by_contra atFirst
        have zero : index = 0 := by omega
        subst zero
        have kind := first _ (by rw [List.head?_eq_getElem?]; exact isChild')
        cases kind
      · exact isLast
      · refine last _ ?_
        rw [List.getLast?_eq_getElem?]
        exact isLast
      · by_contra atLast
        have end_ : index = children.length - 1 := by omega
        subst end_
        have kind :=
          last _ (by rw [List.getLast?_eq_getElem?]; exact isChild')
        cases kind

/-- What reaches around a child is above the child. -/
theorem Straddles.prefix_of_child
    {root : RawTree}
    {other path : List Nat}
    {index : Nat}
    (straddles : Straddles root other (path ++ [index])) :
    other <+: path := by
  obtain ⟨_, _, ⟨i, _, _, _, after⟩, ⟨j, _, _, _, before⟩⟩ :=
    straddles.around
  obtain ⟨next, rest, parts⟩ := prefix_of_between after before
  rcases List.eq_nil_or_concat rest with rfl | ⟨front, last, rfl⟩
  · have same := List.append_inj' parts rfl
    exact ⟨[], by rw [same.1, List.append_nil]⟩
  · rw [List.concat_eq_append] at parts
    have same :
        path ++ [index] = (other ++ next :: front) ++ [last] := by
      rw [parts]
      simp
    rw [(List.append_inj' same rfl).1]
    exact List.prefix_append _ _

/-- A reduction that starts and ends with no extra reaches around its extras. -/
theorem Trimmed.straddles
    {root tree : RawTree}
    {path : List Nat}
    {index : Nat}
    {token : TFToken}
    (trimmed : tree.Trimmed)
    (isAt : At root path tree)
    (isChild : tree.children[index]? = some (.token token true)) :
    Straddles root path (path ++ [index]) := by
  obtain ⟨⟨i, before, isBefore, kind, less⟩,
      ⟨j, after, isAfter, kind', more⟩⟩ :=
    trimmed.around isChild
  refine ⟨tree, isAt, ?_, ?_⟩
  · exact ⟨i, before, isBefore, kind, before_children _ less⟩
  · exact ⟨j, after, isAfter, kind', before_children _ more⟩

/--
Every extra below the root of a tree is a child of the deepest reduction that
reaches around it.
-/
def ExtrasDeepest (tree : RawTree) : Prop :=
  ∀ path index token,
    At tree (path ++ [index]) (.token token true) →
      Straddles tree path (path ++ [index]) ∧
        ∀ other, Straddles tree other (path ++ [index]) → other <+: path

/-- The same, where the tree itself takes the extras that nothing is around. -/
def ExtrasDeepestOrRoot (tree : RawTree) : Prop :=
  ∀ path index token,
    At tree (path ++ [index]) (.token token true) →
      (path = [] ∨ Straddles tree path (path ++ [index])) ∧
        ∀ other, Straddles tree other (path ++ [index]) → other <+: path

/-- A trimmed tree holds its extras deep. -/
theorem Trimmed.extrasDeepest
    {tree : RawTree}
    (trimmed : tree.Trimmed) :
    tree.ExtrasDeepest := by
  intro path index token isAt
  obtain ⟨holder, isHolder, isChild⟩ := at_append isAt
  have straddles : Straddles tree path (path ++ [index]) :=
    (trimmed.at_ isHolder).straddles isHolder isChild
  exact ⟨straddles, fun other around => around.prefix_of_child⟩

/-- So does a root over trimmed trees, or it takes them itself. -/
theorem extrasDeepestOrRoot_of_trimmed
    {root : RawTree}
    (each : ∀ child ∈ root.children, child.Trimmed) :
    root.ExtrasDeepestOrRoot := by
  intro path index token isAt
  obtain ⟨holder, isHolder, isChild⟩ := at_append isAt
  refine ⟨?_, fun other around => around.prefix_of_child⟩
  cases isHolder with
  | here =>
      exact Or.inl rfl
  | @deeper _ child _ step rest isBranch later =>
      have trimmed : holder.Trimmed :=
        (each _ (List.mem_of_getElem? isBranch)).at_ later
      exact Or.inr (trimmed.straddles (.deeper isBranch later) isChild)

end RawTree

namespace TFParser

/-! ## States -/

/-- Cells above a state, each in the state that is prescribed for it. -/
inductive Layered (lang : TFLanguage) :
    TSStateId → List (TFCell RawTree) → Prop where
  | nil {state : TSStateId} : Layered lang state []
  /-- The state above an extra is the state below it. -/
  | extra
      {state : TSStateId}
      {token : TFToken}
      {rest : List (TFCell RawTree)}
      (later : Layered lang state rest) :
      Layered lang state
        (⟨token.node true (some (.token token true)), state⟩ :: rest)
  /-- The state above a token is the one its shift leads to. -/
  | token
      {state target : TSStateId}
      {token : TFToken}
      {repetition : Bool}
      {rest : List (TFCell RawTree)}
      (entry :
        lang.actions state token.symbol = [.shift target false repetition])
      (later : Layered lang target rest) :
      Layered lang state
        (⟨token.node false (some (.token token false)), target⟩ :: rest)
  /-- The state above a reduction is the one its symbol leads to. -/
  | rule
      {state : TSStateId}
      {node : TFNode RawTree}
      {at_ : TFToken}
      {productionId : Nat}
      {children : List RawTree}
      {rest : List (TFCell RawTree)}
      (notExtra : node.extra = false)
      (value : node.value = some (.rule at_ productionId children))
      (later : Layered lang (lang.nextState state node.symbol) rest) :
      Layered lang state
        (⟨node, lang.nextState state node.symbol⟩ :: rest)

namespace Layered

variable {lang : TFLanguage}
variable {state : TSStateId}
variable {cells more : List (TFCell RawTree)}

/-- Layers above layers. -/
theorem append
    (layered : Layered lang state cells)
    (moreLayered : Layered lang (above state cells) more) :
    Layered lang state (cells ++ more) := by
  induction layered with
  | nil =>
      exact moreLayered
  | extra later inductionHypothesis =>
      exact .extra (inductionHypothesis moreLayered)
  | token entry later inductionHypothesis =>
      exact .token entry (inductionHypothesis moreLayered)
  | rule notExtra value later inductionHypothesis =>
      exact .rule notExtra value (inductionHypothesis moreLayered)

/-- Layers come apart anywhere. -/
theorem split
    (layered : Layered lang state (cells ++ more)) :
    Layered lang state cells ∧ Layered lang (above state cells) more := by
  induction cells generalizing state with
  | nil =>
      exact ⟨.nil, layered⟩
  | cons cell rest inductionHypothesis =>
      cases layered with
      | extra later =>
          obtain ⟨lower, upper⟩ := inductionHypothesis later
          exact ⟨.extra lower, upper⟩
      | token entry later =>
          obtain ⟨lower, upper⟩ := inductionHypothesis later
          exact ⟨.token entry lower, upper⟩
      | rule notExtra value later =>
          obtain ⟨lower, upper⟩ := inductionHypothesis later
          exact ⟨.rule notExtra value lower, upper⟩

/-- Extras are moved to any state together. -/
theorem restated
    (layered : Layered lang state cells)
    (extras : AllExtra cells)
    (next : TSStateId) :
    Layered lang next
      (cells.map (fun cell => { cell with state := next })) := by
  induction layered with
  | nil =>
      exact .nil
  | extra later inductionHypothesis =>
      exact .extra (inductionHypothesis
        (fun cell member => extras cell (List.mem_cons_of_mem _ member)))
  | token entry later inductionHypothesis =>
      cases extras _ (List.mem_cons_self ..)
  | rule notExtra value later inductionHypothesis =>
      have isExtra := extras _ (List.mem_cons_self ..)
      rw [notExtra] at isExtra
      cases isExtra

/-- Every cell holds the tree of its node. -/
theorem value
    (layered : Layered lang state cells)
    {cell : TFCell RawTree}
    (member : cell ∈ cells) :
    ∃ tree, cell.node.value = some tree ∧ tree.extra = cell.node.extra := by
  induction layered with
  | nil =>
      cases member
  | extra later inductionHypothesis =>
      rcases List.mem_cons.mp member with rfl | old
      · exact ⟨_, rfl, rfl⟩
      · exact inductionHypothesis old
  | token entry later inductionHypothesis =>
      rcases List.mem_cons.mp member with rfl | old
      · exact ⟨_, rfl, rfl⟩
      · exact inductionHypothesis old
  | rule notExtra value later inductionHypothesis =>
      rcases List.mem_cons.mp member with rfl | old
      · exact ⟨_, value, notExtra.symm⟩
      · exact inductionHypothesis old

end Layered

/-! ## Trees of a stack -/

/-- The trees some cells hold. -/
def treesOf (cells : List (TFCell RawTree)) : List RawTree :=
  (cells.map TFCell.node).filterMap TFNode.value

@[simp] theorem treesOf_append (first second : List (TFCell RawTree)) :
    treesOf (first ++ second) = treesOf first ++ treesOf second := by
  simp [treesOf]

/-- Moving cells to another state leaves their trees. -/
theorem treesOf_restated
    (cells : List (TFCell RawTree))
    (next : TSStateId) :
    treesOf (cells.map (fun cell => { cell with state := next })) =
      treesOf cells := by
  simp [treesOf, Function.comp_def]

/--
A token as it was delivered, or demoted to the word token.  One that was put
in stands as an extra, as it was delivered.
-/
structure Delivers
    (inserted : TFToken → Prop)
    (lang : TFLanguage)
    (lexeme : Lexeme)
    (leaf : TFToken × Bool) : Prop where
  token :
    leaf.1 = lexeme.1 ∨
      leaf.1 = { lexeme.1 with symbol := lang.ts.keywordCaptureToken }
  extra : inserted lexeme.1 → leaf = (lexeme.1, true)

/-- Extras hold no reductions. -/
theorem Layered.rulesAll_of_extras
    {lang : TFLanguage}
    {state : TSStateId}
    {cells : List (TFCell RawTree)}
    (layered : Layered lang state cells)
    (extras : AllExtra cells) :
    RawTree.rulesAll (treesOf cells) = [] := by
  induction layered with
  | nil =>
      rfl
  | extra later inductionHypothesis =>
      exact inductionHypothesis
        (fun cell member => extras cell (List.mem_cons_of_mem _ member))
  | token entry later inductionHypothesis =>
      cases extras _ (List.mem_cons_self ..)
  | rule notExtra value later inductionHypothesis =>
      have isExtra := extras _ (List.mem_cons_self ..)
      rw [notExtra] at isExtra
      cases isExtra

/-- A stack over the tokens consumed so far. -/
structure Stacked
    (inserted : TFToken → Prop)
    (lang : TFLanguage)
    (consumed : List Lexeme)
    (parser : TFParser Unit RawTree) : Prop where
  layered : Layered lang startState parser.cells
  bottomed : Bottomed parser
  supplied : Supplied parser
  leaves :
    List.Forall₂ (Delivers inserted lang) consumed
      (RawTree.leavesAll (treesOf parser.cells))
  rules :
    (reductions parser.events).map RawTree.ofReduction =
      RawTree.rulesAll (treesOf parser.cells)
  trimmed : ∀ tree ∈ treesOf parser.cells, tree.Trimmed

/-- The children of a reduction start and end with no extras. -/
theorem trimmed_of_cutsAt
    {lang : TFLanguage}
    {cells : List (TFCell RawTree)}
    {childCount : Nat}
    {cut : Popped RawTree}
    (cuts : CutsAt cells childCount cut)
    (layered : Layered lang startState cells) :
    (∀ child, (treesOf cut.children).head? = some child →
        child.extra = false) ∧
      ∀ child, (treesOf cut.children).getLast? = some child →
        child.extra = false := by
  have tree :
      ∀ cell ∈ cells, cell.node.extra = false →
        ∃ tree, treesOf [cell] = [tree] ∧ tree.extra = false := by
    intro cell member kind
    obtain ⟨tree, isTree, same⟩ := layered.value member
    refine ⟨tree, ?_, same.trans kind⟩
    simp [treesOf, isTree]
  cases cuts with
  | empty =>
      exact ⟨nofun, nofun⟩
  | @single below trailing only parts isOnly extras =>
      obtain ⟨tree, isTree, kind⟩ :=
        tree only (by rw [parts]; simp) isOnly
      dsimp only
      rw [isTree]
      refine ⟨?_, ?_⟩
      · intro child isChild
        cases isChild
        exact kind
      · intro child isChild
        cases isChild
        exact kind
  | @several below between trailing first last parts isFirst isLast extras =>
      obtain ⟨firstTree, isTree, kind⟩ :=
        tree first (by rw [parts]; simp) isFirst
      obtain ⟨lastTree, isTree', kind'⟩ :=
        tree last (by rw [parts]; simp) isLast
      have whole :
          treesOf (first :: (between ++ [last])) =
            firstTree :: (treesOf between ++ [lastTree]) := by
        have apart : first :: (between ++ [last]) =
            [first] ++ (between ++ [last]) := rfl
        rw [apart, treesOf_append, treesOf_append, isTree, isTree']
        rfl
      dsimp only
      rw [whole]
      refine ⟨?_, ?_⟩
      · intro child isChild
        cases isChild
        exact kind
      · intro child isChild
        rw [← List.cons_append, List.getLast?_concat] at isChild
        cases isChild
        exact kind'

section Stacks

variable {inserted : TFToken → Prop}
variable {lang : TFLanguage}
variable {consumed : List Lexeme}
variable {before after : TFParser Unit RawTree}

/-- Shifting consumes the token. -/
theorem Stacked.shift
    (stacked : Stacked inserted lang consumed before)
    {lexeme : Lexeme}
    {token : TFToken}
    {extra : Bool}
    {target : TSStateId}
    {repetition : Bool}
    (delivers : Delivers inserted lang lexeme (token, extra))
    (entry :
      lang.actions before.state token.symbol =
        [.shift target extra repetition])
    (shifted :
      Shifted before token extra (if extra then before.state else target)
        after) :
    Stacked inserted lang (consumed ++ [lexeme]) after where
  layered := by
    rw [shifted.cells]
    refine stacked.layered.append ?_
    unfold TFParser.state at entry shifted ⊢
    rw [topState_eq_above] at entry ⊢
    cases extra with
    | true =>
        exact .extra .nil
    | false =>
        exact .token entry .nil
  bottomed := shifted.bottomed stacked.bottomed
  supplied := shifted.supplied
  leaves := by
    rw [shifted.cells, treesOf_append, RawTree.leavesAll_append]
    refine List.rel_append stacked.leaves ?_
    exact .cons delivers .nil
  rules := by
    rw [shifted.events, shifted.cells, treesOf_append, stacked.rules,
      RawTree.rulesAll_append]
    exact (List.append_nil _).symm
  trimmed := by
    rw [shifted.cells, treesOf_append]
    intro tree member
    rcases List.mem_append.mp member with old | new
    · exact stacked.trimmed tree old
    · rw [List.mem_singleton.mp new]
      exact .token

/-- The parts of a stack that is cut. -/
theorem Stacked.parts
    {childCount : Nat}
    {cut : Popped RawTree}
    (stacked : Stacked inserted lang consumed before)
    (cuts : CutsAt before.cells childCount cut) :
    before.cells = cut.below ++ (cut.children ++ cut.trailing) ∧
      Layered lang startState cut.below ∧
      ∃ state, Layered lang state cut.trailing ∧ AllExtra cut.trailing := by
  have found := popped_of_cutsAt cuts
  have whole := cells_of_popped found
  rw [List.append_assoc] at whole
  have layered := stacked.layered
  rw [whole] at layered
  obtain ⟨below, upper⟩ := layered.split
  obtain ⟨_, trailing⟩ := upper.split
  exact ⟨whole, below, _, trailing, extra_of_popped found⟩

/-- Putting a tree in place keeps the layers. -/
theorem Stacked.placed
    {childCount : Nat}
    {cut : Popped RawTree}
    (stacked : Stacked inserted lang consumed before)
    (cuts : CutsAt before.cells childCount cut)
    {node : TFNode RawTree}
    {at_ : TFToken}
    {productionId : Nat}
    {children : List RawTree}
    (notExtra : node.extra = false)
    (value : node.value = some (.rule at_ productionId children)) :
    Layered lang startState
      (RawStack.placed cut node
        (reducedState lang before.cells cut node.symbol)) := by
  obtain ⟨whole, below, state, trailing, extras⟩ := stacked.parts cuts
  unfold RawStack.placed reducedState
  rw [whole, stateAt_below, List.append_assoc]
  exact below.append (.rule notExtra value (trailing.restated extras _))

/-- A reduction other than the root's consumes nothing. -/
theorem Stacked.reduce
    {childCount : Nat}
    {cut : Popped RawTree}
    {symbol : TSSymbol}
    {productionId : Nat}
    {lookahead : Option TFToken}
    (stacked : Stacked inserted lang consumed before)
    (cuts : CutsAt before.cells childCount cut)
    (reduced :
      Reduced lang before cut symbol childCount productionId lookahead
        after)
    (inner :
      isRoot lang lookahead cut.below.length before.leading
        (reducedState lang before.cells cut symbol) = none) :
    Stacked inserted lang consumed after := by
  obtain ⟨whole, below, state, trailing, extras⟩ := stacked.parts cuts
  have made :
      reductionMade lang before cut symbol childCount productionId
          lookahead =
        reductionOf before.cells cut.children symbol childCount
          productionId := by
    unfold reductionMade
    rw [inner]
  have cellsAfter := reduced.cells
  rw [made] at cellsAfter
  have trees :
      treesOf after.cells =
        treesOf cut.below ++
          (RawTree.ofReduction
              (reductionOf before.cells cut.children symbol childCount
                productionId) ::
            treesOf cut.trailing) := by
    rw [cellsAfter]
    unfold RawStack.placed
    rw [treesOf_append, treesOf_append, treesOf_restated, List.append_assoc]
    rfl
  have old : treesOf before.cells =
      treesOf cut.below ++ (treesOf cut.children ++ treesOf cut.trailing) := by
    rw [whole, treesOf_append, treesOf_append]
  refine ⟨?_, reduced.bottomed cuts stacked.bottomed, reduced.supplied,
    ?_, ?_, ?_⟩
  · rw [cellsAfter]
    exact stacked.placed cuts rfl rfl
  · rw [trees]
    have same :
        RawTree.leavesAll
            (treesOf cut.below ++
              (RawTree.ofReduction
                  (reductionOf before.cells cut.children symbol childCount
                    productionId) ::
                treesOf cut.trailing)) =
          RawTree.leavesAll (treesOf before.cells) := by
      rw [old]
      simp only [RawTree.leavesAll_append, RawTree.leavesAll]
      rfl
    rw [same]
    exact stacked.leaves
  · have noRules : RawTree.rulesAll (treesOf cut.trailing) = [] :=
      trailing.rulesAll_of_extras extras
    have rules := stacked.rules
    rw [old] at rules
    simp only [RawTree.rulesAll_append, noRules, List.append_nil] at rules
    rw [reduced.events, made, List.map_append, rules, trees]
    simp only [RawTree.rulesAll_append, RawTree.rulesAll, noRules,
      List.append_nil, List.append_assoc]
    rfl
  · have trimmed := stacked.trimmed
    rw [old] at trimmed
    rw [trees]
    intro tree member
    simp only [List.mem_append, List.mem_cons] at member trimmed
    rcases member with isBelow | rfl | isTrailing
    · exact trimmed tree (Or.inl isBelow)
    · obtain ⟨first, last⟩ := trimmed_of_cutsAt cuts stacked.layered
      exact .rule first last
        (fun child isChild => trimmed child (Or.inr (Or.inl isChild)))
    · exact trimmed tree (Or.inr (Or.inr isTrailing))

end Stacks

end TFParser

end TreeFeller
