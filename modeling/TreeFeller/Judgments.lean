import TreeFeller.Speculation

/-!
# Judgments on speculative programs

A judgment that holds of the few steps every speculative program is made of,
and of a composition when it holds of the parts, holds of every operation of
a split.  The steps are: read and update the graph, with the lexer in view;
ask the allocator; lex at a position.  Comparing shapes runs the program that
recovers them, of which the judgment is asked.
-/

namespace TreeFeller

open StatefulProgram

namespace TFSpec

/-- A judgment closed under what speculative programs are put together from. -/
structure Judgment (holds : {α : Type} → SpecM α → Prop) : Prop where
  pure : ∀ {α : Type} (value : α), holds (pure value : SpecM α)
  stop :
    ∀ {α : Type} (error : TFSpecStop), holds (Program.stop error : SpecM α)
  bind :
    ∀ {α β : Type} {first : SpecM α} {next : α → SpecM β},
      holds first → (∀ value, holds (next value)) → holds (first >>= next)
  /-- Read and update the graph, with the lexer in view. -/
  reading :
    ∀ {α : Type} (change : TFLexer → TFSpec → α × TFSpec),
      holds (Program.modifyGet (fun state =>
        ((change state.lexer state.spec).1,
          { state with spec := (change state.lexer state.spec).2 })))
  allocate : holds allocate
  /-- Lex at a position. -/
  seeking :
    ∀ (lang : TFLanguage) (byte : Nat) (point : TFPoint) (state : TSStateId),
      holds (Program.modifyGet (fun current =>
        (((current.lexer.seek byte point).next lang state).1,
          { current with
            lexer := ((current.lexer.seek byte point).next lang state).2 })))

namespace Judgment

variable {holds : {α : Type} → SpecM α → Prop}
variable (judgment : Judgment holds)

include judgment

/-- A read of the graph. -/
theorem asks
    {α : Type}
    (project : TFSpec → α) :
    holds (asks project) :=
  judgment.reading (fun _ spec => (project spec, spec))

/-- An update of the graph. -/
theorem update
    (change : TFSpec → TFSpec) :
    holds (update change) :=
  judgment.reading (fun _ spec => ((), change spec))

omit judgment in
/-- A choice between two programs. -/
theorem ite
    (_ : Judgment holds)
    {α : Type}
    {condition : Prop}
    [Decidable condition]
    {first second : SpecM α}
    (firstHolds : holds first)
    (secondHolds : holds second) :
    holds (if condition then first else second) := by
  by_cases chosen : condition
  · rw [if_pos chosen]
    exact firstHolds
  · rw [if_neg chosen]
    exact secondHolds

/-- A loop over a list. -/
theorem forEach
    {α : Type}
    {action : α → SpecM Unit}
    (step : ∀ item, holds (action item))
    (items : List α) :
    holds (Program.forEach action items) := by
  induction items with
  | nil =>
      exact judgment.pure ()
  | cons item rest inductionHypothesis =>
      exact judgment.bind (step item) (fun _ => inductionHypothesis)

/-- A loop that runs until its body answers. -/
theorem iterate
    {α β : Type}
    {exhausted : TFSpecStop}
    {body : α → SpecM (α ⊕ β)}
    (step : ∀ current, holds (body current))
    (fuel : Nat)
    (current : α) :
    holds (Program.iterate exhausted body fuel current) := by
  induction fuel generalizing current with
  | zero =>
      exact judgment.stop exhausted
  | succ fuel inductionHypothesis =>
      apply judgment.bind (step current)
      intro outcome
      cases outcome with
      | inl next =>
          exact inductionHypothesis next
      | inr answer =>
          exact judgment.pure answer

/-! ## Building the graph -/

/-- Making room. -/
theorem reserve
    (arena : TFSpecArena)
    (needed : Nat) :
    holds (reserve arena needed) := by
  apply judgment.bind (judgment.asks _)
  intro capacity
  apply judgment.ite (judgment.pure ())
  apply judgment.ite (judgment.stop _)
  apply judgment.bind judgment.allocate
  intro served
  exact judgment.ite (judgment.update _) (judgment.stop _)

/-- Adding a tree. -/
theorem newTree
    (tree : TFSpecTree) :
    holds (newTree tree) := by
  apply judgment.bind (judgment.asks _)
  intro count
  apply judgment.ite (judgment.stop _)
  apply judgment.bind (judgment.reserve _ _)
  intro _
  exact judgment.bind (judgment.update _) (fun _ => judgment.pure _)

/-- Adding a head. -/
theorem newHead
    (node : Nat) :
    holds (newHead node) := by
  apply judgment.bind (judgment.asks _)
  intro count
  apply judgment.bind (judgment.reserve _ _)
  intro _
  exact judgment.bind (judgment.update _) (fun _ => judgment.pure _)

/-- Removing a head. -/
theorem removeHead
    (version : Nat) :
    holds (removeHead version) :=
  judgment.update _

/-- Taking link slots. -/
theorem newLinks
    (count : Nat) :
    holds (newLinks count) := by
  apply judgment.bind (judgment.asks _)
  intro used
  exact judgment.bind (judgment.reserve _ _) (fun _ => judgment.update _)

/-- Adding a node. -/
theorem addNode
    (node : TFSpecNode) :
    holds (addNode node) := by
  apply judgment.bind (judgment.asks _)
  intro count
  exact judgment.bind (judgment.update _) (fun _ => judgment.pure _)

/-- Pushing a tree. -/
theorem push
    (previous tree : Nat)
    (state : TSStateId) :
    holds (push previous tree state) := by
  apply judgment.bind (judgment.asks _)
  intro count
  apply judgment.bind (judgment.reserve _ _)
  intro _
  apply judgment.bind (judgment.newLinks _)
  intro _
  exact judgment.bind (judgment.asks _) (fun node => judgment.addNode node)

/-- Turning a stack cell into a node. -/
theorem extend : holds extend := by
  apply judgment.bind (judgment.asks _)
  intro left
  apply judgment.bind (judgment.asks _)
  intro cells
  apply judgment.bind (judgment.newTree _)
  intro tree
  apply judgment.bind (judgment.asks _)
  intro trees
  apply judgment.bind (judgment.reserve _ _)
  intro _
  apply judgment.bind (judgment.asks _)
  intro nodes
  apply judgment.bind (judgment.reserve _ _)
  intro _
  apply judgment.bind (judgment.update _)
  intro _
  apply judgment.bind (judgment.newLinks _)
  intro _
  apply judgment.bind (judgment.addNode _)
  intro bottom
  apply judgment.bind (judgment.update _)
  intro _
  apply judgment.bind (judgment.asks _)
  intro known
  exact judgment.ite (judgment.update _) (judgment.pure _)

/-- Unrolling the frontier. -/
theorem unroll
    (node : Nat) :
    holds (unroll node) := by
  apply judgment.bind (judgment.asks _)
  intro atFrontier
  exact judgment.ite judgment.extend (judgment.pure _)

/-! ## Merging and comparing -/

section Shapes

variable {materialize : SpecM Unit}
variable (recovers : holds materialize)

include recovers

/-- Comparing two trees for interchange. -/
theorem equivalent
    (a b : Nat) :
    holds (equivalent materialize a b) := by
  unfold TFSpec.equivalent
  apply judgment.ite (judgment.pure _)
  apply judgment.bind (judgment.asks _)
  intro x
  apply judgment.bind (judgment.asks _)
  intro y
  apply judgment.ite (judgment.pure _)
  exact judgment.ite
    (judgment.bind recovers (fun _ => judgment.asks _))
    (judgment.asks _)

/-- Looking for a link. -/
theorem findLink
    (link : TFSpecLink)
    (index : Nat)
    (links : List TFSpecLink) :
    holds (findLink materialize link index links) := by
  induction links generalizing index with
  | nil =>
      exact judgment.pure _
  | cons existing rest inductionHypothesis =>
      apply judgment.bind (judgment.equivalent recovers _ _)
      intro same
      apply judgment.ite (inductionHypothesis _)
      apply judgment.bind (judgment.asks _)
      intro merges
      exact judgment.ite (judgment.pure _) (inductionHypothesis _)

omit recovers in
/-- Appending a link. -/
theorem appendLink
    (target : Nat)
    (link : TFSpecLink) :
    holds (appendLink target link) := by
  apply judgment.bind (judgment.asks _)
  intro node
  apply judgment.ite (judgment.update _)
  have appends :
      holds (do
        TFSpec.update (fun s =>
          s.modifyNode target (fun node =>
            { node with links := node.links ++ [link] }))
        TFSpec.update (fun s => s.raisePrecedence target link) :
          SpecM Unit) :=
    judgment.bind (judgment.update _) (fun _ => judgment.update _)
  refine judgment.ite ?_ appends
  apply judgment.bind (judgment.newLinks _)
  intro _
  exact judgment.bind (judgment.update _) (fun _ => appends)

/-- Adding a link. -/
theorem addLink
    (fuel target : Nat)
    (link : TFSpecLink) :
    holds (addLink materialize fuel target link) := by
  induction fuel generalizing target link with
  | zero =>
      exact judgment.stop _
  | succ fuel inductionHypothesis =>
      apply judgment.ite (judgment.pure _)
      apply judgment.bind (judgment.unroll _)
      intro _
      apply judgment.bind (judgment.asks _)
      intro links
      apply judgment.bind (judgment.findLink recovers _ _ _)
      intro found
      cases found with
      | none =>
          exact judgment.appendLink _ _
      | some place =>
          apply judgment.ite (judgment.update _)
          refine judgment.bind ?_ (fun _ => judgment.update _)
          apply judgment.bind (judgment.asks _)
          intro links
          exact judgment.forEach (fun link => inductionHypothesis _ _) _

/-- Merging two heads. -/
theorem merge
    (fuel a b : Nat) :
    holds (merge materialize fuel a b) := by
  apply judgment.bind (judgment.asks _)
  intro mergeable
  refine judgment.ite ?_ (judgment.pure _)
  apply judgment.bind (judgment.asks _)
  intro into
  apply judgment.bind (judgment.asks _)
  intro source
  refine judgment.bind ?_ (fun _ =>
    judgment.bind (judgment.removeHead _) (fun _ => judgment.pure _))
  apply judgment.bind (judgment.asks _)
  intro links
  exact judgment.forEach (fun link => judgment.addLink recovers _ _ _) _

/-- Comparing shapes. -/
theorem preferShapes
    (fuel : Nat)
    (pairs : List (Nat × Nat)) :
    holds (preferShapes materialize fuel pairs) := by
  refine judgment.iterate (fun pairs => ?_) _ _
  cases pairs with
  | nil =>
      exact judgment.pure _
  | cons pair rest =>
      apply judgment.ite (judgment.pure _)
      apply judgment.bind (judgment.asks _)
      intro x
      apply judgment.bind (judgment.asks _)
      intro y
      apply judgment.ite (judgment.pure _)
      have compares :
          holds (do
            let x ← TFSpec.asks (fun s => s.tree pair.1)
            let y ← TFSpec.asks (fun s => s.tree pair.2)
            if x.children.length ≠ y.children.length then
              Pure.pure (.inr
                (decide (y.children.length < x.children.length)))
            else
              TFSpec.reserve .scratch
                (2 * rest.length + 2 * x.children.length)
              Pure.pure (.inl (x.children.zip y.children ++ rest)) :
            SpecM (List (Nat × Nat) ⊕ Bool)) := by
        apply judgment.bind (judgment.asks _)
        intro x
        apply judgment.bind (judgment.asks _)
        intro y
        apply judgment.ite (judgment.pure _)
        exact judgment.bind (judgment.reserve _ _)
          (fun _ => judgment.pure _)
      exact judgment.ite
        (judgment.bind recovers (fun _ => compares)) compares

/-- Comparing two trees for preference. -/
theorem prefer
    (fuel : Nat)
    (a : Option Nat)
    (b : Nat) :
    holds (prefer materialize fuel a b) := by
  cases a with
  | none =>
      exact judgment.pure _
  | some a =>
      apply judgment.bind (judgment.asks _)
      intro x
      apply judgment.bind (judgment.asks _)
      intro y
      apply judgment.ite (judgment.pure _)
      exact judgment.bind (judgment.reserve _ _)
        (fun _ => judgment.preferShapes recovers _ _)

end Shapes

/-- Adding a reduction's tree. -/
theorem parent
    (symbol : TSSymbol)
    (production structural : Nat)
    (children : List Nat)
    (base : Nat) :
    holds (parent symbol production structural children base) :=
  judgment.bind (judgment.asks _) (fun tree => judgment.newTree tree)

/-! ## Popping -/

/-- Taking room for a slice. -/
theorem reserveSlice
    (length slices : Nat) :
    holds (reserveSlice length slices) := by
  apply judgment.bind (judgment.asks _)
  intro used
  apply judgment.bind (judgment.reserve _ _)
  intro _
  exact judgment.bind (judgment.reserve _ _) (fun _ => judgment.update _)

/-- Going down a chain, one link further or to its end. -/
theorem chainStep
    (current : TFSpecIterator) :
    holds (do
      match ← TFSpec.asks (fun s => (s.node current.node).links) with
      | [link] =>
          Pure.pure
            (.inl (← TFSpec.asks (fun s => s.stepIterator current link)))
      | _ => Pure.pure (.inr false) : SpecM (TFSpecIterator ⊕ Bool)) := by
  apply judgment.bind (judgment.asks _)
  intro links
  split
  · exact judgment.bind (judgment.asks _) (fun next => judgment.pure _)
  · exact judgment.pure _

/-- Walking a chain. -/
theorem popChain
    (fuel version : Nat)
    (goal : Option Nat) :
    holds (popChain fuel version goal) := by
  apply judgment.bind (judgment.asks _)
  intro head
  refine judgment.iterate (fun current => ?_) _ _
  apply judgment.bind (judgment.asks _)
  intro ends_
  apply judgment.ite
  · apply judgment.bind (judgment.reserveSlice _ _)
    intro _
    apply judgment.bind (judgment.newHead _)
    intro head
    exact judgment.bind (judgment.update _) (fun _ => judgment.pure _)
  · exact judgment.ite
      (judgment.bind (judgment.unroll _)
        (fun _ => judgment.chainStep current))
      (judgment.chainStep current)

/-- Recording a popped path. -/
theorem addSlice
    (current : TFSpecIterator) :
    holds (addSlice current) := by
  apply judgment.bind (judgment.asks _)
  intro slices
  apply judgment.bind (judgment.reserveSlice _ _)
  intro _
  apply judgment.bind (judgment.asks _)
  intro slot
  cases slot with
  | none =>
      exact judgment.bind (judgment.newHead _)
        (fun version => judgment.update _)
  | some place =>
      exact judgment.update _

/-- Following a link. -/
theorem followLink
    (current : TFSpecIterator)
    (link : TFSpecLink) :
    holds (followLink current link) := by
  apply judgment.bind (judgment.asks _)
  intro used
  apply judgment.bind (judgment.reserve _ _)
  intro _
  exact judgment.bind (judgment.update _) (fun _ => judgment.asks _)

/-- Forking iterators. -/
theorem forkIterators
    (current : TFSpecIterator)
    (others : Nat)
    (links : List TFSpecLink)
    (appended : List TFSpecIterator) :
    holds (forkIterators current others links appended) := by
  induction links generalizing appended with
  | nil =>
      exact judgment.pure _
  | cons link rest inductionHypothesis =>
      apply judgment.ite
      · exact judgment.bind (judgment.update _)
          (fun _ => inductionHypothesis _)
      · exact judgment.bind (judgment.followLink _ _)
          (fun forked => inductionHypothesis _)

/-- Going on from one iterator, and from the others after it. -/
theorem popStep
    {goal : Option Nat}
    {rest : List TFSpecIterator}
    (current : TFSpecIterator)
    (done appended : List TFSpecIterator)
    (later :
      ∀ done appended, holds (popRound goal rest done appended)) :
    holds (do
      let links ← TFSpec.asks (fun s => (s.node current.node).links)
      if ← TFSpec.asks (fun s =>
          s.popEnds goal current.node current.count) then
        TFSpec.addSlice current
        popRound goal rest done appended
      else
        match links with
        | [] => popRound goal rest done appended
        | first :: further => do
            let appended ←
              TFSpec.forkIterators current (done.length + 1 + rest.length)
                further appended
            let moved ← TFSpec.followLink current first
            popRound goal rest (done ++ [moved]) appended) := by
  apply judgment.bind (judgment.asks _)
  intro links
  apply judgment.bind (judgment.asks _)
  intro ends_
  apply judgment.ite
  · exact judgment.bind (judgment.addSlice _) (fun _ => later _ _)
  · cases links with
    | nil =>
        exact later _ _
    | cons first further =>
        apply judgment.bind (judgment.forkIterators _ _ _ _)
        intro appended
        exact judgment.bind (judgment.followLink _ _)
          (fun moved => later _ _)

/-- A round of a pop. -/
theorem popRound
    (goal : Option Nat)
    (todo done appended : List TFSpecIterator) :
    holds (popRound goal todo done appended) := by
  induction todo generalizing done appended with
  | nil =>
      exact judgment.pure _
  | cons current rest inductionHypothesis =>
      have walks := judgment.popStep current done appended inductionHypothesis
      exact judgment.ite
        (judgment.bind (judgment.unroll _) (fun _ => walks)) walks

/-- Popping. -/
theorem pop
    (fuel version : Nat)
    (goal : Option Nat) :
    holds (pop fuel version goal) := by
  apply judgment.bind (judgment.update _)
  intro _
  apply judgment.bind (judgment.popChain _ _ _)
  intro ended
  apply judgment.ite (judgment.pure _)
  apply judgment.bind (judgment.asks _)
  intro head
  refine judgment.iterate (fun iterators => ?_) _ _
  cases iterators with
  | nil =>
      exact judgment.pure _
  | cons first rest =>
      exact judgment.bind (judgment.popRound _ _ _ _)
        (fun next => judgment.pure _)

/-! ## Advancing -/

/-- Shifting. -/
theorem shift
    (version : Nat)
    (token : TFToken)
    (state : TSStateId)
    (extra : Bool) :
    holds (shift version token state extra) := by
  apply judgment.bind (judgment.asks _)
  intro head
  apply judgment.bind (judgment.asks _)
  intro byte
  apply judgment.bind (judgment.newTree _)
  intro leaf
  exact judgment.bind (judgment.push _ _ _) (fun node => judgment.update _)

/-- Pushing extras. -/
theorem pushExtras
    (state : TSStateId)
    (extras : List Nat)
    (top : Nat) :
    holds (pushExtras state extras top) := by
  induction extras generalizing top with
  | nil =>
      exact judgment.pure _
  | cons tree rest inductionHypothesis =>
      exact judgment.bind (judgment.push _ _ _)
        (fun next => inductionHypothesis _)

/-- Testing for a single path. -/
theorem unique
    (fuel node : Nat) :
    holds (unique fuel node) := by
  refine judgment.iterate (fun node => ?_) _ _
  apply judgment.bind (judgment.asks _)
  intro links
  split
  · exact judgment.pure _
  · exact judgment.pure _
  · exact judgment.pure _

/-- Halting a head. -/
theorem halt
    (version : Nat)
    (errored : Bool) :
    holds (halt version errored) :=
  judgment.update _

section Rounds

variable {env : TFSpecEnv}
variable (recovers : holds env.materialize)

/-- Lexing, or reusing the token that was. -/
theorem lex
    (node : Nat) :
    holds (lex env node) := by
  apply judgment.bind (judgment.asks _)
  intro at_
  apply judgment.bind (judgment.asks _)
  intro reuses
  apply judgment.ite (judgment.asks _)
  apply judgment.bind (judgment.seeking env.lang at_.byte at_.point at_.state)
  intro found
  cases found with
  | none =>
      have records :
          holds (Program.modify (fun state : TFSpecState =>
            { state with
              spec :=
                state.spec.recordError state.lexer.byte state.lexer.point
                  at_.state 0 true }) : SpecM Unit) :=
        judgment.reading (fun lexer spec =>
          ((), spec.recordError lexer.byte lexer.point at_.state 0 true))
      exact judgment.bind records (fun _ => judgment.pure _)
  | some token =>
      exact judgment.reading (fun lexer spec =>
        (some (token, lexer.tokenIsKeyword),
          { spec with
            cached := token
            cachedByte := at_.byte
            cachedState := at_.state
            cachedKeyword := lexer.tokenIsKeyword
            hasCache := true }))

include recovers

/-- Choosing a parent. -/
theorem selectParent
    (symbol : TSSymbol)
    (childCount productionId base : Nat)
    (paths : List (List Nat))
    (chosen : Option (Nat × List Nat)) :
    holds
      (selectParent env symbol childCount productionId base paths
        chosen) := by
  induction paths generalizing chosen with
  | nil =>
      exact judgment.pure _
  | cons path rest inductionHypothesis =>
      apply judgment.bind (judgment.asks _)
      intro trimmed
      apply judgment.bind (judgment.parent _ _ _ _ _)
      intro candidate
      apply judgment.bind (judgment.prefer recovers _ _ _)
      intro better
      exact judgment.ite (inductionHypothesis _) (inductionHypothesis _)

/-- Merging a new head into those before it. -/
theorem mergeBelow
    (version created : Nat)
    (others : List Nat) :
    holds (mergeBelow env version created others) := by
  induction others with
  | nil =>
      exact judgment.pure _
  | cons other rest inductionHypothesis =>
      apply judgment.ite inductionHypothesis
      apply judgment.bind (judgment.merge recovers _ _ _)
      intro merged
      exact judgment.ite (judgment.pure _) inductionHypothesis

/-- Reducing over one base. -/
theorem reduceGroup
    (version created : Nat)
    (symbol : TSSymbol)
    (childCount productionId : Nat)
    (dynamicPrecedence : Int)
    (paths : List (List Nat)) :
    holds
      (reduceGroup env version created symbol childCount productionId
        dynamicPrecedence paths) := by
  apply judgment.bind (judgment.asks _)
  intro head
  apply judgment.bind (judgment.selectParent recovers _ _ _ _ _ _)
  intro chosen
  cases chosen with
  | none =>
      exact judgment.stop _
  | some parent =>
      apply judgment.bind (judgment.update _)
      intro _
      apply judgment.bind (judgment.asks _)
      intro state
      apply judgment.bind (judgment.push _ _ _)
      intro pushed
      apply judgment.bind (judgment.pushExtras _ _ _)
      intro top
      exact judgment.bind (judgment.update _)
        (fun _ => judgment.mergeBelow recovers _ _ _)

/-- Reducing over every base. -/
theorem reduceGroups
    (version halted : Nat)
    (symbol : TSSymbol)
    (childCount productionId : Nat)
    (dynamicPrecedence : Int)
    (groups : List (Nat × List (List Nat)))
    (removed : Nat) :
    holds
      (reduceGroups env version halted symbol childCount productionId
        dynamicPrecedence groups removed) := by
  induction groups generalizing removed with
  | nil =>
      exact judgment.pure _
  | cons group rest inductionHypothesis =>
      apply judgment.ite
      · apply judgment.bind (judgment.removeHead _)
        intro _
        exact judgment.bind (judgment.update _)
          (fun _ => inductionHypothesis _)
      · exact judgment.bind
          (judgment.reduceGroup recovers _ _ _ _ _ _ _)
          (fun merged => inductionHypothesis _)

/-- Reducing a head. -/
theorem reduce
    (version childCount : Nat)
    (symbol : TSSymbol)
    (dynamicPrecedence : Int)
    (productionId : Nat) :
    holds
      (reduce env version childCount symbol dynamicPrecedence
        productionId) := by
  apply judgment.bind (judgment.asks _)
  intro initial
  apply judgment.bind (judgment.asks _)
  intro halted
  apply judgment.bind (judgment.pop _ _ _)
  intro _
  apply judgment.bind (judgment.asks _)
  intro slices
  apply judgment.bind (judgment.reduceGroups recovers _ _ _ _ _ _ _ _)
  intro _
  apply judgment.bind (judgment.asks _)
  intro heads
  exact judgment.ite (judgment.pure _) (judgment.pure _)

/-- Rebuilding a root. -/
theorem acceptPath
    (path : List Nat) :
    holds (acceptPath env path) := by
  apply judgment.bind (judgment.asks _)
  intro place
  cases place with
  | none =>
      exact judgment.pure _
  | some index =>
      apply judgment.bind (judgment.asks _)
      intro isOpaque
      have rebuilds :
          holds (do
            let root ← TFSpec.asks (fun s => s.tree (path.getD index 0))
            let children :=
              path.take index ++ root.children ++ path.drop (index + 1)
            TFSpec.reserve .children
              ((← TFSpec.asks TFSpec.childCount) + children.length)
            TFSpec.update (fun s =>
              { s with childCount := s.childCount + children.length })
            let candidate ←
              TFSpec.parent root.token.symbol root.productionId
                root.structuralCount children 0
            if ← TFSpec.prefer env.materialize env.fuel
                (← TFSpec.asks TFSpec.finished) candidate then
              TFSpec.update (fun s =>
                { s with finished := some candidate }) : SpecM Unit) := by
        apply judgment.bind (judgment.asks _)
        intro root
        apply judgment.bind (judgment.asks _)
        intro used
        apply judgment.bind (judgment.reserve _ _)
        intro _
        apply judgment.bind (judgment.update _)
        intro _
        apply judgment.bind (judgment.parent _ _ _ _ _)
        intro candidate
        apply judgment.bind (judgment.asks _)
        intro finished
        apply judgment.bind (judgment.prefer recovers _ _ _)
        intro better
        exact judgment.ite (judgment.update _) (judgment.pure _)
      exact judgment.ite
        (judgment.bind recovers (fun _ => rebuilds)) rebuilds

/-- Accepting. -/
theorem accept
    (version : Nat)
    (eof : TFToken) :
    holds (accept env version eof) := by
  apply judgment.bind (judgment.asks _)
  intro left
  apply judgment.bind (judgment.forEach (fun _ => judgment.extend) _)
  intro _
  apply judgment.bind (judgment.asks _)
  intro head
  apply judgment.bind (judgment.asks _)
  intro byte
  apply judgment.bind (judgment.newTree _)
  intro leaf
  apply judgment.bind (judgment.push _ _ _)
  intro pushed
  apply judgment.bind (judgment.update _)
  intro _
  apply judgment.bind (judgment.pop _ _ _)
  intro _
  apply judgment.bind (judgment.asks _)
  intro slices
  apply judgment.bind
    (judgment.forEach (fun slice => judgment.acceptPath recovers _) _)
  intro _
  cases slices with
  | nil =>
      exact judgment.update _
  | cons slice rest =>
      exact judgment.bind (judgment.removeHead _)
        (fun _ => judgment.update _)

/-- Taking the actions of an entry. -/
theorem advanceActions
    (version : Nat)
    (state : TSStateId)
    (token : TFToken)
    (actions : List TSParseAction)
    (last : Option Nat)
    (any : Bool) :
    holds (advanceActions env version state token actions last any) := by
  induction actions generalizing last any with
  | nil =>
      exact judgment.pure _
  | cons action rest inductionHypothesis =>
      cases action with
      | shift target extra repetition =>
          exact judgment.bind (judgment.shift _ _ _ _)
            (fun _ => judgment.pure _)
      | reduce childCount symbol dynamicPrecedence productionId =>
          exact judgment.bind (judgment.reduce recovers _ _ _ _ _)
            (fun created => inductionHypothesis _ _)
      | accept =>
          exact judgment.bind (judgment.accept recovers _ _)
            (fun _ => judgment.pure _)
      | recover =>
          exact inductionHypothesis _ _

/-- Advancing a head past one token. -/
theorem advance
    (version : Nat) :
    holds (advance env version) := by
  apply judgment.bind (judgment.asks _)
  intro head
  apply judgment.bind (judgment.lex _)
  intro lexed
  cases lexed with
  | none =>
      exact judgment.halt _ _
  | some found =>
      refine judgment.iterate (fun token => ?_) _ _
      apply judgment.bind (judgment.asks _)
      intro state
      apply judgment.bind (judgment.advanceActions recovers _ _ _ _ _ _)
      intro pass
      split
      · exact judgment.pure _
      · apply judgment.bind (judgment.update _)
        intro _
        exact judgment.bind (judgment.removeHead _)
          (fun _ => judgment.pure _)
      · exact judgment.bind (judgment.halt _ _) (fun _ => judgment.pure _)
      · split
        · exact judgment.pure _
        · apply judgment.bind (judgment.update _)
          intro _
          exact judgment.bind (judgment.halt _ _) (fun _ => judgment.pure _)

/-- Condensing one head. -/
theorem condenseHead
    (precedence : Int)
    (i : Nat)
    (others : List Nat) :
    holds (condenseHead env precedence i others) := by
  induction others with
  | nil =>
      exact judgment.pure _
  | cons j rest inductionHypothesis =>
      apply judgment.bind (judgment.asks _)
      intro outranks
      apply judgment.bind (judgment.merge recovers _ _ _)
      intro merged
      apply judgment.ite (judgment.pure _)
      exact judgment.ite
        (judgment.bind (judgment.update _) (fun _ => inductionHypothesis))
        inductionHypothesis

/-- Condensing the heads. -/
theorem condense : holds (condense env) := by
  refine judgment.bind ?_ (fun _ => ?_)
  · refine judgment.iterate (fun i => ?_) _ _
    apply judgment.bind (judgment.asks _)
    intro count
    apply judgment.ite (judgment.pure _)
    apply judgment.bind (judgment.asks _)
    intro head
    apply judgment.ite
    · exact judgment.bind (judgment.removeHead _) (fun _ => judgment.pure _)
    · apply judgment.bind (judgment.asks _)
      intro precedence
      apply judgment.bind (judgment.condenseHead recovers _ _ _)
      intro merged
      exact judgment.ite (judgment.pure _) (judgment.pure _)
  · apply judgment.bind (judgment.asks _)
    intro count
    refine judgment.ite ?_ (judgment.pure _)
    exact judgment.bind (judgment.update _) (fun _ => judgment.update _)

/-- Advancing one head until it passes the others or halts. -/
theorem advanceHead
    (version lastPosition : Nat) :
    holds (advanceHead env version lastPosition) := by
  refine judgment.iterate (fun lastPosition => ?_) _ _
  apply judgment.bind (judgment.asks _)
  intro head
  apply judgment.ite (judgment.pure _)
  apply judgment.bind (judgment.advance recovers _)
  intro _
  apply judgment.bind (judgment.asks _)
  intro position
  exact judgment.ite (judgment.pure _) (judgment.pure _)

/-- Advancing every head. -/
theorem advanceHeads
    (lastPosition : Nat) :
    holds (advanceHeads env lastPosition) := by
  refine judgment.iterate (fun current => ?_) _ _
  apply judgment.bind (judgment.asks _)
  intro heads
  apply judgment.ite (judgment.pure _)
  exact judgment.bind (judgment.advanceHead recovers _ _)
    (fun position => judgment.pure _)

/-- Going round until one alternative is left. -/
theorem rounds : holds (rounds env) := by
  refine judgment.iterate (fun lastPosition => ?_) _ _
  apply judgment.bind (judgment.advanceHeads recovers _)
  intro position
  apply judgment.bind (judgment.condense recovers)
  intro _
  apply judgment.bind (judgment.asks _)
  intro left
  split
  · exact judgment.pure _
  · exact judgment.pure _
  · apply judgment.bind (judgment.unique _ _)
    intro single
    refine judgment.ite ?_ (judgment.pure _)
    apply judgment.bind (judgment.pop _ _ _)
    intro _
    apply judgment.bind (judgment.asks _)
    intro slices
    split
    · exact judgment.pure _
    · exact judgment.stop _
  · exact judgment.pure _

/-- Exploring a conflict. -/
theorem explore : holds (explore env) := by
  apply judgment.bind (judgment.reserve _ _)
  intro _
  apply judgment.bind (judgment.asks _)
  intro owner
  apply judgment.bind (judgment.addNode _)
  intro top
  exact judgment.bind (judgment.newHead _)
    (fun _ => judgment.rounds recovers)

end Rounds

end Judgment

end TFSpec

end TreeFeller
