import TreeFeller.FieldRows
import TreeFeller.SmallTables

namespace TreeFeller.TFLanguage

/-!
# Loading preserves the tables

The generated tables are packed: a small state's row is a run of groups, a
value with the symbols it stands at, and an entry keeps actions that only
incremental parsing uses.  Loading expands them once.  What is read from the
expansion is what scanning the packed tables gives.
-/

/-! ## The parse table -/

/-- The symbols of a group. -/
def groupSymbols (table : Nat → Nat) (count position : Nat) : List Nat :=
  (List.range count).map (fun offset => table (position + offset))

/-- The groups of a small state: a value, and the symbols it stands at. -/
def groupsAt (table : Nat → Nat) : Nat → Nat → List (Nat × List Nat)
  | 0, _ => []
  | remaining + 1, position =>
      let count := table (position + 1)
      (table position, groupSymbols table count (position + 2)) ::
        groupsAt table remaining (position + 2 + count)

/-- The groups of a small state's row. -/
def smallGroups (ts : TSLanguage) (state : TSStateId) :
    List (Nat × List Nat) :=
  let position := ts.smallParseTableMap (state - ts.largeStateCount)
  groupsAt ts.smallParseTable (ts.smallParseTable position) (position + 1)

/-- The value of the group that contains a symbol, or 0. -/
def groupValue (groups : List (Nat × List Nat)) (symbol : Nat) : Nat :=
  ((groups.find? (fun group => group.2.contains symbol)).map
    Prod.fst).getD 0

/-- The packed table's cell for a state and a symbol. -/
def packedLookup
    (ts : TSLanguage)
    (state : TSStateId)
    (symbol : TSSymbol) :
    Nat :=
  if state < ts.largeStateCount then
    ts.parseTable (state * ts.symbolCount + symbol)
  else
    groupValue (smallGroups ts state) symbol

/-- Small rows list known symbols, each at most once; terminals are symbols. -/
structure WellPacked (ts : TSLanguage) : Prop where
  terminals : ts.tokenCount ≤ ts.symbolCount
  distinct :
    ∀ state, state < ts.stateCount → ts.largeStateCount ≤ state →
      ((smallGroups ts state).flatMap Prod.snd).Nodup
  known :
    ∀ state, state < ts.stateCount → ts.largeStateCount ≤ state →
      ∀ symbol ∈ (smallGroups ts state).flatMap Prod.snd,
        symbol < ts.symbolCount

/-- A section is written symbol by symbol. -/
theorem expandSection_eq
    (table : Nat → Nat)
    (value count position : Nat)
    (row : List Nat) :
    expandSection table value count position row =
      (groupSymbols table count position).foldl
        (fun row symbol => row.set symbol value) row := by
  induction count generalizing position row with
  | zero =>
      rfl
  | succ count inductionHypothesis =>
      rw [expandSection, inductionHypothesis]
      simp only [groupSymbols, List.range_succ_eq_map, List.map_cons,
        List.foldl_cons, List.map_map, Nat.add_zero]
      congr 2
      funext offset
      simp only [Function.comp_apply]
      congr 1
      omega

/-- A row is written group by group. -/
theorem expandGroups_eq
    (table : Nat → Nat)
    (remaining position : Nat)
    (row : List Nat) :
    expandGroups table remaining position row =
      (groupsAt table remaining position).foldl
        (fun row group =>
          group.2.foldl (fun row symbol => row.set symbol group.1) row)
        row := by
  induction remaining generalizing position row with
  | zero =>
      rfl
  | succ remaining inductionHypothesis =>
      simp only [expandGroups, groupsAt, List.foldl_cons]
      rw [inductionHypothesis, expandSection_eq]

/-- Writing a value at some symbols changes a row there and nowhere else. -/
theorem getD_foldl_set
    (symbols : List Nat)
    (value : Nat)
    (row : List Nat)
    (inRow : ∀ symbol ∈ symbols, symbol < row.length)
    (symbol : Nat) :
    (symbols.foldl (fun row symbol => row.set symbol value) row).getD
        symbol 0 =
      if symbol ∈ symbols then value else row.getD symbol 0 := by
  induction symbols generalizing row with
  | nil =>
      simp
  | cons first rest inductionHypothesis =>
      have firstIn := inRow first (by simp)
      have restIn :
          ∀ other ∈ rest, other < (row.set first value).length := by
        intro other member
        rw [List.length_set]
        exact inRow other (by simp [member])
      rw [List.foldl_cons, inductionHypothesis _ restIn]
      by_cases later : symbol ∈ rest
      · simp [later]
      · by_cases here : symbol = first
        · subst here
          simp [later, List.getD_eq_getElem?_getD, firstIn]
        · have apart : first ≠ symbol := fun same => here same.symm
          simp [later, here, List.getD_eq_getElem?_getD, apart]

/-- Writing at symbols keeps a row's length. -/
theorem length_foldl_set
    (symbols : List Nat)
    (value : Nat)
    (row : List Nat) :
    (symbols.foldl (fun row symbol => row.set symbol value) row).length =
      row.length := by
  induction symbols generalizing row with
  | nil =>
      rfl
  | cons first rest inductionHypothesis =>
      rw [List.foldl_cons, inductionHypothesis, List.length_set]

/-- Writing groups keeps a row's length. -/
theorem length_foldl_groups
    (groups : List (Nat × List Nat))
    (row : List Nat) :
    (groups.foldl
        (fun row group =>
          group.2.foldl (fun row symbol => row.set symbol group.1) row)
        row).length = row.length := by
  induction groups generalizing row with
  | nil =>
      rfl
  | cons first rest inductionHypothesis =>
      rw [List.foldl_cons, inductionHypothesis, length_foldl_set]

/-- A row written from groups holds each group's value at its symbols. -/
theorem getD_foldl_groups
    (groups : List (Nat × List Nat))
    (row : List Nat)
    (distinct : (groups.flatMap Prod.snd).Nodup)
    (inRow : ∀ symbol ∈ groups.flatMap Prod.snd, symbol < row.length)
    (symbol : Nat) :
    (groups.foldl
        (fun row group =>
          group.2.foldl (fun row symbol => row.set symbol group.1) row)
        row).getD symbol 0 =
      ((groups.find? (fun group => group.2.contains symbol)).map
        Prod.fst).getD (row.getD symbol 0) := by
  induction groups generalizing row with
  | nil =>
      simp
  | cons first rest inductionHypothesis =>
      rw [List.flatMap_cons] at distinct inRow
      obtain ⟨_, restDistinct, apart⟩ := List.nodup_append.mp distinct
      have firstIn : ∀ other ∈ first.2, other < row.length :=
        fun other member => inRow other (by simp [member])
      have restIn :
          ∀ other ∈ rest.flatMap Prod.snd,
            other <
              (first.2.foldl (fun row symbol => row.set symbol first.1)
                row).length := by
        intro other member
        rw [length_foldl_set]
        exact inRow other (List.mem_append_right _ member)
      rw [List.foldl_cons,
        inductionHypothesis _ restDistinct restIn,
        getD_foldl_set _ _ _ firstIn]
      by_cases here : symbol ∈ first.2
      · have notLater :
            rest.find? (fun group => group.2.contains symbol) = none := by
          rw [List.find?_eq_none]
          intro group member contains
          refine apart symbol here symbol ?_ rfl
          exact List.mem_flatMap.mpr
            ⟨group, member, List.contains_iff_mem.mp contains⟩
        rw [notLater]
        simp [here]
      · have notHere : first.2.contains symbol = false := by
          simpa using here
        rw [if_neg here, List.find?_cons, notHere]

/-- Every row is as wide as there are symbols. -/
theorem length_expandRow (ts : TSLanguage) (state : TSStateId) :
    (expandRow ts state).length = ts.symbolCount := by
  unfold expandRow
  split
  · simp
  · rw [expandGroups_eq, length_foldl_groups]
    simp

/-- An expanded row holds what the packed row does. -/
theorem getD_expandRow
    {ts : TSLanguage}
    (packed : WellPacked ts)
    {state : TSStateId}
    (isState : state < ts.stateCount)
    {symbol : TSSymbol}
    (isSymbol : symbol < ts.symbolCount) :
    (expandRow ts state).getD symbol 0 = packedLookup ts state symbol := by
  unfold expandRow packedLookup
  split
  · simp [List.getD_eq_getElem?_getD, isSymbol]
  · rename_i small
    have smallState : ts.largeStateCount ≤ state := Nat.le_of_not_lt small
    have zero : (List.replicate ts.symbolCount 0).getD symbol 0 = 0 := by
      simp [List.getD_eq_getElem?_getD, isSymbol]
    have read :=
      getD_foldl_groups (smallGroups ts state)
        (List.replicate ts.symbolCount 0)
        (packed.distinct state isState smallState)
        (by
          rw [List.length_replicate]
          exact packed.known state isState smallState)
        symbol
    rw [zero] at read
    rw [expandGroups_eq]
    exact read

/-- The expanded table holds what the packed one does. -/
theorem lookup_eq_packedLookup
    {self : TFLanguage}
    (packed : WellPacked self.ts)
    (expanded : self.dense = expandDense self.ts)
    {state : TSStateId}
    (isState : state < self.ts.stateCount)
    {symbol : TSSymbol}
    (isSymbol : symbol < self.ts.symbolCount) :
    self.lookup state symbol = packedLookup self.ts state symbol := by
  rw [← getD_expandRow packed isState isSymbol, lookup, expanded,
    expandDense, List.getD_eq_getElem?_getD,
    getElem?_flatMap_range _ (length_expandRow self.ts) isState isSymbol,
    ← List.getD_eq_getElem?_getD]

/-! ## The action table -/

/-- The actions of an entry, `SHIFT_REPEAT` included. -/
def entryActions (ts : TSLanguage) (index : Nat) : List TSParseAction :=
  actionsAt ts index (ts.parseActions index).count

/-- The actions of an entry that a parse from scratch takes. -/
def parseActionsOf (ts : TSLanguage) (index : Nat) : List TSParseAction :=
  (entryActions ts index).filter (fun action => !isRepeatShift action)

/-- Only `SHIFT_REPEAT` actions follow a `SHIFT_REPEAT` action. -/
def RepeatsTrail (actions : List TSParseAction) : Prop :=
  actions.Pairwise
    (fun earlier later =>
      isRepeatShift earlier = true → isRepeatShift later = true)

/-- The leading actions are a prefix that a filter keeps. -/
theorem filter_eq_take_keptCount
    {actions : List TSParseAction}
    (trailing :
      (actions.drop (keptCount actions)).all isRepeatShift = true) :
    actions.filter (fun action => !isRepeatShift action) =
      actions.take (keptCount actions) := by
  induction actions with
  | nil =>
      rfl
  | cons first rest inductionHypothesis =>
      by_cases repeated : isRepeatShift first = true
      · have all : (first :: rest).all isRepeatShift = true := by
          simpa [keptCount, repeated] using trailing
        have none :
            (first :: rest).filter
              (fun action => !isRepeatShift action) = [] := by
          rw [List.filter_eq_nil_iff]
          intro action member
          simp [List.all_eq_true.mp all action member]
        rw [none]
        simp [keptCount, repeated]
      · have later :=
          inductionHypothesis
            (by simpa [keptCount, repeated] using trailing)
        simpa [keptCount, repeated] using later

/-- The check after the leading actions is that repeats trail. -/
theorem all_drop_keptCount_iff (actions : List TSParseAction) :
    (actions.drop (keptCount actions)).all isRepeatShift = true ↔
      RepeatsTrail actions := by
  induction actions with
  | nil =>
      simp [RepeatsTrail]
  | cons first rest inductionHypothesis =>
      by_cases repeated : isRepeatShift first = true
      · have all :
            ((first :: rest).drop (keptCount (first :: rest))) =
              first :: rest := by
          simp [keptCount, repeated]
        rw [all]
        unfold RepeatsTrail
        rw [List.pairwise_cons]
        simp only [List.all_cons, repeated, Bool.true_and,
          List.all_eq_true, forall_true_left]
        constructor
        · intro later
          refine ⟨later, ?_⟩
          exact List.pairwise_of_forall_mem_list
            (fun _ _ other member _ => later other member)
        · rintro ⟨later, _⟩
          exact later
      · have dropped :
            ((first :: rest).drop (keptCount (first :: rest))) =
              rest.drop (keptCount rest) := by
          simp [keptCount, repeated]
        rw [dropped, inductionHypothesis]
        unfold RepeatsTrail
        rw [List.pairwise_cons]
        simp [repeated]

/-- The leading actions of an entry are some of its actions. -/
theorem keptCount_le (actions : List TSParseAction) :
    keptCount actions ≤ actions.length :=
  (List.takeWhile_prefix _).length_le

/-- Fewer of an entry's actions are a prefix of them. -/
theorem actionsAt_eq_take
    (ts : TSLanguage)
    (index : Nat)
    {count total : Nat}
    (fewer : count ≤ total) :
    actionsAt ts index count = (actionsAt ts index total).take count := by
  unfold actionsAt
  rw [← List.map_take, List.take_range, Nat.min_eq_left fewer]

/-- Counts that were recorded from entries whose repeats trail. -/
structure Recorded (ts : TSLanguage) (counts : List Nat) : Prop where
  counted :
    ∀ index, counts.getD index 0 ≠ 0 →
      counts.getD index 0 = keptCount (entryActions ts index) ∧
        RepeatsTrail (entryActions ts index)
  empty : counts.getD 0 0 = 0

/-- What is known of a cell's entry once it has been recorded. -/
def RecordedAt (ts : TSLanguage) (counts : List Nat) (index : Nat) : Prop :=
  index ≠ 0 →
    counts.getD index 0 = keptCount (entryActions ts index) ∧
      RepeatsTrail (entryActions ts index)

/-- The message of a rejected action table. -/
def repeatsMessage : String :=
  "SHIFT_REPEAT actions are not trailing in an action entry"

/-- Recording one entry: it is rejected, or recorded beside the others. -/
theorem fillCount_cases
    {ts : TSLanguage}
    {extent index : Nat}
    {counts : List Nat}
    (recorded : Recorded ts counts)
    (length : counts.length = extent)
    (inside : index ≠ 0 → index < extent) :
    (fillCount ts extent index counts = .error repeatsMessage ∧
        index ≠ 0 ∧ ¬ RepeatsTrail (entryActions ts index)) ∨
      ∃ filled,
        fillCount ts extent index counts = .ok filled ∧
          Recorded ts filled ∧ filled.length = extent ∧
          RecordedAt ts filled index ∧
          ∀ other, RecordedAt ts counts other →
            RecordedAt ts filled other := by
  unfold fillCount
  by_cases empty : index = 0
  · rw [if_pos empty]
    exact Or.inr ⟨counts, rfl, recorded, length,
      fun positive => absurd empty positive, fun _ holds => holds⟩
  · have within := inside empty
    rw [if_neg empty, if_neg (Nat.not_le.mpr within)]
    by_cases known : counts.getD index 0 ≠ 0
    · rw [if_pos known]
      exact Or.inr ⟨counts, rfl, recorded, length,
        fun _ => recorded.counted index known, fun _ holds => holds⟩
    · rw [if_neg known]
      dsimp only
      change (if (((entryActions ts index).drop
        (keptCount (entryActions ts index))).all isRepeatShift) = true
          then _ else _) = _ ∧ _ ∨ _
      by_cases trail : RepeatsTrail (entryActions ts index)
      · have checked := (all_drop_keptCount_iff _).mpr trail
        have here :
            (counts.set index (keptCount (entryActions ts index))).getD
                index 0 =
              keptCount (entryActions ts index) := by
          simp [List.getD_eq_getElem?_getD, length, within]
        have elsewhere :
            ∀ other, index ≠ other →
              (counts.set index (keptCount (entryActions ts index))).getD
                  other 0 =
                counts.getD other 0 := by
          intro other apart
          simp [List.getD_eq_getElem?_getD, apart]
        refine Or.inr
          ⟨counts.set index (keptCount (entryActions ts index)),
            ?_, ⟨?_, ?_⟩, ?_, ?_, ?_⟩
        · change (if (((entryActions ts index).drop
            (keptCount (entryActions ts index))).all isRepeatShift) = true
              then _ else _) = _
          rw [if_pos checked]
          rfl
        · intro other positive
          by_cases same : index = other
          · subst same
            exact ⟨here, trail⟩
          · rw [elsewhere other same] at positive ⊢
            exact recorded.counted other positive
        · rw [elsewhere 0 empty]
          exact recorded.empty
        · rw [List.length_set, length]
        · exact fun _ => ⟨here, trail⟩
        · intro other holds positive
          by_cases same : index = other
          · subst same
            exact ⟨here, trail⟩
          · rw [elsewhere other same]
            exact holds positive
      · have rejected :
            ¬ (((entryActions ts index).drop
              (keptCount (entryActions ts index))).all
                isRepeatShift) = true :=
          fun checked => trail ((all_drop_keptCount_iff _).mp checked)
        left
        rw [if_neg rejected]
        exact ⟨rfl, empty, trail⟩

/-- Recording a list of cells: all of them, unless an entry is rejected. -/
theorem fillCounts_cases
    {ts : TSLanguage}
    {lookup : TSStateId → TSSymbol → Nat}
    {extent : Nat}
    (cells : List (TSStateId × TSSymbol))
    (inside :
      ∀ cell ∈ cells, lookup cell.1 cell.2 ≠ 0 →
        lookup cell.1 cell.2 < extent)
    {counts : List Nat}
    (recorded : Recorded ts counts)
    (length : counts.length = extent) :
    (fillCounts ts lookup extent cells counts = .error repeatsMessage ∧
        ∃ cell ∈ cells, lookup cell.1 cell.2 ≠ 0 ∧
          ¬ RepeatsTrail (entryActions ts (lookup cell.1 cell.2))) ∨
      ∃ filled,
        fillCounts ts lookup extent cells counts = .ok filled ∧
          Recorded ts filled ∧
          (∀ cell ∈ cells, RecordedAt ts filled (lookup cell.1 cell.2)) ∧
          ∀ other, RecordedAt ts counts other →
            RecordedAt ts filled other := by
  induction cells generalizing counts with
  | nil =>
      exact Or.inr ⟨counts, rfl, recorded, by simp, fun _ holds => holds⟩
  | cons cell rest inductionHypothesis =>
      have first :=
        fillCount_cases recorded length (inside cell (by simp))
      simp only [fillCounts]
      rcases first with
        ⟨rejects, positive, unsorted⟩ |
          ⟨filled, fills, recordedFilled, lengthFilled, here, kept⟩
      · rw [rejects]
        exact Or.inl ⟨rfl, cell, by simp, positive, unsorted⟩
      · rw [fills]
        rcases inductionHypothesis
            (fun other member => inside other (by simp [member]))
            recordedFilled lengthFilled with
          ⟨rejects, other, member, positive, unsorted⟩ |
            ⟨last, lastFills, lastRecorded, cellsRecorded, lastKept⟩
        · exact Or.inl ⟨rejects, other, by simp [member], positive, unsorted⟩
        · refine Or.inr ⟨last, lastFills, lastRecorded, ?_, ?_⟩
          · intro other member
            rcases List.mem_cons.mp member with same | later
            · rw [same]
              exact lastKept _ here
            · exact cellsRecorded other later
          · intro other holds
            exact lastKept other (kept other holds)

/-- The extent of the action table only grows. -/
theorem le_foldl_extent
    (ts : TSLanguage)
    (lookup : TSStateId → TSSymbol → Nat)
    (cells : List (TSStateId × TSSymbol))
    (extent : Nat) :
    extent ≤
      cells.foldl
        (fun extent cell =>
          let index := lookup cell.1 cell.2
          if index = 0 then
            extent
          else
            max extent (index + 1 + (ts.parseActions index).count))
        extent := by
  induction cells generalizing extent with
  | nil =>
      exact Nat.le_refl _
  | cons cell rest inductionHypothesis =>
      rw [List.foldl_cons]
      refine Nat.le_trans ?_ (inductionHypothesis _)
      dsimp only
      split
      · exact Nat.le_refl _
      · exact Nat.le_max_left _ _

/-- Every entry that a cell refers to lies within the extent. -/
theorem lt_foldl_extent
    (ts : TSLanguage)
    (lookup : TSStateId → TSSymbol → Nat)
    (cells : List (TSStateId × TSSymbol))
    (extent : Nat)
    {cell : TSStateId × TSSymbol}
    (member : cell ∈ cells)
    (positive : lookup cell.1 cell.2 ≠ 0) :
    lookup cell.1 cell.2 <
      cells.foldl
        (fun extent cell =>
          let index := lookup cell.1 cell.2
          if index = 0 then
            extent
          else
            max extent (index + 1 + (ts.parseActions index).count))
        extent := by
  induction cells generalizing extent with
  | nil =>
      cases member
  | cons first rest inductionHypothesis =>
      rw [List.foldl_cons]
      rcases List.mem_cons.mp member with same | later
      · subst same
        refine Nat.lt_of_lt_of_le ?_
          (le_foldl_extent ts lookup rest _)
        dsimp only
        rw [if_neg positive]
        have reached :=
          Nat.le_max_right extent
            (lookup cell.1 cell.2 + 1 +
              (ts.parseActions (lookup cell.1 cell.2)).count)
        omega
      · exact inductionHypothesis _ later

/-- A state paired with a terminal is a cell that is scanned. -/
theorem mem_stateTerminals
    {ts : TSLanguage}
    {state : TSStateId}
    {symbol : TSSymbol} :
    (state, symbol) ∈ stateTerminals ts ↔
      state < ts.stateCount ∧ symbol < ts.tokenCount := by
  simp [stateTerminals]

/-! ## Loading -/

/-- A grammar that passes every check before that of its actions. -/
structure PassesChecks (ts : TSLanguage) : Prop where
  version : ts.abiVersion = tfAbiVersion
  tables :
    ¬ (ts.symbolCount = 0 ∨ ts.stateCount = 0 ∨ ts.tokenCount = 0 ∨
      ts.productionIdCount = 0)
  scanner : ts.externalTokenCount = 0
  extras :
    (List.range ts.stateCount).any
      (fun state => (ts.lexModes state).lexState == 65535) = false
  size : ts.stateCount * ts.symbolCount ≤ 64 * 1024 * 1024

/-- The table of a language before its actions are counted. -/
def expandedTable (ts : TSLanguage) (state symbol : Nat) : Nat :=
  (expandDense ts).getD (state * ts.symbolCount + symbol) 0

/-- A grammar that passes the checks loads, or an entry is rejected. -/
theorem load_cases
    {ts : TSLanguage}
    (passes : PassesChecks ts) :
    (load (some ts) = .error repeatsMessage ∧
        ∃ state symbol,
          state < ts.stateCount ∧ symbol < ts.tokenCount ∧
            expandedTable ts state symbol ≠ 0 ∧
            ¬ RepeatsTrail
                (entryActions ts (expandedTable ts state symbol))) ∨
      ∃ self,
        load (some ts) = .ok self ∧ self.ts = ts ∧
          self.dense = expandDense ts ∧
          Recorded ts self.actionCounts ∧
          (∀ state symbol,
            state < ts.stateCount → symbol < ts.tokenCount →
              RecordedAt ts self.actionCounts (self.lookup state symbol)) ∧
          self.acceptsEnd =
            (List.range ts.stateCount).map self.acceptsEndAt := by
  have empty :
      ∀ extent, Recorded ts (List.replicate extent 0) := by
    intro extent
    have zero :
        ∀ index, (List.replicate extent 0).getD index 0 = 0 := by
      intro index
      simp only [List.getD_eq_getElem?_getD, List.getElem?_replicate]
      split <;> rfl
    exact ⟨fun index positive => absurd (zero index) positive, zero 0⟩
  simp only [load]
  rw [if_neg (fun other => other passes.version), if_neg passes.tables,
    if_neg (fun other => other passes.scanner),
    if_neg (by simp [passes.extras]), if_neg (Nat.not_lt.mpr passes.size)]
  rcases fillCounts_cases (stateTerminals ts)
      (fun cell member positive =>
        lt_foldl_extent ts (expandedTable ts) _ 1 member positive)
      (empty _) List.length_replicate with
    ⟨rejects, cell, member, positive, unsorted⟩ |
      ⟨counts, fills, recorded, cells, _⟩
  · left
    refine ⟨?_, cell.1, cell.2, ?_⟩
    · split
      · rename_i message rejected
        have same := rejects.symm.trans rejected
        rw [Except.error.inj same]
      · rename_i counts filled
        cases rejects.symm.trans filled
    · obtain ⟨isState, isTerminal⟩ := mem_stateTerminals.mp member
      exact ⟨isState, isTerminal, positive, unsorted⟩
  · right
    split
    · rename_i message rejected
      cases fills.symm.trans rejected
    · rename_i counts' filled
      have same := Except.ok.inj (fills.symm.trans filled)
      subst same
      refine ⟨_, rfl, rfl, rfl, recorded, ?_, rfl⟩
      intro state symbol isState isTerminal
      exact cells (state, symbol)
        (mem_stateTerminals.mpr ⟨isState, isTerminal⟩)

/-- A grammar that loads passes the checks. -/
theorem passesChecks_of_load
    {ts : TSLanguage}
    {self : TFLanguage}
    (loads : load (some ts) = .ok self) :
    PassesChecks ts := by
  simp only [load] at loads
  split_ifs at loads with version tables scanner extras size
  exact ⟨by simpa using version, tables, by simpa using scanner,
    by simpa using extras, Nat.le_of_not_lt size⟩

/-- An action of a cell is one of its entry. -/
theorem Loaded.entry_of_action
    {lang : TFLanguage}
    (loaded : lang.Loaded)
    {state : TSStateId}
    {symbol : TSSymbol}
    {action : TSParseAction}
    (known : action ∈ lang.actions state symbol) :
    ∃ offset : Nat,
      (entryActions lang.ts (lang.lookup state symbol))[offset]? =
        some action := by
  rcases load_cases (passesChecks_of_load loaded) with
    ⟨rejects, _⟩ | ⟨other, loads, _, _, recorded, _⟩
  · have contradiction := rejects.symm.trans loaded
    cases contradiction
  have same := Except.ok.inj (loads.symm.trans loaded)
  subst same
  let index := other.lookup state symbol
  let count := other.actionCounts.getD index 0
  obtain ⟨offset, member, isAction⟩ := List.mem_map.mp known
  have within : offset < count := List.mem_range.mp member
  have counted : count = keptCount (entryActions other.ts index) :=
    (recorded.counted index (Nat.ne_of_gt (Nat.zero_lt_of_lt within))).1
  have kept :
      keptCount (entryActions other.ts index) ≤
        (other.ts.parseActions index).count := by
    have shorter :=
      (List.takeWhile_sublist
        (fun action => !isRepeatShift action)
        (l := entryActions other.ts index)).length_le
    simpa [keptCount, entryActions, actionsAt] using shorter
  have inside : offset < (other.ts.parseActions index).count :=
    Nat.lt_of_lt_of_le within (Nat.le_trans (Nat.le_of_eq counted) kept)
  refine ⟨offset, ?_⟩
  unfold entryActions actionsAt
  rw [List.getElem?_map, List.getElem?_range inside]
  exact congrArg some isAction

/-- The expansions of a language agree with its packed tables. -/
structure Preserves (ts : TSLanguage) (self : TFLanguage) : Prop where
  lookup :
    ∀ state symbol,
      state < ts.stateCount → symbol < ts.symbolCount →
        self.lookup state symbol = packedLookup ts state symbol
  actions :
    ∀ state symbol,
      state < ts.stateCount → symbol < ts.tokenCount →
        self.actions state symbol =
          parseActionsOf ts (packedLookup ts state symbol)
  fields :
    ∀ production child,
      production < ts.productionIdCount →
        self.fieldRowAt production child =
          directField (fieldMap ts production) child
  acceptsEnd :
    ∀ state, state < ts.stateCount →
      (self.acceptsEnd.getD state false = true ↔
        parseActionsOf ts (packedLookup ts state tsBuiltinSymEnd) =
          [.accept])

/-- The recorded count cuts an entry down to what a parse takes. -/
theorem actionsAt_of_recordedAt
    {ts : TSLanguage}
    {counts : List Nat}
    {index : Nat}
    (recorded : Recorded ts counts)
    (entryZero : (ts.parseActions 0).count = 0)
    (here : RecordedAt ts counts index) :
    actionsAt ts index (counts.getD index 0) = parseActionsOf ts index := by
  by_cases zero : index = 0
  · subst zero
    rw [recorded.empty]
    simp [parseActionsOf, entryActions, entryZero, actionsAt]
  · obtain ⟨counted, trail⟩ := here zero
    have fewer :
        keptCount (entryActions ts index) ≤
          (ts.parseActions index).count := by
      refine Nat.le_trans (keptCount_le _) ?_
      simp [entryActions, actionsAt]
    rw [counted, parseActionsOf,
      filter_eq_take_keptCount ((all_drop_keptCount_iff _).mpr trail)]
    exact actionsAt_eq_take ts index fewer

/--
Whatever loads reads like its packed tables, and a grammar that passes the
other checks is rejected exactly for an entry whose repeats do not trail.
-/
theorem load_preserves_tables
    {ts : TSLanguage}
    (packed : WellPacked ts)
    (entryZero : (ts.parseActions 0).count = 0) :
    (∀ self, load (some ts) = .ok self → Preserves ts self) ∧
      (PassesChecks ts →
        (load (some ts) = .error repeatsMessage ↔
          ∃ state symbol,
            state < ts.stateCount ∧ symbol < ts.tokenCount ∧
              ¬ RepeatsTrail
                  (entryActions ts (packedLookup ts state symbol)))) := by
  have expanded :
      ∀ state symbol,
        state < ts.stateCount → symbol < ts.symbolCount →
          expandedTable ts state symbol = packedLookup ts state symbol := by
    intro state symbol isState isSymbol
    let self : TFLanguage := ⟨ts, expandDense ts, [], [], 0, [], []⟩
    have agrees : self.lookup state symbol = packedLookup ts state symbol :=
      lookup_eq_packedLookup packed rfl isState isSymbol
    exact agrees
  constructor
  · intro self loads
    have passes := passesChecks_of_load loads
    rcases load_cases passes with
      ⟨rejects, _⟩ |
        ⟨other, loadsOther, tables, dense, recorded, cells, ends⟩
    · cases loads.symm.trans rejects
    · have same := Except.ok.inj (loads.symm.trans loadsOther)
      subst same
      have lookup :
          ∀ state symbol,
            state < ts.stateCount → symbol < ts.symbolCount →
              self.lookup state symbol = packedLookup ts state symbol := by
        intro state symbol isState isSymbol
        rw [← expanded state symbol isState isSymbol]
        simp only [TFLanguage.lookup, tables, dense, expandedTable]
      have actions :
          ∀ state symbol,
            state < ts.stateCount → symbol < ts.tokenCount →
              self.actions state symbol =
                parseActionsOf ts (packedLookup ts state symbol) := by
        intro state symbol isState isTerminal
        have read :=
          lookup state symbol isState
            (Nat.lt_of_lt_of_le isTerminal packed.terminals)
        have here := cells state symbol isState isTerminal
        rw [read] at here
        simp only [TFLanguage.actions, read, tables]
        exact actionsAt_of_recordedAt recorded entryZero here
      refine ⟨lookup, actions, ?_, ?_⟩
      · intro production child inRange
        have fields :=
          (loaded_of_load loads).fieldRowAt_eq
            (by rw [tables]; exact inRange) child
        rw [fields, tables]
      · intro state isState
        have terminal : tsBuiltinSymEnd < ts.tokenCount :=
          Nat.pos_of_ne_zero
            (fun none => passes.tables (Or.inr (Or.inr (Or.inl none))))
        rw [← actions state tsBuiltinSymEnd isState terminal, ends]
        simp [List.getD_eq_getElem?_getD, isState, acceptsEndAt]
  · intro passes
    constructor
    · intro rejected
      rcases load_cases passes with
        ⟨_, state, symbol, isState, isTerminal, _, unsorted⟩ |
          ⟨other, loads, _⟩
      · refine ⟨state, symbol, isState, isTerminal, ?_⟩
        rw [← expanded state symbol isState
          (Nat.lt_of_lt_of_le isTerminal packed.terminals)]
        exact unsorted
      · cases loads.symm.trans rejected
    · rintro ⟨state, symbol, isState, isTerminal, unsorted⟩
      rcases load_cases passes with
        ⟨rejects, _⟩ | ⟨other, loads, tables, dense, _, cells, _⟩
      · exact rejects
      · exfalso
        have read :
            other.lookup state symbol =
              packedLookup ts state symbol := by
          rw [← expanded state symbol isState
            (Nat.lt_of_lt_of_le isTerminal packed.terminals)]
          simp only [TFLanguage.lookup, tables, dense, expandedTable]
        have here := cells state symbol isState isTerminal
        rw [read] at here
        by_cases zero : packedLookup ts state symbol = 0
        · rw [zero] at unsorted
          refine unsorted ?_
          simp [RepeatsTrail, entryActions, entryZero, actionsAt]
        · exact unsorted (here zero).2

/-- The field of the first direct entry for a child, whatever field it names. -/
def firstField
    (entries : List TSFieldMapEntry)
    (index : Nat) :
    TSFieldId :=
  ((entries.find?
      (fun entry => !entry.inherited && entry.childIndex == index)).map
    TSFieldMapEntry.fieldId).getD 0

/-- Tables whose first field entry for a child names no field. -/
def zeroFieldTables : TSLanguage :=
  { smallTables 2 1 2 [] [[]] [] [] with
    productionIdCount := 2
    fieldCount := 1
    maxAliasSequenceLength := 1
    fieldMapSlices := fun production =>
      if production = 1 then ⟨0, 2⟩ else ⟨0, 0⟩
    fieldMapEntries := fun index => ⟨index, 0, false⟩ }

/-- The tables of small grammars are packed well: no state is small. -/
theorem wellPacked_of_large
    {ts : TSLanguage}
    (terminals : ts.tokenCount ≤ ts.symbolCount)
    (large : ts.largeStateCount = ts.stateCount) :
    WellPacked ts where
  terminals := terminals
  distinct := by
    intro state isState small
    omega
  known := by
    intro state isState small
    omega

/-- An entry that names no field does not keep a later one from its child. -/
theorem load_skips_zero_field :
    WellPacked zeroFieldTables ∧
      (zeroFieldTables.parseActions 0).count = 0 ∧
      ∃ self,
        load (some zeroFieldTables) = .ok self ∧
          self.fieldRowAt 1 0 ≠
            firstField (fieldMap zeroFieldTables 1) 0 := by
  have computed :
      (load (some zeroFieldTables)).toOption.map
          (fun self => self.fieldRowAt 1 0) =
        some 1 := by
    decide +kernel
  refine ⟨wellPacked_of_large (by decide) rfl, by decide, ?_⟩
  obtain ⟨self, isSelf, field⟩ := Option.map_eq_some_iff.mp computed
  refine ⟨self, ?_, ?_⟩
  · cases loads : load (some zeroFieldTables) with
    | error message =>
        rw [loads] at isSelf
        cases isSelf
    | ok other =>
        rw [loads] at isSelf
        rw [Option.some.inj isSelf]
  · rw [field]
    decide

/--
Tables with three small rows, a repeated shift behind a reduction, and a field
that is inherited before another is given to the same child.
-/
def rowTables : TSLanguage :=
  { smallTables 4 2 5 [(97, 1)]
      [[], [.shift 2 false false],
        [.reduce 1 2 0 0, .shift 2 false true], [.reduce 1 3 0 1],
        [.accept]]
      [(1, 1, 1)] [(1, 2, 3), (1, 3, 4)] with
    largeStateCount := 2
    smallParseTableMap := fun row => [0, 5, 12].getD row 0
    smallParseTable := fun index =>
      [1, 3, 2, 0, 1, 2, 6, 1, 0, 1, 1, 1, 1, 8, 1, 0].getD index 0
    productionIdCount := 2
    fieldCount := 2
    maxAliasSequenceLength := 1
    fieldMapSlices := fun production =>
      if production = 1 then ⟨0, 2⟩ else ⟨0, 0⟩
    fieldMapEntries := fun index =>
      [⟨1, 0, true⟩, ⟨2, 0, false⟩].getD index ⟨0, 0, false⟩ }

/-- Their rows are packed well. -/
theorem rowTables_wellPacked : WellPacked rowTables where
  terminals := by decide
  distinct := by decide +kernel
  known := by decide +kernel

/-- They load, and are preserved. -/
theorem load_preserves_tables_rows :
    (load (some rowTables)).toOption.isSome = true ∧
      (∀ self,
        load (some rowTables) = .ok self → Preserves rowTables self) ∧
      (PassesChecks rowTables →
        (load (some rowTables) = .error repeatsMessage ↔
          ∃ state symbol,
            state < rowTables.stateCount ∧
              symbol < rowTables.tokenCount ∧
              ¬ RepeatsTrail
                  (entryActions rowTables
                    (packedLookup rowTables state symbol)))) := by
  refine ⟨by decide +kernel, ?_⟩
  exact load_preserves_tables rowTables_wellPacked (by decide)

end TreeFeller.TFLanguage
