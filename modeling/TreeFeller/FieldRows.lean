import TreeFeller.Language

namespace TreeFeller.TFLanguage

/-!
# The flattened field map

Loading flattens the per-production field maps into one row per production.
Reading a row gives what scanning the production's entries gives: the field of
the first entry that names the child directly.
-/

/-- Whether an entry gives the child at an index its field directly. -/
def namesChild (index : Nat) (entry : TSFieldMapEntry) : Bool :=
  !entry.inherited && entry.childIndex == index && entry.fieldId != 0

/-- The field a list of entries gives the child at an index directly. -/
def directField
    (entries : List TSFieldMapEntry)
    (index : Nat) :
    TSFieldId :=
  ((entries.find? (namesChild index)).map TSFieldMapEntry.fieldId).getD 0

/-- A direct entry stands within a width. -/
def WithinWidth (width : Nat) (entry : TSFieldMapEntry) : Prop :=
  entry.inherited = false → entry.childIndex < width

/-- Filling a row keeps what it has and adds the first entry for the rest. -/
theorem foldl_fieldRow
    {width : Nat}
    (entries : List TSFieldMapEntry)
    (within : ∀ entry ∈ entries, WithinWidth width entry)
    (row : List TSFieldId)
    (rowWidth : row.length = width)
    (index : Nat) :
    (entries.foldl
        (fun row entry =>
          if !entry.inherited && row.getD entry.childIndex 0 == 0 then
            row.set entry.childIndex entry.fieldId
          else
            row)
        row).getD index 0 =
      if row.getD index 0 ≠ 0 then
        row.getD index 0
      else
        directField entries index := by
  induction entries generalizing row with
  | nil =>
      simp [directField]
  | cons entry rest inductionHypothesis =>
      have restWithin :
          ∀ later ∈ rest, WithinWidth width later :=
        fun later member => within later (by simp [member])
      have entryWithin := within entry (by simp)
      rw [List.foldl_cons]
      by_cases writes :
          (!entry.inherited && row.getD entry.childIndex 0 == 0) = true
      · rw [if_pos writes,
          inductionHypothesis restWithin _ (by simpa using rowWidth)]
        simp only [Bool.and_eq_true, Bool.not_eq_true', beq_iff_eq]
          at writes
        have inRow : entry.childIndex < row.length := by
          rw [rowWidth]
          exact entryWithin writes.1
        by_cases here : entry.childIndex = index
        · subst here
          have empty := writes.2
          by_cases zero : entry.fieldId = 0
          · simp [List.getD_eq_getElem?_getD, inRow, zero,
              directField, namesChild]
            simp [List.getD_eq_getElem?_getD, inRow] at empty
            simp [empty]
          · simp [List.getD_eq_getElem?_getD, inRow, zero,
              directField, namesChild, writes.1]
            simp [List.getD_eq_getElem?_getD, inRow] at empty
            simp [empty]
        · have unchanged :
              (row.set entry.childIndex entry.fieldId).getD index 0 =
                row.getD index 0 := by
            simp [List.getD_eq_getElem?_getD, here]
          rw [unchanged]
          simp [directField, namesChild, here]
      · rw [if_neg writes, inductionHypothesis restWithin _ rowWidth]
        by_cases taken : row.getD index 0 ≠ 0
        · rw [if_pos taken, if_pos taken]
        · have notNamed : namesChild index entry = false := by
            by_contra named
            simp only [namesChild, Bool.not_eq_false, Bool.and_eq_true,
              Bool.not_eq_true', beq_iff_eq] at named
            obtain ⟨⟨direct, here⟩, _⟩ := named
            subst here
            simp [direct] at writes taken
            exact writes taken
          rw [if_neg taken, if_neg taken]
          simp [directField, notNamed]

/-- Folding over one production's entries only ever widens. -/
theorem le_foldl_entries
    (entries : List TSFieldMapEntry)
    (width : Nat) :
    width ≤
      entries.foldl
        (fun width entry =>
          if !entry.inherited && width < entry.childIndex + 1 then
            entry.childIndex + 1
          else
            width)
        width := by
  induction entries generalizing width with
  | nil =>
      simp
  | cons entry rest inductionHypothesis =>
      rw [List.foldl_cons]
      refine Nat.le_trans ?_ (inductionHypothesis _)
      split
      · rename_i wider
        simp only [Bool.and_eq_true, decide_eq_true_eq] at wider
        omega
      · exact Nat.le_refl width

/-- One production's entries stand within the width folded over them. -/
theorem within_foldl_entries
    (entries : List TSFieldMapEntry)
    (width : Nat)
    {entry : TSFieldMapEntry}
    (member : entry ∈ entries) :
    WithinWidth
      (entries.foldl
        (fun width entry =>
          if !entry.inherited && width < entry.childIndex + 1 then
            entry.childIndex + 1
          else
            width)
        width)
      entry := by
  induction entries generalizing width with
  | nil =>
      cases member
  | cons first rest inductionHypothesis =>
      rw [List.foldl_cons]
      rcases List.mem_cons.mp member with isFirst | inRest
      · subst isFirst
        intro direct
        refine Nat.lt_of_lt_of_le ?_ (le_foldl_entries rest _)
        simp only [direct, Bool.not_false, Bool.true_and,
          decide_eq_true_eq]
        split <;> omega
      · exact inductionHypothesis _ inRest

/-- Folding over productions only ever widens. -/
theorem le_foldl_productions
    (ts : TSLanguage)
    (productions : List Nat)
    (width : Nat) :
    width ≤
      productions.foldl
        (fun width production =>
          (fieldMap ts production).foldl
            (fun width entry =>
              if !entry.inherited && width < entry.childIndex + 1 then
                entry.childIndex + 1
              else
                width)
            width)
        width := by
  induction productions generalizing width with
  | nil =>
      simp
  | cons production rest inductionHypothesis =>
      rw [List.foldl_cons]
      exact Nat.le_trans (le_foldl_entries _ width)
        (inductionHypothesis _)

/-- Every production's entries stand within the flattened width. -/
theorem within_expandFieldWidth
    (ts : TSLanguage)
    {production : Nat}
    (inRange : production < ts.productionIdCount)
    {entry : TSFieldMapEntry}
    (member : entry ∈ fieldMap ts production) :
    WithinWidth (expandFieldWidth ts) entry := by
  have within :
      ∀ (productions : List Nat) (width : Nat),
        production ∈ productions →
          WithinWidth
            (productions.foldl
              (fun width production =>
                (fieldMap ts production).foldl
                  (fun width entry =>
                    if !entry.inherited && width < entry.childIndex + 1 then
                      entry.childIndex + 1
                    else
                      width)
                  width)
              width)
            entry := by
    intro productions
    induction productions with
    | nil =>
        intro width inNone
        cases inNone
    | cons first rest inductionHypothesis =>
        intro width inProductions
        rw [List.foldl_cons]
        rcases List.mem_cons.mp inProductions with isFirst | inRest
        · subst isFirst
          intro direct
          exact Nat.lt_of_lt_of_le
            (within_foldl_entries _ width member direct)
            (le_foldl_productions ts rest _)
        · exact inductionHypothesis _ inRest
  exact within _ _ (List.mem_range.mpr inRange)

/-- Reading one row of a flattened table. -/
theorem getElem?_flatMap_range {α : Type}
    (row : Nat → List α)
    {width : Nat}
    (rowWidth : ∀ index, (row index).length = width)
    {count index column : Nat}
    (inRange : index < count)
    (inRow : column < width) :
    ((List.range count).flatMap row)[index * width + column]? =
      (row index)[column]? := by
  induction count with
  | zero =>
      omega
  | succ count inductionHypothesis =>
      have front :
          ((List.range count).flatMap row).length = count * width := by
        simp [List.length_flatMap, rowWidth]
      rw [List.range_succ, List.flatMap_append]
      by_cases last : index = count
      · subst last
        rw [List.getElem?_append_right (by omega), front]
        simp
      · have before : index < count := by omega
        have inFront : index * width + column < count * width := by
          calc
            index * width + column < index * width + width := by omega
            _ = (index + 1) * width := by rw [Nat.succ_mul]
            _ ≤ count * width := Nat.mul_le_mul_right width before
        rw [List.getElem?_append_left (by omega)]
        exact inductionHypothesis before

/-- A filled row is as wide as asked for. -/
theorem length_expandFieldRow
    (width : Nat)
    (entries : List TSFieldMapEntry) :
    (expandFieldRow width entries).length = width := by
  have kept :
      ∀ (row : List TSFieldId),
        (entries.foldl
          (fun row entry =>
            if !entry.inherited && row.getD entry.childIndex 0 == 0 then
              row.set entry.childIndex entry.fieldId
            else
              row)
          row).length = row.length := by
    induction entries with
    | nil =>
        intro row
        rfl
    | cons entry rest inductionHypothesis =>
        intro row
        rw [List.foldl_cons, inductionHypothesis]
        split <;> simp
  rw [expandFieldRow, kept]
  simp

/-- A filled row holds the direct fields of its entries. -/
theorem getD_expandFieldRow
    {width : Nat}
    {entries : List TSFieldMapEntry}
    (within : ∀ entry ∈ entries, WithinWidth width entry)
    (index : Nat) :
    (expandFieldRow width entries).getD index 0 =
      directField entries index := by
  have empty : (List.replicate width (0 : TSFieldId)).getD index 0 = 0 := by
    simp only [List.getD_eq_getElem?_getD, List.getElem?_replicate]
    split <;> rfl
  rw [expandFieldRow, foldl_fieldRow entries within _ (by simp), empty]
  simp

/-- Beyond the width no child has a direct field. -/
theorem directField_of_width_le
    {width : Nat}
    {entries : List TSFieldMapEntry}
    (within : ∀ entry ∈ entries, WithinWidth width entry)
    {index : Nat}
    (beyond : width ≤ index) :
    directField entries index = 0 := by
  have unnamed : entries.find? (namesChild index) = none := by
    rw [List.find?_eq_none]
    intro entry member named
    simp only [namesChild, Bool.and_eq_true, Bool.not_eq_true',
      beq_iff_eq] at named
    have inside := within entry member named.1.1
    omega
  simp [directField, unnamed]

/-- What loading put into the field table. -/
theorem Loaded.fieldRows
    {self : TFLanguage}
    (loaded : self.Loaded) :
    self.fieldAtWidth = expandFieldWidth self.ts ∧
      self.fieldAt = expandFieldAt self.ts (expandFieldWidth self.ts) := by
  simp only [Loaded, load] at loaded
  split_ifs at loaded
  split at loaded
  · cases loaded
  · have tables := Except.ok.inj loaded
    constructor
    · conv_lhs => rw [← tables]
    · conv_lhs => rw [← tables]

/-- A loaded row gives a child the field its production's entries give it. -/
theorem Loaded.fieldRowAt_eq
    {self : TFLanguage}
    (loaded : self.Loaded)
    {productionId : Nat}
    (inRange : productionId < self.ts.productionIdCount)
    (structural : Nat) :
    self.fieldRowAt productionId structural =
      directField (fieldMap self.ts productionId) structural := by
  obtain ⟨width, rows⟩ := loaded.fieldRows
  have within :
      ∀ entry ∈ fieldMap self.ts productionId,
        WithinWidth (expandFieldWidth self.ts) entry :=
    fun entry member => within_expandFieldWidth self.ts inRange member
  simp only [fieldRowAt, width, rows]
  split
  · rename_i inRow
    rw [← getD_expandFieldRow within, expandFieldAt,
      List.getD_eq_getElem?_getD,
      getElem?_flatMap_range _ (fun _ => length_expandFieldRow _ _)
        inRange inRow,
      ← List.getD_eq_getElem?_getD]
  · rename_i beyond
    exact (directField_of_width_le within (by omega)).symm

end TreeFeller.TFLanguage
