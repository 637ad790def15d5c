import TestMeasures.Import.Importer
import TestMeasures.Proofs.PathOrder

/-!
# Publishing in blocks

A block is all that is published about one component. `save_blocks` is the fact that publication rests on:
into a store of whole blocks, blocks are saved whole up to the first whose component the store holds, and
that one is refused at its first measure, so the store is one of whole blocks again.
-/

namespace TestMeasures

/-- What is published about one component. -/
structure Block where
  component : Component
  counts : Counts

namespace Block

/-- The measures of a block: its four counts, then its execution time if the counts carry one. -/
def figures (block : Block) : List Measure :=
  [⟨block.component, .tests, block.counts.tests⟩,
    ⟨block.component, .skippedTests, block.counts.skipped⟩,
    ⟨block.component, .testFailures, block.counts.failures⟩,
    ⟨block.component, .testErrors, block.counts.errors⟩] ++
  block.counts.time.toList.map fun time => ⟨block.component, .testExecutionTime, time⟩

/-- Two blocks are about different components. -/
def Apart (a b : Block) : Prop :=
  ¬ a.component.same b.component = true

variable {block : Block} {measure : Measure}

/-- The measures of a component are the figures of its block. -/
theorem component_measures_eq (block : Block) :
    componentMeasures block.component block.counts = block.figures := by
  unfold componentMeasures figures Metric.all
  cases htime : block.counts.time <;> simp [Metric.value?, htime]

/-- The figures of a block are about its component. -/
theorem component_of_mem_figures (h : measure ∈ block.figures) : measure.component = block.component := by
  simp only [figures, List.mem_append, List.mem_cons, List.not_mem_nil, or_false, List.mem_map] at h
  rcases h with (rfl | rfl | rfl | rfl) | ⟨time, -, rfl⟩ <;> rfl

/-- No metric occurs twice in a block. -/
theorem figures_distinct (block : Block) : block.figures.Pairwise fun a b => a.metric ≠ b.metric := by
  unfold figures
  cases block.counts.time <;> simp

/-- The figures of a block start with the number of tests. -/
theorem figures_eq_cons (block : Block) :
    ∃ rest, block.figures = ⟨block.component, .tests, block.counts.tests⟩ :: rest :=
  ⟨_, rfl⟩

/-- Two blocks are apart in either order. -/
theorem Apart.symm {a b : Block} (h : a.Apart b) : b.Apart a :=
  fun hsame => h (Component.same_equivalence.symm hsame)

end Block

namespace Table

/-- The blocks of a table: its files, then the project. -/
def blocks (project : String) (table : Table) : List Block :=
  (table.files.map fun row => ⟨.file row.1, row.2⟩) ++ [⟨.project project, table.total⟩]

/-- The counts that a table has for a component. -/
def results? (project : String) (table : Table) : Component → Option Counts
  | .file path => table.file? path
  | .project key => if key = project then some table.total else none

/-- What is published about a table is the figures of its blocks. -/
theorem publication_eq (project : String) (table : Table) :
    publication project table = (table.blocks project).flatMap Block.figures := by
  simp only [publication, blocks, List.flatMap_append, List.flatMap_map, List.flatMap_singleton,
    ← Block.component_measures_eq]

/-- The first block of a component has the counts that the table has for it. -/
theorem results_eq_find (project : String) (table : Table) (component : Component) :
    table.results? project component =
      ((table.blocks project).find? fun block => component.same block.component).map Block.counts := by
  unfold blocks
  cases component with
  | project key =>
      have hfiles : (table.files.map fun row => (⟨.file row.1, row.2⟩ : Block)).find?
          (fun block => Component.same (.project key) block.component) = none := by
        simp [List.find?_eq_none, Component.same]
      rw [List.find?_append, hfiles, Option.none_or, results?]
      by_cases hkey : key = project <;> simp [Component.same, hkey]
  | file path =>
      have hproject : ([⟨.project project, table.total⟩] : List Block).find?
          (fun block => Component.same (.file path) block.component) = none := by
        simp [Component.same]
      rw [List.find?_append, hproject, Option.or_none, List.find?_map, results?, file?, get?, files]
      induction table.rows with
      | nil => rfl
      | cons row rest ih =>
          obtain ⟨key, counts⟩ := row
          cases key with
          | unattributed =>
              rw [List.find?_cons_of_neg (by simp [ResultKey.order]), ih]
              rfl
          | file other =>
              have hrow : ((ResultKey.file other, counts) :: rest).filterMap
                  (fun row => row.1.file?.map (·, row.2)) =
                    (other, counts) :: rest.filterMap fun row => row.1.file?.map (·, row.2) := rfl
              rw [hrow]
              by_cases hsame : path.components = other.components
              · have horder := ResultKey.order_file_eq_iff.mpr hsame
                have hcomponent := Component.same_file_iff.mpr hsame
                rw [List.find?_cons_of_pos (by simp [horder]),
                  List.find?_cons_of_pos (by simpa using hcomponent)]
                rfl
              · have horder := mt ResultKey.order_file_eq_iff.mp hsame
                have hcomponent := mt Component.same_file_iff.mp hsame
                rw [List.find?_cons_of_neg (by simpa using horder),
                  List.find?_cons_of_neg (by simpa using hcomponent), ih]

end Table

namespace Store

variable {store : Store} {held : List Block}

/-- The store holds nothing about a component. -/
def Lacks (store : Store) (component : Component) : Prop :=
  ∀ measure ∈ store.measures, ¬ measure.component.same component = true

/-- A store holds a measure exactly when it has one about the same component and metric. -/
theorem holds_iff {measure : Measure} :
    store.holds measure = true ↔
      ∃ other ∈ store.measures, measure.component.same other.component = true ∧
        measure.metric = other.metric := by
  simp [holds, Measure.clashes]

/-- A store of blocks lacks a component exactly when none of its blocks is about it. -/
theorem lacks_iff (hstore : store.measures = held.flatMap Block.figures) {component : Component} :
    store.Lacks component ↔ ∀ block ∈ held, ¬ block.component.same component = true := by
  unfold Lacks
  rw [hstore]
  constructor
  · intro h block hblock
    obtain ⟨rest, hfigures⟩ := block.figures_eq_cons
    exact h ⟨block.component, .tests, block.counts.tests⟩
      (List.mem_flatMap.mpr ⟨block, hblock, by simp [hfigures]⟩)
  · intro h measure hmeasure
    obtain ⟨block, hblock, hmeasure⟩ := List.mem_flatMap.mp hmeasure
    rw [Block.component_of_mem_figures hmeasure]
    exact h block hblock

/-- Measures and then others are saved by saving the measures and, if none is refused, the others. -/
theorem save_all_append (store : Store) (first second : List Measure) :
    store.saveAll (first ++ second) =
      match store.saveAll first with
      | (saved, none) => saved.saveAll second
      | failed => failed := by
  induction first generalizing store with
  | nil => rfl
  | cons measure rest ih =>
      simp only [List.cons_append, saveAll]
      cases store.save measure with
      | error refused => rfl
      | ok saved => exact ih saved

/-- Measures of one component that the store lacks are all saved. -/
theorem save_all_of_lacks {component : Component} {measures : List Measure}
    (hcomponent : ∀ measure ∈ measures, measure.component = component)
    (hmetrics : measures.Pairwise fun a b => a.metric ≠ b.metric)
    (hheld : ∀ other ∈ store.measures, other.component.same component = true →
      ∀ measure ∈ measures, measure.metric ≠ other.metric) :
    store.saveAll measures = (⟨store.measures ++ measures⟩, none) := by
  -- Saved measures join the store, so the hypothesis on it is about metrics and not about the component.
  induction measures generalizing store with
  | nil => simp [saveAll]
  | cons measure rest ih =>
      obtain ⟨hfirst, hrest⟩ := List.pairwise_cons.mp hmetrics
      have hfree : store.holds measure = false := by
        rw [Bool.eq_false_iff, Ne, holds_iff]
        rintro ⟨other, hother, hsame, hmetric⟩
        rw [hcomponent measure List.mem_cons_self] at hsame
        exact hheld other hother (Component.same_equivalence.symm hsame) measure List.mem_cons_self hmetric
      simp only [saveAll, save, hfree, Bool.false_eq_true, if_false]
      rw [ih (fun later hlater => hcomponent later (List.mem_cons_of_mem _ hlater)) hrest]
      · simp
      · intro other hother hsame later hlater
        rcases List.mem_append.mp hother with hother | hother
        · exact hheld other hother hsame later (List.mem_cons_of_mem _ hlater)
        · rw [List.mem_singleton.mp hother]
          exact (hfirst later hlater).symm

/-- A block of a component that the store lacks is saved whole. -/
theorem save_block {block : Block} (h : store.Lacks block.component) :
    store.saveAll block.figures = (⟨store.measures ++ block.figures⟩, none) :=
  save_all_of_lacks (fun _ => Block.component_of_mem_figures) block.figures_distinct
    fun other hother hsame => absurd hsame (h other hother)

/-- A block of a component that the store has a block of is refused at its first measure. -/
theorem refuse_block (hstore : store.measures = held.flatMap Block.figures) {block : Block}
    (h : ∃ other ∈ held, ¬ other.Apart block) (rest : List Measure) :
    store.saveAll (block.figures ++ rest) = (store, some ⟨block.component, .tests⟩) := by
  obtain ⟨other, hother, hsame⟩ := h
  obtain ⟨figures, hfigures⟩ := block.figures_eq_cons
  have hholds : store.holds ⟨block.component, .tests, block.counts.tests⟩ = true := by
    rw [holds_iff, hstore]
    exact ⟨⟨other.component, .tests, other.counts.tests⟩,
      List.mem_flatMap.mpr ⟨other, hother, by simp [Block.figures]⟩,
      Component.same_equivalence.symm (not_not.mp hsame), rfl⟩
  rw [hfigures]
  simp [saveAll, save, hholds]

/-- Into a store of whole blocks that are apart, blocks are saved whole up to the first whose component is
held by then, which is refused at the number of tests. -/
theorem save_blocks (hstore : store.measures = held.flatMap Block.figures)
    (hapart : held.Pairwise Block.Apart) (blocks : List Block) :
    ∃ taken left, blocks = taken ++ left ∧ (held ++ taken).Pairwise Block.Apart ∧
      (left = [] ∧ store.saveAll (blocks.flatMap Block.figures) =
          (⟨(held ++ taken).flatMap Block.figures⟩, none) ∨
        ∃ block rest, left = block :: rest ∧ (∃ other ∈ held ++ taken, ¬ other.Apart block) ∧
          store.saveAll (blocks.flatMap Block.figures) =
            (⟨(held ++ taken).flatMap Block.figures⟩, some ⟨block.component, .tests⟩)) := by
  -- The invariant is that the store is the figures of blocks that are apart: a saved block joins `held`.
  induction blocks generalizing store held with
  | nil =>
      refine ⟨[], [], rfl, by simpa using hapart, .inl ⟨rfl, ?_⟩⟩
      simp [saveAll, ← hstore]
  | cons block rest ih =>
      by_cases hfree : ∀ other ∈ held, other.Apart block
      · have hsaved : (⟨store.measures ++ block.figures⟩ : Store).measures =
            (held ++ [block]).flatMap Block.figures := by
          simp [hstore]
        have hapart' : (held ++ [block]).Pairwise Block.Apart := by
          rw [List.pairwise_append]
          exact ⟨hapart, List.pairwise_singleton _ _, by simpa using hfree⟩
        obtain ⟨taken, left, rfl, hall, hresult⟩ := ih hsaved hapart'
        refine ⟨block :: taken, left, rfl, by simpa using hall, ?_⟩
        rw [List.flatMap_cons, save_all_append, save_block ((lacks_iff hstore).mpr hfree)]
        simpa using hresult
      · simp only [not_forall, exists_prop] at hfree
        refine ⟨[], block :: rest, rfl, by simpa using hapart, .inr ⟨block, rest, rfl, by simpa using hfree, ?_⟩⟩
        rw [List.flatMap_cons, refuse_block hstore hfree, List.append_nil, ← hstore]

end Store

end TestMeasures
