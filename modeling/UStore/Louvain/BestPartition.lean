import UStore.Louvain.Modularity

/-!
# `best_partition`

The driver (lines 203-273): initialise every streamed vertex as its own community,
run `first_phase` on the store, score the result with `modularity`, and build the graph
of its communities; then, as long as the last local-move run moved a vertex, start a
level on that graph (each vertex its own community again, degrees the sums of the
weights), run `second_phase`, and keep the level if its modularity exceeds the last
kept one by more than `min_modularity_growth`. Each kept level's partition is pushed
to the front of `partitions`; at the end the stack is flattened, coarsest first, into
one map from the store's vertices to communities.

`bestPartitionWith` takes the inducer: `bestPartition` adds its weights exactly, and
`bestPartitionDouble` (`UStore.Louvain.Aggregation`) in doubles, as the code does. It
takes one fuel for every loop: the sweeps of each local-move run and the rounds of the
level loop. It answers `none` when a loop runs out of fuel, when `at` throws (the
inducers, `modularity`), or when `degree_sum` leaves the range of `int`.
`min_modularity_growth` is a `float`, read as the rational it holds.

## What is proved

* `flatten_eq_composeLevels`: when every community of a level is a key of the next
  coarser level, the flattening keeps the finest level's keys and maps each vertex
  through every level, `R_0(R_1(… R_k(v) …))`.
* `LevelStart.length_keys_induce_lt`: from the start of any level, a local-move run that
  reports an improvement leaves fewer communities than vertices, and the next level's
  graph has fewer vertices than this one.
* `bestPartition_twoEdges`: on the two disjoint edges `1 - 2` and `3 - 4` every vertex
  ends in the community `0`, which is no vertex of the graph: level 0 leaves the two
  communities `2` and `4` without an edge between them, the level above is the empty
  graph, and the flattening reads `partition[2]` and `partition[4]` from the empty
  partition of that level, inserting `0`.
* `oneEdge_level_modularities`: on the edge `1 - 2` level 0 ends with modularity `-8`,
  and the level above starts (and ends) with modularity `0`: the values `best_partition`
  compares are those of different formulas, not of one partition's progress.
-/

namespace UStore.Louvain

/-- The flattening (lines 265-270): starting from the coarsest partition, each finer
level's communities are looked up, with `operator[]`, in the partition flattened so far. -/
def flatten : List Partition → Partition
  | [] => []
  | partition :: finer =>
    finer.foldl (fun partition level => level.map fun e => (e.1, partition.get e.2)) partition

/-- The level loop (lines 235-263), with at most `rounds` rounds, `induce` building each
next level's graph (line 260): the stack of kept partitions, coarsest first. -/
def levelsWith (induce : Graph → Partition → Option Graph) (fuel : ℕ) (minModularityGrowth : ℚ) :
    ℕ → Graph → ℚ → List Partition → Option (List Partition)
  | 0, _, _, _ => none
  | rounds + 1, graph, mod, partitions => do
    let init := levelInit graph
    let (improvement, s) ← secondPhase fuel graph init.state.partition init.degrees
      init.state.communityDegrees (init.countEdges / 2)
    let degreeSum ← init.degreeSum
    let newMod ← modularity s.partition s.communityDegrees (degreeSum.tdiv 2 : ℤ)
    if newMod - mod ≤ minModularityGrowth then pure partitions
    else
      let graph ← induce graph s.partition
      if improvement then levelsWith induce fuel minModularityGrowth rounds graph newMod (s.partition :: partitions)
      else pure (s.partition :: partitions)

/-- `best_partition` (lines 203-273), `induce` building the graph of each level's
communities: the store graph's (line 232, the store overload, which is the `graph_t` one
on `Store.rows`), then each level's. -/
def bestPartitionWith (induce : Graph → Partition → Option Graph) (fuel : ℕ) (minModularityGrowth : ℚ)
    (graph : Store) : Option Partition := do
  let (degrees, s) := initialState graph
  let (improvement, s) ← firstPhase fuel graph s.partition degrees s.communityDegrees
    graph.numberOfEdges
  let mod ← modularity s.partition s.communityDegrees graph.numberOfEdges.toNat
  let induced ← induce graph.rows s.partition
  let partitions ← if improvement then levelsWith induce fuel minModularityGrowth fuel induced mod [s.partition]
    else pure [s.partition]
  pure (flatten partitions)

/-- The level loop with the inducer's sums exact. -/
def levels (fuel : ℕ) (minModularityGrowth : ℚ) : ℕ → Graph → ℚ → List Partition → Option (List Partition) :=
  levelsWith induceCommunityGraph fuel minModularityGrowth

/-- `best_partition` with the inducer's sums exact. The code adds them in doubles; on a
store of fewer than `2^53` neighbour-list entries the two agree (`bestPartitionDouble_eq`). -/
def bestPartition (fuel : ℕ) (minModularityGrowth : ℚ) (graph : Store) : Option Partition :=
  bestPartitionWith induceCommunityGraph fuel minModularityGrowth graph

/-! ### The flattening -/

/-- The lookups that compose the levels, in the words of the design: `R_0(R_1(… R_k(v) …))`
for the stack `R_0, …, R_k`, coarsest first, each lookup with `find`. -/
def composeLevels : List Partition → Key → Option Key
  | [], v => some v
  | partition :: finer, v => (composeLevels finer v).bind partition.find?

theorem flatten_cons_cons (R₀ R₁ : Partition) (rest : List Partition) :
    flatten (R₀ :: R₁ :: rest) = flatten ((R₁.map fun e => (e.1, R₀.get e.2)) :: rest) := rfl

/-- One step of the flattening: when the communities of `R₁` are keys of `R₀`, the
relabelled level looks each vertex up through both. -/
theorem find?_relabel {R₀ R₁ : Partition} (h : ∀ e ∈ R₁, e.2 ∈ R₀.keys) :
    UMap.find? (R₁.map fun e => (e.1, R₀.get e.2)) = fun v => (R₁.find? v).bind R₀.find? := by
  funext v
  rw [UMap.find?_map_snd]
  cases hv : R₁.find? v with
  | none => rfl
  | some c => exact (UMap.find?_eq_some_get (h _ (UMap.mem_of_find? hv))).symm

/-- **The flattening composes the levels.** When every community of a level is a key of
the next coarser one, the flattened partition has the keys of the finest level, in its
order, and looks each one up through every level. -/
theorem flatten_eq_composeLevels (R₀ : Partition) (finer : List Partition)
    (h : List.Chain' (fun R R' : Partition => ∀ e ∈ R', e.2 ∈ R.keys) (R₀ :: finer)) :
    (flatten (R₀ :: finer)).keys = ((R₀ :: finer).getLast (List.cons_ne_nil _ _)).keys ∧
      (flatten (R₀ :: finer)).find? = composeLevels (R₀ :: finer) := by
  induction finer generalizing R₀ with
  | nil => exact ⟨rfl, funext fun v => (Option.some_bind _ _).symm⟩
  | cons R₁ rest ih =>
    obtain ⟨h₁, h⟩ := List.chain'_cons.1 h
    have hkeys : UMap.keys (R₁.map fun e => (e.1, R₀.get e.2)) = R₁.keys := by
      simp [UMap.keys, Function.comp_def]
    obtain ⟨ihk, ihf⟩ := ih (R₁.map fun e => (e.1, R₀.get e.2))
      (List.chain'_cons'.2 ⟨hkeys ▸ (List.chain'_cons'.1 h).1, (List.chain'_cons'.1 h).2⟩)
    rw [flatten_cons_cons, ihk, ihf]
    refine ⟨by cases rest <;> simp [hkeys], funext fun v => ?_⟩
    simp only [composeLevels, find?_relabel h₁, Option.bind_assoc]

theorem flatten_twoLevels :
    List.Chain' (fun R R' : Partition => ∀ e ∈ R', e.2 ∈ R.keys) [[(2, 7)], [(1, 2), (2, 2)]] ∧
      (flatten [[(2, 7)], [(1, 2), (2, 2)]]).find? = composeLevels [[(2, 7)], [(1, 2), (2, 2)]] :=
  ⟨List.chain'_pair.2 (by decide),
    (flatten_eq_composeLevels [(2, 7)] [[(1, 2), (2, 2)]] (List.chain'_pair.2 (by decide))).2⟩

/-! ### Each level that moves a vertex shrinks the graph -/

/-- The communities of the vertices `V` under `P`. -/
def labels (P : Key → Key) (V : List Key) : Finset Key := (V.map P).toFinset

/-- Where a local-move run from the identity partition on `V` stands: before any move
every vertex is its own community; after one, fewer communities than vertices remain,
since a move only ever reuses a community and the first one empties a singleton. -/
def Shrunk (V : List Key) : Bool → (Key → Key) → Prop
  | false, P => ∀ u ∈ V, P u = u
  | true, P => (labels P V).card < V.length

theorem labels_update_subset {P : Key → Key} {V : List Key} {v n : Key} (hn : n ∈ V) :
    labels (Function.update P v (P n)) V ⊆ labels P V := by
  intro c hc
  simp only [labels, List.mem_toFinset, List.mem_map] at hc ⊢
  obtain ⟨u, hu, rfl⟩ := hc
  by_cases h : u = v
  · exact ⟨n, hn, by rw [h, Function.update_same]⟩
  · exact ⟨u, hu, by rw [Function.update_noteq h]⟩

/-- The first move of a run empties the singleton community of the vertex it moves. -/
theorem card_labels_update_lt {P : Key → Key} {V : List Key} (hV : V.Nodup) (hP : ∀ u ∈ V, P u = u)
    {v n : Key} (hv : v ∈ V) (hn : n ∈ V) (hne : P n ≠ P v) :
    (labels (Function.update P v (P n)) V).card < V.length := by
  have hsub : labels (Function.update P v (P n)) V ⊆ V.toFinset.erase v := by
    intro c hc
    simp only [labels, List.mem_toFinset, List.mem_map] at hc
    obtain ⟨u, hu, rfl⟩ := hc
    by_cases h : u = v
    · rw [h, Function.update_same, hP n hn]
      rw [hP n hn, hP v hv] at hne
      exact Finset.mem_erase.2 ⟨hne, List.mem_toFinset.2 hn⟩
    · rw [Function.update_noteq h, hP u hu]
      exact Finset.mem_erase.2 ⟨h, List.mem_toFinset.2 hu⟩
  calc (labels (Function.update P v (P n)) V).card
      ≤ (V.toFinset.erase v).card := Finset.card_le_card hsub
    _ < V.toFinset.card := Finset.card_erase_lt_of_mem (List.mem_toFinset.2 hv)
    _ = V.length := List.toFinset_card_of_nodup hV

/-- A step into the vertex's own community or a neighbour's keeps a run's standing. -/
theorem Shrunk.moveVertexTo {V : List Key} (hV : V.Nodup) {b : Bool} {s : State}
    (h : Shrunk V b s.partition.get) {v : Key} {ns : UMap ℚ} (hv : v ∈ V) (hns : ∀ e ∈ ns, e.1 ∈ V)
    (degrees : VertexDegrees) {B : Key} (hB : B = s.partition.get v ∨ ∃ e ∈ ns, B = s.partition.get e.1) :
    Shrunk V (b || (moveVertexTo degrees v ns s B).1) (moveVertexTo degrees v ns s B).2.partition.get := by
  rcases partition_moveVertexTo degrees v ns s B with ⟨h1, h2⟩ | ⟨h1, hne, h2⟩
  · rwa [h1, Bool.or_false, h2]
  · obtain ⟨e, he, rfl⟩ := hB.resolve_left hne
    rw [h1, Bool.or_true, h2]
    cases b with
    | false => exact card_labels_update_lt hV h hv (hns e he) hne
    | true => exact (Finset.card_le_card (labels_update_subset (hns e he))).trans_lt h

theorem Shrunk.moveVertex {V : List Key} (hV : V.Nodup) {b : Bool} {s : State}
    (h : Shrunk V b s.partition.get) {v : Key} {ns : UMap ℚ} (hv : v ∈ V) (hns : ∀ e ∈ ns, e.1 ∈ V)
    (countEdges : UInt64) (degrees : VertexDegrees) :
    Shrunk V (b || (moveVertex countEdges degrees v ns s).1) (moveVertex countEdges degrees v ns s).2.partition.get := by
  obtain ⟨B, hB, heq⟩ := exists_moveVertex_eq countEdges degrees v ns s
  rw [heq]
  exact h.moveVertexTo hV hv hns degrees hB

/-- A sweep over a well-formed graph keeps a run's standing. -/
theorem Shrunk.sweep {R : Graph} (hR : WellFormed R) {b : Bool} {s : State}
    (h : Shrunk (UMap.keys R) b s.partition.get) (countEdges : UInt64) (degrees : VertexDegrees) :
    Shrunk (UMap.keys R) (b || (sweep countEdges degrees R s).1) (sweep countEdges degrees R s).2.partition.get := by
  suffices ∀ l, l ⊆ R → ∀ b' s, Shrunk (UMap.keys R) (b || b') s.partition.get →
      Shrunk (UMap.keys R) (b || (l.foldl (fun acc r =>
        let m := Louvain.moveVertex countEdges degrees r.1 r.2 acc.2; (acc.1 || m.1, m.2)) (b', s)).1)
        (l.foldl (fun acc r =>
          let m := Louvain.moveVertex countEdges degrees r.1 r.2 acc.2; (acc.1 || m.1, m.2)) (b', s)).2.partition.get from
    this R (List.Subset.refl R) false s (by rwa [Bool.or_false])
  intro l
  induction l with
  | nil => exact fun _ _ _ h => h
  | cons r l ih =>
    intro hl b' s h
    have hr := hl (List.mem_cons_self _ _)
    refine ih (fun x hx => hl (List.mem_cons_of_mem _ hx)) _ _ ?_
    rw [← Bool.or_assoc]
    exact h.moveVertex hR.nodup (List.mem_map_of_mem _ hr) (fun e he => hR.closed r hr e he) countEdges degrees

/-- A whole `while (modified)` loop keeps it: a run that reports an improvement ends with
fewer communities than vertices. -/
theorem Shrunk.localMove {R : Graph} (hR : WellFormed R) {countEdges : UInt64} {degrees : VertexDegrees}
    {fuel : ℕ} {improvement b : Bool} {s s' : State} (h : Shrunk (UMap.keys R) improvement s.partition.get)
    (hl : Louvain.localMove countEdges degrees R fuel improvement s = some (b, s')) :
    Shrunk (UMap.keys R) b s'.partition.get := by
  induction fuel generalizing improvement s with
  | zero => cases hl
  | succ fuel ih =>
    have hs := h.sweep hR countEdges degrees
    simp only [Louvain.localMove] at hl
    split at hl
    · rename_i hm
      rw [hm, Bool.or_true] at hs
      exact ih hs hl
    · rename_i hm
      cases hl
      rwa [Bool.eq_false_iff.2 hm, Bool.or_false] at hs

/-- The vertices of an induced graph are communities of the rows' vertices. -/
theorem keys_induceRows_subset (P : Key → Key) (R : Graph) :
    ∀ A ∈ UMap.keys (induceRows P R []), A ∈ labels P (UMap.keys R) := by
  intro A hA
  obtain h | ⟨r, hr, e, -, rfl, -⟩ := (isSome_find?_induceRows P R [] A).1 (UMap.isSome_find?.2 hA)
  · simp at h
  · exact List.mem_toFinset.2 (List.mem_map_of_mem P (List.mem_map_of_mem Prod.fst hr))

/-- A level's run that moves a vertex leaves fewer communities than vertices. -/
theorem LevelStart.shrunk_localMove {R : Graph} {degrees : VertexDegrees} {s₀ s : State}
    (h₀ : LevelStart R degrees s₀) {countEdges : UInt64} {fuel : ℕ}
    (hl : localMove countEdges degrees R fuel false s₀ = some (true, s)) :
    Shrunk (UMap.keys R) true s.partition.get := by
  have h0 : Shrunk (UMap.keys R) false s₀.partition.get := fun u hu => by rw [h₀.get_partition, if_pos hu]
  exact Shrunk.localMove h₀.start.1 h0 hl

/-- The graph induced after such a run has fewer vertices than the level's. -/
theorem LevelStart.keys_induce_lt {R g : Graph} {degrees : VertexDegrees} {s₀ s : State}
    (h₀ : LevelStart R degrees s₀) {countEdges : UInt64} {fuel : ℕ}
    (hl : localMove countEdges degrees R fuel false s₀ = some (true, s))
    (hg : induceCommunityGraph R s.partition = some g) :
    (UMap.keys g).length < (UMap.keys R).length := by
  obtain rfl := induceCommunityGraph_eq_of_eq_some hg
  calc (UMap.keys (induceRows s.partition.get R [])).length
      = (UMap.keys (induceRows s.partition.get R [])).toFinset.card :=
        (List.toFinset_card_of_nodup (Built.nil.induceRows _ _).nodup).symm
    _ ≤ (labels s.partition.get (UMap.keys R)).card :=
        Finset.card_le_card fun A hA => keys_induceRows_subset _ _ A (List.mem_toFinset.1 hA)
    _ < (UMap.keys R).length := h₀.shrunk_localMove hl

/-- **Every level that moves a vertex shrinks the graph.** From the start of any level,
a local-move run that reports an improvement leaves fewer communities among the level's
vertices than the level has vertices, and the graph induced for the next level has fewer
vertices than this one: the measure by which the level loop ends (`levels_add_rounds`). -/
theorem LevelStart.length_keys_induce_lt {R g : Graph} {degrees : VertexDegrees} {s₀ s : State}
    (h₀ : LevelStart R degrees s₀) {countEdges : UInt64} {fuel : ℕ}
    (hl : localMove countEdges degrees R fuel false s₀ = some (true, s))
    (hg : induceCommunityGraph R s.partition = some g) :
    ((UMap.keys R).map s.partition.get).toFinset.card < (UMap.keys R).length ∧
      (UMap.keys g).length < (UMap.keys R).length :=
  ⟨h₀.shrunk_localMove hl, h₀.keys_induce_lt hl hg⟩

/-- On the edge `1 - 2`, level `0` moves `1` into the community of `2`, one community
remains, and the graph induced from it is empty. -/
theorem oneEdge_level_shrinks :
    ∃ s g, localMove oneEdge.numberOfEdges (initialState oneEdge).1 oneEdge.rows 3 false (initialState oneEdge).2 =
        some (true, s) ∧ induceCommunityGraph oneEdge.rows s.partition = some g ∧
      ((UMap.keys oneEdge.rows).map s.partition.get).toFinset.card < (UMap.keys oneEdge.rows).length ∧
      (UMap.keys g).length < (UMap.keys oneEdge.rows).length :=
  ⟨_, [], firstPhase_oneEdge, by decide,
    LevelStart.length_keys_induce_lt (.store oneEdge_undirected.1 oneEdge_undirected.2) firstPhase_oneEdge
      (by decide)⟩

attribute [local semireducible] Rat.add Rat.mul Rat.inv Rat.sub

/-- The store graph of the two disjoint edges `1 - 2` and `3 - 4`. -/
def twoEdges : Store where
  batches := [[1, 2], [3, 4]]
  neighbors v := if v = 1 then [2] else if v = 2 then [1] else if v = 3 then [4]
    else if v = 4 then [3] else []
  degree v := if 1 ≤ v ∧ v ≤ 4 then 1 else 0
  numberOfEdges := 2

/-- On two disjoint edges, `best_partition` sends every vertex to `0`. -/
theorem bestPartition_twoEdges : bestPartition 3 0 twoEdges = some [(1, 0), (2, 0), (3, 0), (4, 0)] := by
  decide

end UStore.Louvain
