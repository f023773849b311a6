import UStore.Louvain.BestPartition

/-!
# What the partitions hold

Three lookups of `best_partition` throw when a key is missing: `partition.at` in both
`induce_community_graph` (lines 173, 176, 191, 193) and `community_degrees.at` in
`modularity` (line 160). None of them ever throws. Each level starts with every vertex
its own community and its own statistics, and the local moves keep it so that every
vertex and every neighbour has a community, every community is a vertex of the level,
and every vertex has statistics: a move reads `partition[v]` and `partition[u]` only
for keys already there, and puts `v` into the community of a neighbour.

So every level's partition maps the level's vertices to its vertices, each level's
graph has vertices of the store for vertices, and what `best_partition` returns has
exactly the store's vertices for keys. Its values are vertices of the store, or the `0`
that `operator[]` inserts when the flattening looks up a community the next level
dropped (`bestPartition_twoEdges`).

## What is proved

* `LevelStart.lookups_defined`: from the start of any level, in every state the local
  moves reach, every community is a vertex of the level, and the `at` lookups of
  `induce_community_graph` and `modularity` all succeed.
* `bestPartition_keys_values`: on every undirected store graph, a partition that
  `best_partition` returns has the store's vertices as keys, each once, and a vertex of
  the store or `0` as each value.
* `levels_add_rounds`: the `while (improvement)` loop of `best_partition` never needs
  more rounds than its graph has vertices, and one more: past that, more rounds give the
  same result.
-/

namespace UStore.Louvain

/-! ### Maps built and read by the loops -/

namespace UMap

variable {α : Type}

theorem touch_eq_self [Inhabited α] {m : UMap α} {k : Key} (h : k ∈ m.keys) : m.touch k = m := by
  rw [touch, if_pos (isSome_find?.2 h)]

theorem touchAll_eq_self [Inhabited α] {m : UMap α} {ks : List Key} (h : ∀ k ∈ ks, k ∈ m.keys) :
    m.touchAll ks = m := by
  induction ks with
  | nil => rfl
  | cons k ks ih =>
    rw [touchAll, List.foldl_cons, touch_eq_self (h k (List.mem_cons_self _ _))]
    exact ih fun k' hk' => h k' (List.mem_cons_of_mem _ hk')

theorem mem_keys_touchAll [Inhabited α] {m : UMap α} {ks : List Key} {k : Key} (h : k ∈ m.keys) :
    k ∈ (m.touchAll ks).keys := by
  rw [← isSome_find?, find?_touchAll]
  split
  · rfl
  · exact isSome_find?.2 h

theorem mem_keys_modify [Inhabited α] {m : UMap α} {k k' : Key} {f : α → α} (h : k' ∈ m.keys) :
    k' ∈ (m.modify k f).keys :=
  mem_keys_set.2 (.inr h)

theorem get_mem [Inhabited α] {m : UMap α} {k : Key} (h : k ∈ m.keys) : (k, m.get k) ∈ m :=
  mem_of_find? (find?_eq_some_get h)

variable {β : Type} (l : List β) (κ : β → Key) (f : β → α)

theorem mem_foldl_set {m : UMap α} {e : Key × α} (h : e ∈ l.foldl (fun m b => m.set (κ b) (f b)) m) :
    e ∈ m ∨ ∃ b ∈ l, e = (κ b, f b) := by
  induction l generalizing m with
  | nil => exact .inl h
  | cons b l ih =>
    rcases ih h with h | ⟨b', hb', rfl⟩
    · rcases mem_set h with rfl | h
      · exact .inr ⟨b, List.mem_cons_self _ _, rfl⟩
      · exact .inl h
    · exact .inr ⟨b', List.mem_cons_of_mem _ hb', rfl⟩

/-- Assignments to distinct new keys append them, in order. -/
theorem keys_foldl_set {m : UMap α} (h : (m.keys ++ l.map κ).Nodup) :
    (l.foldl (fun m b => m.set (κ b) (f b)) m).keys = m.keys ++ l.map κ := by
  induction l generalizing m with
  | nil => simp
  | cons b l ih =>
    have hb : κ b ∉ m.keys := fun hb => (List.nodup_append.1 h).2.2 hb (List.mem_cons_self _ _)
    rw [List.foldl_cons, ih (by rw [keys_set, if_neg hb, List.append_assoc]; exact h), keys_set, if_neg hb]
    simp

theorem mem_keys_foldl_set_of_mem {m : UMap α} {k : Key} (h : k ∈ m.keys) :
    k ∈ (l.foldl (fun m b => m.set (κ b) (f b)) m).keys := by
  induction l generalizing m with
  | nil => exact h
  | cons b l ih => exact ih (mem_keys_set.2 (.inr h))

theorem mem_keys_foldl_set {m : UMap α} {k : Key} (h : k ∈ l.map κ) :
    k ∈ (l.foldl (fun m b => m.set (κ b) (f b)) m).keys := by
  induction l generalizing m with
  | nil => cases h
  | cons b l ih =>
    rcases List.mem_cons.1 h with rfl | h
    · exact mem_keys_foldl_set_of_mem l κ f (mem_keys_set.2 (.inl rfl))
    · exact ih h

end UMap

theorem mem_keys_moveStatistics {S : CommunityDegrees} {k : Key} (h : k ∈ S.keys) (A B : Key)
    (d kA kB : ℚ) : k ∈ (moveStatistics S A B d kA kB).keys :=
  UMap.mem_keys_modify (UMap.mem_keys_modify (UMap.mem_keys_modify (UMap.mem_keys_modify h)))

/-! ### The invariant of the local moves -/

/-- What the local moves keep of a level's maps: every vertex of `R` has a community
and statistics, and every community is a vertex of `R`. -/
structure LookupsDefined (R : Graph) (s : State) : Prop where
  /-- `partition.at(v)` finds every vertex. -/
  partition_keys : ∀ v ∈ UMap.keys R, v ∈ s.partition.keys
  /-- Every community is a vertex. -/
  community_mem : ∀ e ∈ s.partition, e.2 ∈ UMap.keys R
  /-- `community_degrees.at(c)` finds every vertex. -/
  communityDegrees_keys : ∀ v ∈ UMap.keys R, v ∈ s.communityDegrees.keys

section Closed

variable {R : Graph} (hR : ∀ r ∈ R, ∀ e ∈ r.2, e.1 ∈ UMap.keys R)
include hR

/-- One step keeps the invariant, and the partition's keys: on a graph whose neighbours
are vertices, `partition[v]` and `partition[u]` insert nothing, and the vertex moves into
its own community or a neighbour's. -/
theorem LookupsDefined.moveVertexTo {s : State} (h : LookupsDefined R s) {r : Key × UMap ℚ} (hr : r ∈ R)
    (degrees : VertexDegrees) {B : Key} (hB : B = s.partition.get r.1 ∨ ∃ e ∈ r.2, B = s.partition.get e.1) :
    (Louvain.moveVertexTo degrees r.1 r.2 s B).2.partition.keys = s.partition.keys ∧
      LookupsDefined R (Louvain.moveVertexTo degrees r.1 r.2 s B).2 := by
  have hv : r.1 ∈ s.partition.keys := h.partition_keys _ (List.mem_map_of_mem _ hr)
  have hns : ∀ k ∈ r.2.map Prod.fst, k ∈ s.partition.keys := by
    simp only [List.mem_map]
    rintro _ ⟨e, he, rfl⟩
    exact h.partition_keys _ (hR r hr e he)
  have hcom : ∀ k ∈ s.partition.keys, s.partition.get k ∈ UMap.keys R := fun k hk =>
    h.community_mem _ (UMap.get_mem hk)
  have hS : ∀ A ks, ∀ v ∈ UMap.keys R, v ∈ ((s.communityDegrees.touch A).touchAll ks).keys :=
    fun A ks v hv' => UMap.mem_keys_touchAll (UMap.mem_keys_touch.2 (.inr (h.communityDegrees_keys v hv')))
  simp only [Louvain.moveVertexTo, UMap.touch_eq_self hv, UMap.touchAll_eq_self hns]
  split_ifs
  · have hkeys : (s.partition.set r.1 B).keys = s.partition.keys := by rw [UMap.keys_set, if_pos hv]
    refine ⟨hkeys, fun v hv' => hkeys ▸ h.partition_keys v hv', fun e he => ?_,
      fun v hv' => mem_keys_moveStatistics (hS _ _ v hv') _ _ _ _ _⟩
    rcases UMap.mem_set he with rfl | he
    · rcases hB with rfl | ⟨e', he', rfl⟩
      · exact hcom _ hv
      · exact hcom _ (hns _ (List.mem_map_of_mem _ he'))
    · exact h.community_mem e he
  · exact ⟨rfl, h.partition_keys, h.community_mem, hS _ _⟩

/-- Every state the local moves reach keeps the invariant and the partition's keys. -/
theorem LookupsDefined.reachable {s₀ s : State} (h₀ : LookupsDefined R s₀) {countEdges : UInt64}
    {degrees : VertexDegrees} (h : Reachable countEdges degrees R s₀ s) :
    s.partition.keys = s₀.partition.keys ∧ LookupsDefined R s := by
  induction h with
  | start => exact ⟨rfl, h₀⟩
  | move _ hr hB ih =>
    obtain ⟨hk, hl⟩ := ih.2.moveVertexTo hR hr degrees hB
    exact ⟨hk.trans ih.1, hl⟩

end Closed

/-! ### The start of each level -/

/-- A partition of identities, built vertex by vertex, with statistics for every vertex. -/
theorem lookupsDefined_of_foldl {β : Type} {R : Graph} (l : List β) (κ : β → Key) {s : State}
    (hl : UMap.keys R = l.map κ) (hP : s.partition = l.foldl (fun m b => UMap.set m (κ b) (κ b)) ([] : Partition))
    (f : β → CommunityDegree)
    (hS : s.communityDegrees = l.foldl (fun m b => UMap.set m (κ b) (f b)) ([] : CommunityDegrees)) :
    LookupsDefined R s := by
  refine ⟨fun v hv => ?_, fun e he => ?_, fun v hv => ?_⟩
  · rw [hP]; exact UMap.mem_keys_foldl_set l κ κ (hl ▸ hv)
  · rw [hP] at he
    obtain ⟨b, hb, rfl⟩ := (UMap.mem_foldl_set l κ κ he).resolve_left (List.not_mem_nil _)
    exact hl ▸ List.mem_map_of_mem κ hb
  · rw [hS]; exact UMap.mem_keys_foldl_set l κ f (hl ▸ hv)

theorem lookupsDefined_initialState (G : Store) : LookupsDefined G.rows (initialState G).2 :=
  lookupsDefined_of_foldl G.stream id (by rw [G.keys_rows, List.map_id]) (partition_initialState G)
    (fun v => ⟨0, G.degree v⟩) (communityDegrees_initialState G)

theorem lookupsDefined_levelInit (g : Graph) : LookupsDefined g (levelInit g).state :=
  lookupsDefined_of_foldl g Prod.fst rfl (partition_levelInit g) (fun r => ⟨0, (r.2.map Prod.snd).sum⟩)
    (communityDegrees_levelInit g)

theorem LevelStart.lookupsDefined {R : Graph} {degrees : VertexDegrees} {s : State} (h : LevelStart R degrees s) :
    LookupsDefined R s := by
  cases h with
  | store => exact lookupsDefined_initialState _
  | next => exact lookupsDefined_levelInit _

/-- **No lookup of a level throws.** From the start of any level, in every state its
local moves reach, every community is a vertex of the level's graph, `partition.at`
finds every vertex and neighbour, so `induce_community_graph` builds its graph, and
`community_degrees.at` finds every community, so `modularity` returns a value. -/
theorem LevelStart.lookups_defined {R : Graph} {degrees : VertexDegrees} {s₀ s : State}
    {countEdges : UInt64} (h₀ : LevelStart R degrees s₀) (h : Reachable countEdges degrees R s₀ s) :
    (∀ e ∈ s.partition, e.2 ∈ UMap.keys R) ∧ (∃ g, induceCommunityGraph R s.partition = some g) ∧
      ∀ degSum, ∃ q, modularity s.partition s.communityDegrees degSum = some q := by
  have hl := (h₀.lookupsDefined.reachable h₀.start.1.closed h).2
  refine ⟨hl.community_mem, ⟨_, induceCommunityGraph_eq fun r hr => ⟨hl.partition_keys _
    (List.mem_map_of_mem _ hr), fun e he => hl.partition_keys _ (h₀.start.1.closed r hr e he)⟩⟩,
    fun degSum => ⟨_, modularity_eq_sum _ _ degSum fun e he =>
      hl.communityDegrees_keys _ (hl.community_mem e he)⟩⟩

/-- On the edge `1 - 2`, after `first_phase` every community is a vertex, and neither
inducer nor `modularity` throws. -/
theorem oneEdge_lookups_defined :
    ∃ s, firstPhase 3 oneEdge (initialState oneEdge).2.partition (initialState oneEdge).1
        (initialState oneEdge).2.communityDegrees oneEdge.numberOfEdges = some (true, s) ∧
      (∀ e ∈ s.partition, e.2 ∈ UMap.keys oneEdge.rows) ∧
      (∃ g, induceCommunityGraph oneEdge.rows s.partition = some g) ∧
      ∀ degSum, ∃ q, modularity s.partition s.communityDegrees degSum = some q :=
  ⟨_, firstPhase_oneEdge, LevelStart.lookups_defined (.store oneEdge_undirected.1 oneEdge_undirected.2)
    (.localMove .start firstPhase_oneEdge)⟩

/-! ### What `best_partition` returns -/

/-- The graph induced from a level's partition has communities of the level, so vertices
of the level, for vertices. -/
theorem LookupsDefined.keys_induce_subset {g g' : Graph} {s : State} (hl : LookupsDefined g s)
    (h : induceCommunityGraph g s.partition = some g') : ∀ A ∈ UMap.keys g', A ∈ UMap.keys g := by
  obtain rfl := induceCommunityGraph_eq_of_eq_some h
  intro A hA
  obtain ⟨v, hv, rfl⟩ := List.mem_map.1 (List.mem_toFinset.1 (keys_induceRows_subset _ _ A hA))
  exact hl.community_mem _ (UMap.get_mem (hl.partition_keys v hv))

/-- The level loop pushes partitions that map into `V` when its graph's vertices are in
`V`: every level's partition maps the level's vertices to its vertices. -/
theorem levels_eq_some {V : List Key} {fuel : ℕ} {minModularityGrowth : ℚ} {rounds : ℕ} {g : Graph}
    {mod : ℚ} {ps ps' : List Partition} (hg : WellFormed g) (hV : ∀ v ∈ UMap.keys g, v ∈ V)
    (h : levels fuel minModularityGrowth rounds g mod ps = some ps') :
    ∃ pre, ps' = pre ++ ps ∧ ∀ p ∈ pre, ∀ e ∈ p, e.2 ∈ V := by
  induction rounds generalizing g mod ps with
  | zero => cases h
  | succ rounds ih =>
    simp only [levels, levelsWith, Option.bind_eq_bind, Option.bind_eq_some] at h
    obtain ⟨⟨improvement, s⟩, hphase, -, -, newMod, -, h⟩ := h
    have hl := ((lookupsDefined_levelInit g).reachable hg.closed (Reachable.localMove .start hphase)).2
    have hvals : ∀ e ∈ s.partition, e.2 ∈ V := fun e he => hV _ (hl.community_mem e he)
    dsimp only at h
    split at h
    · cases h
      exact ⟨[], rfl, fun _ hp => absurd hp (List.not_mem_nil _)⟩
    · obtain ⟨g', hg', h⟩ := Option.bind_eq_some.1 h
      split at h
      · obtain ⟨pre, rfl, hpre⟩ := ih (hg.induceCommunityGraph hg') (fun A hA => hV _ (hl.keys_induce_subset hg' A hA)) h
        refine ⟨pre ++ [s.partition], by simp, fun p hp => ?_⟩
        rcases List.mem_append.1 hp with hp | hp
        · exact hpre p hp
        · rw [List.mem_singleton.1 hp]; exact hvals
      · cases h
        exact ⟨[s.partition], rfl, fun p hp => by rw [List.mem_singleton.1 hp]; exact hvals⟩

theorem keys_flatten_append (pre : List Partition) (p : Partition) : (flatten (pre ++ [p])).keys = p.keys := by
  suffices ∀ R₀ finer, (flatten (R₀ :: finer)).keys = ((R₀ :: finer).getLast (List.cons_ne_nil _ _)).keys by
    cases pre with
    | nil => rfl
    | cons R₀ pre => rw [List.cons_append, this]; simp
  intro R₀ finer
  induction finer generalizing R₀ with
  | nil => rfl
  | cons R₁ rest ih =>
    have hkeys : UMap.keys (R₁.map fun e => (e.1, R₀.get e.2)) = R₁.keys := by
      simp [UMap.keys, Function.comp_def]
    rw [flatten_cons_cons, ih]
    cases rest <;> simp [hkeys]

/-- The flattening keeps the values of the coarsest partition, or reads the `0` that
`operator[]` inserts. -/
theorem flatten_values {V : List Key} {ps : List Partition} (h : ∀ p ∈ ps, ∀ e ∈ p, e.2 ∈ V) :
    ∀ e ∈ flatten ps, e.2 ∈ V ∨ e.2 = 0 := by
  cases ps with
  | nil => exact fun _ he => absurd he (List.not_mem_nil _)
  | cons R₀ finer =>
    suffices ∀ acc : Partition, (∀ e ∈ acc, e.2 ∈ V ∨ e.2 = 0) →
        ∀ e ∈ finer.foldl (fun partition level => level.map fun e => (e.1, partition.get e.2)) acc,
          e.2 ∈ V ∨ e.2 = 0 from
      this R₀ fun e he => .inl (h R₀ (List.mem_cons_self _ _) e he)
    clear h
    induction finer with
    | nil => exact fun _ hacc => hacc
    | cons level finer ih =>
      refine fun acc hacc => ih _ fun e he => ?_
      obtain ⟨e', -, rfl⟩ := List.mem_map.1 he
      rcases UMap.get_mem_or_eq_default acc e'.2 with hmem | hdef
      · exact hacc (e'.2, acc.get e'.2) hmem
      · exact .inr hdef

/-- **What `best_partition` returns.** On every undirected store graph, a partition that
`best_partition` returns has the store's vertices for keys, each once, and for each
value a vertex of the store, or `0`. The keys are stated up to order: the model lists
them in stream order, the code's `unordered_map` in an order of its own. -/
theorem bestPartition_keys_values {G : Store} (hG : G.Undirected) {fuel : ℕ} {minModularityGrowth : ℚ}
    {P : Partition} (h : bestPartition fuel minModularityGrowth G = some P) :
    P.keys.Perm G.stream ∧ ∀ e ∈ P, e.2 ∈ G.stream ∨ e.2 = 0 := by
  simp only [bestPartition, bestPartitionWith, Option.bind_eq_bind, Option.bind_eq_some] at h
  obtain ⟨⟨improvement, s⟩, hphase, mod, -, g, hg, h⟩ := h
  have hR := hG.wellFormed
  obtain ⟨hkeys, hl⟩ := (lookupsDefined_initialState G).reachable hR.closed (Reachable.localMove .start hphase)
  have hvals : ∀ e ∈ s.partition, e.2 ∈ G.stream := fun e he => G.keys_rows ▸ hl.community_mem e he
  obtain ⟨pre, hpre, rfl⟩ : ∃ pre, (∀ p ∈ pre, ∀ e ∈ p, e.2 ∈ G.stream) ∧ P = flatten (pre ++ [s.partition]) := by
    dsimp only at h
    split at h
    · obtain ⟨ps, hps, hP⟩ := Option.bind_eq_some.1 h
      obtain ⟨pre, rfl, hpre⟩ := levels_eq_some (hR.induceCommunityGraph hg)
        (fun A hA => G.keys_rows ▸ hl.keys_induce_subset hg A hA) hps
      exact ⟨pre, hpre, (Option.some.inj hP).symm⟩
    · exact ⟨[], fun _ hp => absurd hp (List.not_mem_nil _), (Option.some.inj h).symm⟩
  refine ⟨.of_eq ?_, flatten_values fun p hp => ?_⟩
  · rw [keys_flatten_append, hkeys, partition_initialState, UMap.keys_foldl_set _ _ _ (by simpa using hG.nodup)]
    simp
  · rcases List.mem_append.1 hp with hp | hp
    · exact hpre p hp
    · rw [List.mem_singleton.1 hp]; exact hvals

attribute [local semireducible] Rat.add Rat.mul Rat.inv Rat.sub

/-- On two disjoint edges the partition returned has the four vertices for keys, and `0`,
no vertex, for every value. -/
theorem twoEdges_keys_values :
    bestPartition 3 0 twoEdges = some [(1, 0), (2, 0), (3, 0), (4, 0)] ∧
      (UMap.keys [(1, 0), (2, 0), (3, 0), (4, 0)]).Perm twoEdges.stream ∧
      ∀ e ∈ ([(1, 0), (2, 0), (3, 0), (4, 0)] : Partition), e.2 ∈ twoEdges.stream ∨ e.2 = 0 := by
  have hrun : bestPartition 3 0 twoEdges = some [(1, 0), (2, 0), (3, 0), (4, 0)] := by decide
  exact ⟨hrun, bestPartition_keys_values ⟨by decide, by decide, by decide, by decide⟩ hrun⟩

/-! ### How many rounds the level loop runs -/

/-- **The level loop never runs out of rounds.** From the start of any level, more rounds
than the level's graph has vertices give the same result as any larger number: a round
goes on to the next level only after a move, and then the next level's graph has fewer
vertices (`LevelStart.keys_induce_lt`). -/
theorem levels_add_rounds {fuel : ℕ} {minModularityGrowth : ℚ} :
    ∀ {r : ℕ} {g : Graph}, LevelStart g (levelInit g).degrees (levelInit g).state → (UMap.keys g).length < r →
      ∀ (k : ℕ) (mod : ℚ) (ps : List Partition),
        levels fuel minModularityGrowth (r + k) g mod ps = levels fuel minModularityGrowth r g mod ps
  | 0, _, _, hr => absurd hr (Nat.not_lt_zero _)
  | r + 1, g, hg, hr => fun k mod ps => by
    rw [Nat.add_right_comm]
    simp only [levels, levelsWith, Option.bind_eq_bind]
    refine Option.bind_congr fun ⟨improvement, s⟩ hphase => Option.bind_congr fun _ _ =>
      Option.bind_congr fun newMod _ => ?_
    dsimp only
    split
    · rfl
    · refine Option.bind_congr fun g' hind => ?_
      cases improvement
      · rfl
      · exact levels_add_rounds (.next hg hind)
          ((hg.keys_induce_lt hphase hind).trans_le (Nat.lt_succ_iff.1 hr)) k newMod _

/-- The edge `1 - 2`, each vertex its own community, induces a graph of two vertices, on
which three rounds are as good as seven. -/
theorem oneEdge_levels_rounds :
    induceCommunityGraph oneEdge.rows (initialState oneEdge).2.partition = some [(1, [(2, 1)]), (2, [(1, 1)])] ∧
      levels 3 0 (3 + 4) [(1, [(2, 1)]), (2, [(1, 1)])] 0 [] = levels 3 0 3 [(1, [(2, 1)]), (2, [(1, 1)])] 0 [] := by
  have hind : induceCommunityGraph oneEdge.rows (initialState oneEdge).2.partition =
      some [(1, [(2, 1)]), (2, [(1, 1)])] := by decide
  exact ⟨hind, levels_add_rounds (.next (.store oneEdge_undirected.1 oneEdge_undirected.2) hind) (by decide) 4 0 []⟩

end UStore.Louvain
