import UStore.Louvain.Graph

/-!
# The local-move loops

`first_phase` (lines 34-94) and `second_phase` (lines 96-153) are one loop written
twice: sweep over the vertices; for each, tally the weight of its entries into each
community (`degree_in_coms`), scan its neighbours' communities for the largest
positive `delta`, and move it there, updating the statistics of the two communities;
repeat until a sweep moves nothing. They differ in where the vertices and neighbours
come from. `first_phase` streams the store and counts `1` per neighbour-list entry;
`second_phase` iterates a `graph_t` and adds the stored weights. Here the loop is
`localMove`, over a `graph_t`, and `firstPhase` is `localMove` on `Store.rows`.

A `while (modified)` loop need not stop, so `localMove` takes a number of sweeps as
fuel and answers `none` when the fuel runs out.

The insertions the code's `operator[]` reads make are kept for `partition` and
`community_degrees`, whose keys later code iterates or looks up with `at`; those into
`degrees` and `degree_in_coms` are not, as nothing reads their keys.

The scan compares `delta`s computed in doubles, and rounding can make it pick another
community than exact arithmetic would. `moveVertexTo` is the step with the community left
open; the code's step is the one into the community its scan picks, its own or a
neighbour's (`exists_moveVertex_eq`), and the invariants of the loops are proved for
every such step. A step leaves the partition as it was or puts the vertex into another
community (`partition_moveVertexTo`).

Also here are the two initialisations of `best_partition`: the store's (lines 209-228)
and that of a level above `0` (lines 236-253), each a loop of insertions into each map.
-/

namespace UStore.Louvain

open scoped BigOperators

/-- What a local-move loop changes: the partition and the community statistics. -/
structure State where
  /-- `partition`. -/
  partition : Partition
  /-- `community_degrees`. -/
  communityDegrees : CommunityDegrees
  deriving DecidableEq

/-- `degree_in_coms` after the tally loop (lines 56-59, 117-119): the weight of the
entries of `neighbors` into each community. -/
def degreeInComs (partition : Partition) (neighbors : UMap ℚ) : Key → ℚ :=
  neighbors.foldl (fun t e => Function.update t (partition.get e.1) (t (partition.get e.1) + e.2)) 0

/-- The modularity gain of lines 69-71 and 129-131. The product
`count_edges * count_edges` is taken in `size_t`. -/
def delta (countEdges : UInt64) (vertexDegree vertexInNeighborComDegree vertexInVertexComDegree
    neighborComTotDegree vertexComTotDegree : ℚ) : ℚ :=
  1 / (countEdges.toNat : ℚ) * (vertexInNeighborComDegree - vertexInVertexComDegree) -
    vertexDegree / (2 * ((countEdges * countEdges).toNat : ℚ)) *
      (vertexDegree + neighborComTotDegree - vertexComTotDegree)

/-- One round of the candidate loop (lines 62-77, 122-137): `(best_mod, best_com)`
after the neighbour `e`. -/
def candidate (countEdges : UInt64) (partition : Partition) (communityDegrees : CommunityDegrees)
    (degreeInComs : Key → ℚ) (vertexDegree : ℚ) (vertexCommunity : Key)
    (vertexComTotDegree vertexInVertexComDegree : ℚ) (best : ℚ × Key) (e : Key × ℚ) : ℚ × Key :=
  let neighborCommunity := partition.get e.1
  if vertexCommunity = neighborCommunity then best
  else
    let d := delta countEdges vertexDegree (degreeInComs neighborCommunity) vertexInVertexComDegree
      (communityDegrees.get neighborCommunity).totDegree vertexComTotDegree
    if d > best.1 then (d, neighborCommunity) else best

/-- The candidate loop (lines 52-77, 113-137): `best_com`, starting from the vertex's
own community with `best_mod = 0`. -/
def bestCommunity (countEdges : UInt64) (partition : Partition) (communityDegrees : CommunityDegrees)
    (degreeInComs : Key → ℚ) (vertexDegree : ℚ) (vertexCommunity : Key) (neighbors : UMap ℚ) : Key :=
  (neighbors.foldl (candidate countEdges partition communityDegrees degreeInComs vertexDegree
    vertexCommunity (communityDegrees.get vertexCommunity).totDegree (degreeInComs vertexCommunity))
    (0, vertexCommunity)).2

/-- The statistics update of an accepted move (lines 80-84, 140-144). -/
def moveStatistics (communityDegrees : CommunityDegrees) (vertexCommunity bestCom : Key)
    (vertexDegree vertexInVertexComDegree vertexInBestComDegree : ℚ) : CommunityDegrees :=
  (((communityDegrees.modify vertexCommunity fun c =>
      { c with totDegree := c.totDegree - (vertexDegree - vertexInVertexComDegree) }).modify bestCom
    fun c => { c with totDegree := c.totDegree + (vertexDegree - vertexInBestComDegree) }).modify
    vertexCommunity fun c => { c with inDegree := c.inDegree - vertexInVertexComDegree }).modify bestCom
    fun c => { c with inDegree := c.inDegree + vertexInBestComDegree }

/-- One vertex of a sweep (lines 49-88, 109-148): whether it moved, and the state after. -/
def moveVertex (countEdges : UInt64) (degrees : VertexDegrees) (vertex : Key) (neighbors : UMap ℚ)
    (s : State) : Bool × State :=
  let vertexDegree := degrees.get vertex
  let partition := s.partition.touch vertex
  let vertexCommunity := partition.get vertex
  let communityDegrees := s.communityDegrees.touch vertexCommunity
  let partition := partition.touchAll (neighbors.map Prod.fst)
  let tally := degreeInComs partition neighbors
  let vertexInVertexComDegree := tally vertexCommunity
  let communityDegrees := communityDegrees.touchAll
    ((neighbors.map fun e => partition.get e.1).filter (· ≠ vertexCommunity))
  let bestCom := bestCommunity countEdges partition communityDegrees tally vertexDegree vertexCommunity
    neighbors
  if bestCom ≠ vertexCommunity then
    (true, ⟨partition.set vertex bestCom, moveStatistics communityDegrees vertexCommunity bestCom
      vertexDegree vertexInVertexComDegree (tally bestCom)⟩)
  else (false, ⟨partition, communityDegrees⟩)

/-- One vertex of a sweep moved into `bestCom`, whichever community the scan of lines
60-76 (120-136) picks: the insertions and the tally of lines 49-59 (109-119), then the
move of lines 78-86 (138-146). -/
def moveVertexTo (degrees : VertexDegrees) (vertex : Key) (neighbors : UMap ℚ) (s : State) (bestCom : Key) :
    Bool × State :=
  let vertexDegree := degrees.get vertex
  let partition := s.partition.touch vertex
  let vertexCommunity := partition.get vertex
  let communityDegrees := s.communityDegrees.touch vertexCommunity
  let partition := partition.touchAll (neighbors.map Prod.fst)
  let tally := degreeInComs partition neighbors
  let vertexInVertexComDegree := tally vertexCommunity
  let communityDegrees := communityDegrees.touchAll
    ((neighbors.map fun e => partition.get e.1).filter (· ≠ vertexCommunity))
  if bestCom ≠ vertexCommunity then
    (true, ⟨partition.set vertex bestCom, moveStatistics communityDegrees vertexCommunity bestCom
      vertexDegree vertexInVertexComDegree (tally bestCom)⟩)
  else (false, ⟨partition, communityDegrees⟩)

/-- One sweep over the vertices (lines 48-90, 108-149): whether a vertex moved, and
the state after. -/
def sweep (countEdges : UInt64) (degrees : VertexDegrees) (graph : Graph) (s : State) : Bool × State :=
  graph.foldl (fun acc r => let m := moveVertex countEdges degrees r.1 r.2 acc.2; (acc.1 || m.1, m.2))
    (false, s)

/-- The `while (modified)` loop with at most `fuel` sweeps: the `improvement` flag and
the final state, or `none` when the fuel runs out first. -/
def localMove (countEdges : UInt64) (degrees : VertexDegrees) (graph : Graph) :
    ℕ → Bool → State → Option (Bool × State)
  | 0, _, _ => none
  | fuel + 1, improvement, s =>
    let m := sweep countEdges degrees graph s
    if m.1 then localMove countEdges degrees graph fuel true m.2 else some (improvement, m.2)

/-- `first_phase`: the local moves over the store graph, in stream order. -/
def firstPhase (fuel : ℕ) (graph : Store) (partition : Partition) (degrees : VertexDegrees)
    (communityDegrees : CommunityDegrees) (countEdges : UInt64) : Option (Bool × State) :=
  localMove countEdges degrees graph.rows fuel false ⟨partition, communityDegrees⟩

/-- `second_phase`: the local moves over an in-memory graph. -/
def secondPhase (fuel : ℕ) (graph : Graph) (partition : Partition) (degrees : VertexDegrees)
    (communityDegrees : CommunityDegrees) (countEdges : UInt64) : Option (Bool × State) :=
  localMove countEdges degrees graph fuel false ⟨partition, communityDegrees⟩

/-! ### What a move does to the partition -/

theorem candidate_snd (countEdges : UInt64) (partition : Partition) (communityDegrees : CommunityDegrees)
    (degreeInComs : Key → ℚ) (vertexDegree : ℚ) (vertexCommunity : Key)
    (vertexComTotDegree vertexInVertexComDegree : ℚ) (best : ℚ × Key) (e : Key × ℚ) :
    (candidate countEdges partition communityDegrees degreeInComs vertexDegree vertexCommunity
      vertexComTotDegree vertexInVertexComDegree best e).2 = best.2 ∨
    (candidate countEdges partition communityDegrees degreeInComs vertexDegree vertexCommunity
      vertexComTotDegree vertexInVertexComDegree best e).2 = partition.get e.1 := by
  dsimp only [candidate]
  split
  · exact .inl rfl
  · split
    · exact .inr rfl
    · exact .inl rfl

theorem foldl_snd_eq_or {f : ℚ × Key → Key × ℚ → ℚ × Key} {g : Key → Key}
    (hf : ∀ best e, (f best e).2 = best.2 ∨ (f best e).2 = g e.1) (l : UMap ℚ) (best : ℚ × Key) :
    (l.foldl f best).2 = best.2 ∨ ∃ e ∈ l, (l.foldl f best).2 = g e.1 := by
  induction l generalizing best with
  | nil => exact .inl rfl
  | cons e l ih =>
    rw [List.foldl_cons]
    rcases ih (f best e) with h | ⟨e', he', h⟩
    · rcases hf best e with h' | h'
      · exact .inl (h.trans h')
      · exact .inr ⟨e, List.mem_cons_self _ _, h.trans h'⟩
    · exact .inr ⟨e', List.mem_cons_of_mem _ he', h⟩

/-- `best_com` is the vertex's own community or that of one of its neighbours. -/
theorem eq_or_of_bestCommunity_eq {countEdges : UInt64} {partition : Partition}
    {communityDegrees : CommunityDegrees} {degreeInComs : Key → ℚ} {vertexDegree : ℚ}
    {vertexCommunity : Key} {neighbors : UMap ℚ} {B : Key}
    (h : bestCommunity countEdges partition communityDegrees degreeInComs vertexDegree vertexCommunity
      neighbors = B) : B = vertexCommunity ∨ ∃ e ∈ neighbors, B = partition.get e.1 :=
  h ▸ foldl_snd_eq_or (candidate_snd countEdges partition communityDegrees degreeInComs vertexDegree
    vertexCommunity _ _) neighbors _

/-- The code's step is the step into the community its scan picks: the vertex's own, or
a neighbour's. -/
theorem exists_moveVertex_eq (countEdges : UInt64) (degrees : VertexDegrees) (v : Key) (ns : UMap ℚ)
    (s : State) :
    ∃ B, (B = s.partition.get v ∨ ∃ e ∈ ns, B = s.partition.get e.1) ∧
      moveVertex countEdges degrees v ns s = moveVertexTo degrees v ns s B := by
  refine ⟨_, ?_, rfl⟩
  rcases eq_or_of_bestCommunity_eq rfl with h | ⟨e, he, h⟩
  · exact .inl (h.trans (UMap.get_touch _ _ _))
  · exact .inr ⟨e, he, h.trans (congrFun (UMap.get_touch_touchAll _ _ _) e.1)⟩

/-- A step leaves the communities as they were, or puts `v` into `B`, a community other
than its own. -/
theorem partition_moveVertexTo (degrees : VertexDegrees) (v : Key) (ns : UMap ℚ) (s : State) (B : Key) :
    ((moveVertexTo degrees v ns s B).1 = false ∧
      (moveVertexTo degrees v ns s B).2.partition.get = s.partition.get) ∨
    ((moveVertexTo degrees v ns s B).1 = true ∧ B ≠ s.partition.get v ∧
      (moveVertexTo degrees v ns s B).2.partition.get = Function.update s.partition.get v B) := by
  simp only [moveVertexTo, UMap.get_touch]
  split_ifs with h
  · exact .inr ⟨rfl, h, by rw [UMap.get_set_eq_update, UMap.get_touch_touchAll]⟩
  · exact .inl ⟨rfl, UMap.get_touch_touchAll _ _ _⟩

/-! ### The initialisations -/

/-- The initialisation of `best_partition` (lines 209-228): each streamed vertex its
own community, with the degree the store gives it. -/
def initialState (graph : Store) : VertexDegrees × State :=
  graph.batches.foldl (fun acc batch => (batch.zip (batch.map graph.degree)).foldl
    (fun acc vd => (acc.1.set vd.1 vd.2,
      ⟨acc.2.partition.set vd.1 vd.1, acc.2.communityDegrees.set vd.1 ⟨0, vd.2⟩⟩)) acc) ([], ⟨[], []⟩)

/-- The initialisation, read vertex by vertex along the stream. -/
theorem initialState_eq (G : Store) :
    initialState G = G.stream.foldl (fun (acc : VertexDegrees × State) v => (acc.1.set v (G.degree v),
      ⟨acc.2.partition.set v v, acc.2.communityDegrees.set v ⟨0, G.degree v⟩⟩)) ([], ⟨[], []⟩) := by
  rw [initialState, Store.stream, List.foldl_flatten]
  congr 1; funext acc batch
  induction batch generalizing acc with
  | nil => rfl
  | cons v batch ih => exact ih _

theorem degrees_initialState (G : Store) :
    (initialState G).1 = G.stream.foldl (fun m v => UMap.set m v (G.degree v)) ([] : VertexDegrees) := by
  rw [initialState_eq]
  exact (List.foldl_hom Prod.fst _ (fun m v => UMap.set m v (G.degree v)) _ _ fun _ _ => rfl).symm

theorem partition_initialState (G : Store) :
    (initialState G).2.partition = G.stream.foldl (fun m v => UMap.set m v v) ([] : Partition) := by
  rw [initialState_eq]
  exact (List.foldl_hom (fun acc : VertexDegrees × State => acc.2.partition) _
    (fun m v => UMap.set m v v) _ _ fun _ _ => rfl).symm

theorem communityDegrees_initialState (G : Store) :
    (initialState G).2.communityDegrees =
      G.stream.foldl (fun m v => UMap.set m v ⟨0, G.degree v⟩) ([] : CommunityDegrees) := by
  rw [initialState_eq]
  exact (List.foldl_hom (fun acc : VertexDegrees × State => acc.2.communityDegrees) _
    (fun m v => UMap.set m v ⟨0, G.degree v⟩) _ _ fun _ _ => rfl).symm

/-- After the initialisation every streamed vertex is its own community, with the
store's degree. -/
theorem get_initialState (G : Store) (k : Key) :
    (initialState G).1.get k = (if k ∈ G.stream then G.degree k else 0) ∧
    (initialState G).2.partition.get k = (if k ∈ G.stream then k else 0) ∧
    (initialState G).2.communityDegrees.get k = if k ∈ G.stream then ⟨0, G.degree k⟩ else default := by
  refine ⟨?_, ?_, ?_⟩
  · rw [degrees_initialState, UMap.get_foldl_set _ (fun v => v) _ _ k (G.degree k) fun _ _ h => h ▸ rfl,
      List.map_id']; rfl
  · rw [partition_initialState, UMap.get_foldl_set _ (fun v => v) (fun v => v) _ k k fun _ _ h => h,
      List.map_id']; rfl
  · rw [communityDegrees_initialState, UMap.get_foldl_set _ (fun v => v) _ _ k ⟨0, G.degree k⟩
      fun _ _ h => h ▸ rfl, List.map_id']; rfl

/-- `static_cast<int>` of a `double`: truncation toward zero, undefined (`none`) when the
truncated value does not fit a 32-bit `int`. -/
def toInt (q : ℚ) : Option ℤ :=
  let t := q.num.tdiv q.den
  if -2 ^ 31 ≤ t ∧ t < 2 ^ 31 then some t else none

/-- What lines 236-253 build for the next level: the state, the vertex degrees,
`degree_sum` and `count_edges`. -/
structure LevelInit where
  /-- The partition and the statistics. -/
  state : State
  /-- `vertex_degrees`. -/
  degrees : VertexDegrees
  /-- `degree_sum`, or `none` once an addition has left the range of `int`. -/
  degreeSum : Option ℤ
  /-- `count_edges`. -/
  countEdges : UInt64

/-- The start of a level above `0` (lines 236-253): each vertex of `graph` its own
community, its degree the sum of its weights; `degree_sum` adds up the degrees in an
`int`, `count_edges` counts the entries. -/
def levelInit (graph : Graph) : LevelInit :=
  graph.foldl (fun acc r =>
    let degree := (r.2.map Prod.snd).sum
    { state := ⟨acc.state.partition.set r.1 r.1, acc.state.communityDegrees.set r.1 ⟨0, degree⟩⟩
      degrees := acc.degrees.set r.1 degree
      degreeSum := acc.degreeSum.bind fun degreeSum => toInt (degreeSum + degree)
      countEdges := acc.countEdges + UInt64.ofNat r.2.length })
    ⟨⟨[], []⟩, [], some 0, 0⟩

theorem degrees_levelInit (g : Graph) :
    (levelInit g).degrees = g.foldl (fun m r => UMap.set m r.1 (r.2.map Prod.snd).sum) ([] : VertexDegrees) :=
  (List.foldl_hom (fun acc : LevelInit => acc.degrees) _
    (fun (m : VertexDegrees) (r : Key × UMap ℚ) => UMap.set m r.1 (r.2.map Prod.snd).sum) _ _
    fun _ _ => rfl).symm

theorem partition_levelInit (g : Graph) :
    (levelInit g).state.partition = g.foldl (fun m r => UMap.set m r.1 r.1) ([] : Partition) :=
  (List.foldl_hom (fun acc : LevelInit => acc.state.partition) _
    (fun (m : Partition) (r : Key × UMap ℚ) => UMap.set m r.1 r.1) _ _
    fun _ _ => rfl).symm

theorem communityDegrees_levelInit (g : Graph) :
    (levelInit g).state.communityDegrees =
      g.foldl (fun m r => UMap.set m r.1 ⟨0, (r.2.map Prod.snd).sum⟩) ([] : CommunityDegrees) :=
  (List.foldl_hom (fun acc : LevelInit => acc.state.communityDegrees) _
    (fun (m : CommunityDegrees) (r : Key × UMap ℚ) => UMap.set m r.1 ⟨0, (r.2.map Prod.snd).sum⟩) _ _
    fun _ _ => rfl).symm

/-- After lines 236-253 every vertex of `graph` is its own community, with the sum of
its weights for degree. -/
theorem get_levelInit {graph : Graph} (hg : (UMap.keys graph).Nodup) (k : Key) :
    (levelInit graph).degrees.get k = (if k ∈ UMap.keys graph then mass (graph.get k) else 0) ∧
    (levelInit graph).state.partition.get k = (if k ∈ UMap.keys graph then k else 0) ∧
    (levelInit graph).state.communityDegrees.get k =
      if k ∈ UMap.keys graph then ⟨0, mass (graph.get k)⟩ else default := by
  have hrow : ∀ r ∈ graph, r.1 = k → r.2 = graph.get k := fun r hr h => by
    subst h; exact (UMap.get_of_mem hg hr).symm
  refine ⟨?_, ?_, ?_⟩
  · rw [degrees_levelInit, UMap.get_foldl_set _ Prod.fst _ _ k (mass (graph.get k))
      fun r hr h => by rw [← hrow r hr h]; rfl]
    rfl
  · rw [partition_levelInit, UMap.get_foldl_set _ Prod.fst _ _ k k fun _ _ h => h]
    rfl
  · rw [communityDegrees_levelInit, UMap.get_foldl_set _ Prod.fst _ _ k ⟨0, mass (graph.get k)⟩
      fun r hr h => by rw [← hrow r hr h]; rfl]
    rfl

end UStore.Louvain
