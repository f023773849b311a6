import UStore.Louvain.Statistics

/-!
# The store loop and the in-memory loop

`first_phase` and `second_phase`, like the two `induce_community_graph`, are one piece
of code written twice: over the store, where the neighbours of a vertex are a list that
may name a neighbour more than once, each entry weighing `1`; and over a `graph_t`, where
each neighbour appears once, with a weight. Run on a store graph and on its in-memory
image `Store.inMemory`, whose row of `v` holds each neighbour `u` once, in order of first
occurrence, with the number of times `u` is listed, the two compute the same thing.

The same here means the same `std::unordered_map`s, which compare their entries whatever
their order: the same lookups. The order of the entries can differ, since the store
loop's `operator[]` insertions follow the list with its repetitions.

Two facts carry the proof. The tally puts the same weight into each community: a
neighbour listed `k` times adds `1` `k` times where the image adds `k` once
(`degreeInComs_countRow`). And the candidate scan never moves on a neighbour whose
community it has weighed already (`Settled`): `best_mod` only grows, and the `delta` of
a community does not change during the scan (`foldl_candidate_count`). An induced
graph's lookups depend only on which pairs of communities the rows cross between and on
the weight between them (`lookups_induceRows`), which a row and its image share.

## What is proved

* `firstPhase_eq_secondPhase`: from the same partition, degrees, statistics and
  `count_edges`, `first_phase` on a store graph and `second_phase` on its image return
  the same flag and leave the same partition and statistics, whatever the fuel; and
  for every partition both inducers build the same `graph_t`, or both throw.
-/

namespace UStore.Louvain

/-- The row of a neighbour list in the image: `G'[v][u] += 1` for each entry `u`, so each
neighbour once, in order of first occurrence, with the number of times it is listed. -/
def countRow (l : List Key) : UMap ℚ := l.foldl (fun m u => m.modify u (· + 1)) []

/-- The in-memory image of a store graph: its vertices in stream order, each with the
row of its neighbour list. -/
def Store.inMemory (G : Store) : Graph := G.stream.map fun v => (v, countRow (G.neighbors v))

/-- The lookups of a state's two maps: two states with the same lookups are the same
`unordered_map`s. -/
def State.lookups (s : State) : (Key → Option Key) × (Key → Option CommunityDegree) :=
  (s.partition.find?, s.communityDegrees.find?)

/-- The lookups of a `graph_t`, inner maps included. -/
def Graph.lookups (g : Graph) : Key → Option (Key → Option ℚ) := fun A => (g.find? A).map UMap.find?

/-! ### Counting rows -/

theorem mem_keys_foldl_count {l : List Key} {m : UMap ℚ} {u : Key} :
    u ∈ (l.foldl (fun m u => m.modify u (· + 1)) m).keys ↔ u ∈ m.keys ∨ u ∈ l := by
  induction l generalizing m with
  | nil => simp
  | cons x l ih =>
    rw [List.foldl_cons, ih, UMap.modify, UMap.mem_keys_set, List.mem_cons]
    tauto

theorem mem_keys_countRow {l : List Key} {u : Key} : u ∈ (countRow l).keys ↔ u ∈ l := by
  simp [countRow, mem_keys_foldl_count]

theorem sum_foldl_count (l : List Key) {m : UMap ℚ} (hm : m.NodupKeys) (f : Key → ℚ) :
    ((l.foldl (fun m u => m.modify u (· + 1)) m).map fun e => f e.1 * e.2).sum =
      (m.map fun e => f e.1 * e.2).sum + (l.map f).sum := by
  induction l generalizing m with
  | nil => simp
  | cons x l ih =>
    rw [List.foldl_cons, ih (hm.modify _ _), UMap.modify, UMap.sum_set hm x _ (fun k w => f k * w) (mul_zero _)]
    simp only [List.map_cons, List.sum_cons]
    ring

/-- A sum of the weights of some entries, over a row of the image, is the same sum over
the neighbour list. -/
theorem sum_ite_countRow (l : List Key) (p : Key → Prop) [DecidablePred p] :
    ((countRow l).map fun e => if p e.1 then e.2 else 0).sum =
      ((l.map fun n => (n, (1 : ℚ))).map fun e => if p e.1 then e.2 else 0).sum := by
  have hmul : ∀ ns : UMap ℚ, (ns.map fun e => if p e.1 then e.2 else 0) =
      ns.map fun e => (if p e.1 then 1 else 0) * e.2 :=
    fun ns => List.map_congr_left fun e _ => by split <;> simp
  rw [hmul, hmul, countRow, sum_foldl_count l (show UMap.NodupKeys ([] : UMap ℚ) from List.nodup_nil)
    fun k => if p k then 1 else 0]
  simp [Function.comp_def]

theorem exists_mem_countRow {l : List Key} {φ : Key → Prop} : (∃ e ∈ countRow l, φ e.1) ↔ ∃ n ∈ l, φ n := by
  constructor
  · rintro ⟨e, he, h⟩
    exact ⟨e.1, mem_keys_countRow.1 (List.mem_map_of_mem _ he), h⟩
  · rintro ⟨n, hn, h⟩
    obtain ⟨e, he, rfl⟩ := List.mem_map.1 (mem_keys_countRow.2 hn)
    exact ⟨e, he, h⟩

theorem forall_mem_countRow {l : List Key} {φ : Key → Prop} : (∀ e ∈ countRow l, φ e.1) ↔ ∀ n ∈ l, φ n := by
  simpa using (@exists_mem_countRow l fun n => ¬φ n).not

/-- The tally of a row of the image is the tally of the neighbour list. -/
theorem degreeInComs_countRow (partition : Partition) (l : List Key) :
    degreeInComs partition (countRow l) = degreeInComs partition (l.map fun n => (n, 1)) := by
  funext c
  rw [degreeInComs_apply, degreeInComs_apply, sum_ite_countRow l (partition.get · = c)]

/-! ### The candidate scan -/

section Candidate

variable (countEdges : UInt64) (partition : Partition) (communityDegrees : CommunityDegrees)
  (degreeInComs : Key → ℚ) (vertexDegree : ℚ) (vertexCommunity : Key)
  (vertexComTotDegree vertexInVertexComDegree : ℚ)

/-- The scan has weighed the community of `e` against `best`: no neighbour of that
community can change `best` any more. -/
def Settled (best : ℚ × Key) (e : Key × ℚ) : Prop :=
  vertexCommunity = partition.get e.1 ∨
    delta countEdges vertexDegree (degreeInComs (partition.get e.1)) vertexInVertexComDegree
      (communityDegrees.get (partition.get e.1)).totDegree vertexComTotDegree ≤ best.1

variable {countEdges partition communityDegrees degreeInComs vertexDegree vertexCommunity
  vertexComTotDegree vertexInVertexComDegree}

theorem le_candidate (best : ℚ × Key) (e : Key × ℚ) :
    best.1 ≤ (candidate countEdges partition communityDegrees degreeInComs vertexDegree
      vertexCommunity vertexComTotDegree vertexInVertexComDegree best e).1 := by
  dsimp only [candidate]
  split
  · exact le_rfl
  · split
    · exact le_of_lt ‹_›
    · exact le_rfl

theorem settled_candidate (best : ℚ × Key) (e : Key × ℚ) :
    Settled countEdges partition communityDegrees degreeInComs vertexDegree vertexCommunity
      vertexComTotDegree vertexInVertexComDegree
      (candidate countEdges partition communityDegrees degreeInComs vertexDegree vertexCommunity
        vertexComTotDegree vertexInVertexComDegree best e) e := by
  dsimp only [Settled, candidate]
  split
  · exact .inl ‹_›
  · refine .inr ?_
    split
    · exact le_rfl
    · exact not_lt.1 ‹_›

theorem Settled.candidate_eq {best : ℚ × Key} {e : Key × ℚ}
    (h : Settled countEdges partition communityDegrees degreeInComs vertexDegree vertexCommunity
      vertexComTotDegree vertexInVertexComDegree best e) :
    candidate countEdges partition communityDegrees degreeInComs vertexDegree vertexCommunity
      vertexComTotDegree vertexInVertexComDegree best e = best := by
  dsimp only [candidate]
  split
  · rfl
  · rw [if_neg (not_lt.2 (h.resolve_left ‹_›))]

theorem candidate_fst {best : ℚ × Key} {e e' : Key × ℚ} (h : e.1 = e'.1) :
    candidate countEdges partition communityDegrees degreeInComs vertexDegree vertexCommunity
      vertexComTotDegree vertexInVertexComDegree best e =
    candidate countEdges partition communityDegrees degreeInComs vertexDegree vertexCommunity
      vertexComTotDegree vertexInVertexComDegree best e' := by
  unfold candidate; rw [h]

theorem le_foldl_candidate (l : UMap ℚ) (best : ℚ × Key) :
    best.1 ≤ (l.foldl (candidate countEdges partition communityDegrees degreeInComs vertexDegree
      vertexCommunity vertexComTotDegree vertexInVertexComDegree) best).1 := by
  induction l generalizing best with
  | nil => exact le_rfl
  | cons e l ih => exact (le_candidate best e).trans (ih _)

/-- The scan reads only the keys of the entries. -/
theorem foldl_candidate_map (g : Key × ℚ → Key × ℚ) (hg : ∀ e, (g e).1 = e.1) (l : UMap ℚ)
    (best : ℚ × Key) :
    (l.map g).foldl (candidate countEdges partition communityDegrees degreeInComs vertexDegree
      vertexCommunity vertexComTotDegree vertexInVertexComDegree) best =
    l.foldl (candidate countEdges partition communityDegrees degreeInComs vertexDegree
      vertexCommunity vertexComTotDegree vertexInVertexComDegree) best := by
  induction l generalizing best with
  | nil => rfl
  | cons e l ih => rw [List.map_cons, List.foldl_cons, List.foldl_cons, candidate_fst (hg e), ih]

/-- After a scan, every neighbour it went over is settled. -/
theorem settled_foldl_candidate (l : UMap ℚ) (best : ℚ × Key) :
    ∀ e ∈ l, Settled countEdges partition communityDegrees degreeInComs vertexDegree vertexCommunity
      vertexComTotDegree vertexInVertexComDegree
      (l.foldl (candidate countEdges partition communityDegrees degreeInComs vertexDegree
        vertexCommunity vertexComTotDegree vertexInVertexComDegree) best) e := by
  induction l generalizing best with
  | nil => intro e he; cases he
  | cons e l ih =>
    intro e' he'
    rcases List.mem_cons.1 he' with rfl | he'
    · exact (settled_candidate best e').imp_right fun h => h.trans (le_foldl_candidate l _)
    · exact ih _ e' he'

/-- Scanning the row of the image is scanning the neighbour list: a repeated neighbour
changes nothing. -/
theorem foldl_candidate_count (l : List Key) (m : UMap ℚ) (best : ℚ × Key) :
    (l.foldl (fun m u => m.modify u (· + 1)) m).foldl (candidate countEdges partition communityDegrees
      degreeInComs vertexDegree vertexCommunity vertexComTotDegree vertexInVertexComDegree) best =
    (l.map fun n => (n, (1 : ℚ))).foldl (candidate countEdges partition communityDegrees degreeInComs
      vertexDegree vertexCommunity vertexComTotDegree vertexInVertexComDegree)
      (m.foldl (candidate countEdges partition communityDegrees degreeInComs vertexDegree
        vertexCommunity vertexComTotDegree vertexInVertexComDegree) best) := by
  induction l generalizing m with
  | nil => rfl
  | cons u l ih =>
    rw [List.foldl_cons, ih, List.map_cons, List.foldl_cons]
    congr 1
    unfold UMap.modify UMap.set
    split
    · rename_i hu
      obtain ⟨w, hw⟩ := Option.isSome_iff_exists.1 hu
      have hs := @settled_foldl_candidate countEdges partition communityDegrees degreeInComs
        vertexDegree vertexCommunity vertexComTotDegree vertexInVertexComDegree m best (u, w)
        (UMap.mem_of_find? hw)
      rw [foldl_candidate_map _ (fun e => by dsimp only; split <;> simp_all)]
      exact (Settled.candidate_eq (show Settled _ _ _ _ _ _ _ _ _ (u, 1) from hs)).symm
    · rw [List.foldl_append, List.foldl_cons, List.foldl_nil]
      exact candidate_fst rfl

end Candidate

theorem bestCommunity_countRow (countEdges : UInt64) (partition : Partition)
    (communityDegrees : CommunityDegrees) (degreeInComs : Key → ℚ) (vertexDegree : ℚ)
    (vertexCommunity : Key) (l : List Key) :
    bestCommunity countEdges partition communityDegrees degreeInComs vertexDegree vertexCommunity
      (countRow l) =
    bestCommunity countEdges partition communityDegrees degreeInComs vertexDegree vertexCommunity
      (l.map fun n => (n, 1)) := by
  unfold bestCommunity countRow
  rw [foldl_candidate_count]
  rfl

/-! ### One vertex, one sweep, one loop -/

theorem degreeInComs_congr {P P' : Partition} (h : P.get = P'.get) (ns : UMap ℚ) :
    degreeInComs P ns = degreeInComs P' ns := by
  unfold degreeInComs; rw [h]

theorem bestCommunity_congr (countEdges : UInt64) {P P' : Partition} (hP : P.get = P'.get)
    {S S' : CommunityDegrees} (hS : S.get = S'.get) (t : Key → ℚ) (d : ℚ) (A : Key) (ns : UMap ℚ) :
    bestCommunity countEdges P S t d A ns = bestCommunity countEdges P' S' t d A ns := by
  unfold bestCommunity candidate; rw [hP, hS]

theorem find?_moveStatistics_congr {S S' : CommunityDegrees} (h : S.find? = S'.find?) (A B : Key)
    (d kA kB : ℚ) : (moveStatistics S A B d kA kB).find? = (moveStatistics S' A B d kA kB).find? :=
  UMap.find?_modify_congr (UMap.find?_modify_congr (UMap.find?_modify_congr
    (UMap.find?_modify_congr h _ _) _ _) _ _) _ _

/-- `moveVertex` reads of a row only which keys it holds, its tally and its best
community: two rows that agree on these move a vertex alike, from states with the same
lookups. -/
theorem moveVertex_congr {s s' : State} (h : s.lookups = s'.lookups) (countEdges : UInt64)
    (degrees : VertexDegrees) (v : Key) {ns ns' : UMap ℚ}
    (hkeys : ∀ φ : Key → Prop, (∃ e ∈ ns, φ e.1) ↔ ∃ e ∈ ns', φ e.1)
    (htally : ∀ P, degreeInComs P ns = degreeInComs P ns')
    (hbest : ∀ P S t d A, bestCommunity countEdges P S t d A ns = bestCommunity countEdges P S t d A ns') :
    (moveVertex countEdges degrees v ns s).1 = (moveVertex countEdges degrees v ns' s').1 ∧
    (moveVertex countEdges degrees v ns s).2.lookups = (moveVertex countEdges degrees v ns' s').2.lookups := by
  obtain ⟨hP, hS⟩ := Prod.ext_iff.1 h
  have hP₀ := UMap.find?_touch_congr hP v
  have hP₁ : ((s.partition.touch v).touchAll (ns.map Prod.fst)).find? =
      ((s'.partition.touch v).touchAll (ns'.map Prod.fst)).find? :=
    UMap.find?_touchAll_congr hP₀ fun k => by simp only [List.mem_map]; exact hkeys (· = k)
  simp only [moveVertex]
  rw [← congrFun (UMap.get_congr hP₀) v]
  generalize (s.partition.touch v).get v = A
  generalize (s.partition.touch v).touchAll (ns.map Prod.fst) = P₁ at hP₁ ⊢
  generalize (s'.partition.touch v).touchAll (ns'.map Prod.fst) = P₂ at hP₁ ⊢
  have hPg := UMap.get_congr hP₁
  rw [htally, degreeInComs_congr hPg]
  generalize degreeInComs P₂ ns' = t
  have hS₁ : ((s.communityDegrees.touch A).touchAll ((ns.map fun e => P₁.get e.1).filter (· ≠ A))).find? =
      ((s'.communityDegrees.touch A).touchAll ((ns'.map fun e => P₂.get e.1).filter (· ≠ A))).find? :=
    UMap.find?_touchAll_congr (UMap.find?_touch_congr hS A) fun c => by
      simp only [List.mem_filter, hPg, List.mem_map]
      exact and_congr_left fun _ => hkeys fun k => P₂.get k = c
  generalize (s.communityDegrees.touch A).touchAll ((ns.map fun e => P₁.get e.1).filter (· ≠ A)) = S₁ at hS₁ ⊢
  generalize (s'.communityDegrees.touch A).touchAll ((ns'.map fun e => P₂.get e.1).filter (· ≠ A)) = S₂
    at hS₁ ⊢
  rw [hbest, bestCommunity_congr countEdges hPg (UMap.get_congr hS₁)]
  generalize bestCommunity countEdges P₂ S₂ t (degrees.get v) A ns' = B
  split_ifs
  · exact ⟨rfl, Prod.ext (UMap.find?_set_congr hP₁ v B) (find?_moveStatistics_congr hS₁ _ _ _ _ _)⟩
  · exact ⟨rfl, Prod.ext hP₁ hS₁⟩

/-- One sweep over the stream and over the image. -/
theorem sweep_inMemory (G : Store) (countEdges : UInt64) (degrees : VertexDegrees) {s s' : State}
    (h : s.lookups = s'.lookups) :
    (sweep countEdges degrees G.rows s).1 = (sweep countEdges degrees G.inMemory s').1 ∧
      (sweep countEdges degrees G.rows s).2.lookups = (sweep countEdges degrees G.inMemory s').2.lookups := by
  unfold sweep Store.rows Store.inMemory
  generalize false = b
  induction G.stream generalizing b s s' with
  | nil => exact ⟨rfl, h⟩
  | cons v vs ih =>
    simp only [List.map_cons, List.foldl_cons]
    obtain ⟨h1, h2⟩ := moveVertex_congr h countEdges degrees v
      (fun φ => by simp only [List.mem_map, exists_exists_and_eq_and]; exact exists_mem_countRow.symm)
      (fun P => (degreeInComs_countRow P (G.neighbors v)).symm)
      fun P S t d A => (bestCommunity_countRow countEdges P S t d A (G.neighbors v)).symm
    rw [h1]
    exact ih h2 _

/-- The `while (modified)` loop over the stream and over the image. -/
theorem localMove_inMemory (G : Store) (countEdges : UInt64) (degrees : VertexDegrees) (fuel : ℕ)
    (improvement : Bool) {s s' : State} (h : s.lookups = s'.lookups) :
    (localMove countEdges degrees G.rows fuel improvement s).map (fun r => (r.1, r.2.lookups)) =
      (localMove countEdges degrees G.inMemory fuel improvement s').map (fun r => (r.1, r.2.lookups)) := by
  induction fuel generalizing improvement s s' with
  | zero => rfl
  | succ fuel ih =>
    obtain ⟨h1, h2⟩ := sweep_inMemory G countEdges degrees h
    simp only [localMove, h1]
    split
    · exact ih true h2
    · simp [h2]

/-! ### The inducers -/

/-- Two lists of rows that mention the same pairs of keys, with the same weights between
any two communities, induce graphs with the same lookups. -/
theorem lookups_induceRows {P : Key → Key} {R R' : Graph}
    (hrow : ∀ φ : Key → Key → Prop, (∃ r ∈ R, ∃ e ∈ r.2, φ r.1 e.1) ↔ ∃ r ∈ R', ∃ e ∈ r.2, φ r.1 e.1)
    (hw : ∀ A B, (R.map fun r => (r.2.map fun e => if P r.1 = A ∧ P e.1 = B ∧ A ≠ B then e.2 else 0).sum).sum =
      (R'.map fun r => (r.2.map fun e => if P r.1 = A ∧ P e.1 = B ∧ A ≠ B then e.2 else 0).sum).sum) :
    Graph.lookups (induceRows P R []) = Graph.lookups (induceRows P R' []) := by
  funext A
  unfold Graph.lookups
  have hs : ((induceRows P R []).find? A).isSome = ((induceRows P R' []).find? A).isSome := by
    rw [Bool.eq_iff_iff, isSome_find?_induceRows, isSome_find?_induceRows]
    exact or_congr_right (hrow fun a b => P a = A ∧ P a ≠ P b)
  rw [UMap.find?_eq_ite _ A, UMap.find?_eq_ite (induceRows P R' []) A, hs]
  split
  · simp only [Option.map_some']
    congr 1
    funext B
    have hs : (((induceRows P R []).get A).find? B).isSome = (((induceRows P R' []).get A).find? B).isSome := by
      rw [Bool.eq_iff_iff, isSome_find?_get_induceRows, isSome_find?_get_induceRows]
      exact or_congr_right (hrow fun a b => P a = A ∧ P b = B ∧ A ≠ B)
    rw [UMap.find?_eq_ite _ B, UMap.find?_eq_ite ((induceRows P R' []).get A) B, hs, get_get_induceRows,
      get_get_induceRows, hw]
  · rfl

theorem exists_mem_inMemory (G : Store) (φ : Key → Key → Prop) :
    (∃ r ∈ G.rows, ∃ e ∈ r.2, φ r.1 e.1) ↔ ∃ r ∈ G.inMemory, ∃ e ∈ r.2, φ r.1 e.1 := by
  simp only [Store.rows, Store.inMemory, List.mem_map, exists_exists_and_eq_and]
  exact exists_congr fun v => and_congr_right fun _ => exists_mem_countRow.symm

theorem covers_inMemory (G : Store) (partition : Partition) :
    Covers partition G.rows ↔ Covers partition G.inMemory := by
  simp only [Covers, Store.rows, Store.inMemory, List.forall_mem_map]
  exact forall₂_congr fun v _ => and_congr_right fun _ => forall_mem_countRow.symm

/-- The two inducers on a store graph and on its image. -/
theorem induce_inMemory (G : Store) (partition : Partition) :
    (G.induceCommunityGraph partition).map Graph.lookups =
      (induceCommunityGraph G.inMemory partition).map Graph.lookups := by
  rw [Store.induceCommunityGraph]
  by_cases hc : Covers partition G.rows
  · rw [induceCommunityGraph_eq hc, induceCommunityGraph_eq ((covers_inMemory G partition).1 hc),
      Option.map_some', Option.map_some']
    refine congrArg some (lookups_induceRows (exists_mem_inMemory G) fun A B => ?_)
    rw [Store.rows, Store.inMemory, List.map_map, List.map_map]
    exact congrArg List.sum (List.map_congr_left fun v _ => (sum_ite_countRow (G.neighbors v)
      fun k => partition.get v = A ∧ partition.get k = B ∧ A ≠ B).symm)
  · rw [induceCommunityGraph_eq_none hc, induceCommunityGraph_eq_none (mt (covers_inMemory G partition).2 hc)]

/-- **The store engine and the in-memory engine agree.** From the same partition,
degrees, statistics and `count_edges`, `first_phase` on a store graph and
`second_phase` on its image return the same flag and leave maps with the same lookups,
or both run out of fuel; and for every partition the two inducers build graphs with the
same lookups, or both throw. -/
theorem firstPhase_eq_secondPhase :
    (∀ (fuel : ℕ) (G : Store) (partition : Partition) (degrees : VertexDegrees)
      (communityDegrees : CommunityDegrees) (countEdges : UInt64),
      (firstPhase fuel G partition degrees communityDegrees countEdges).map (fun r => (r.1, r.2.lookups)) =
        (secondPhase fuel G.inMemory partition degrees communityDegrees countEdges).map
          fun r => (r.1, r.2.lookups)) ∧
    ∀ (G : Store) (partition : Partition),
      (G.induceCommunityGraph partition).map Graph.lookups =
        (induceCommunityGraph G.inMemory partition).map Graph.lookups :=
  ⟨fun fuel G _ degrees _ countEdges => localMove_inMemory G countEdges degrees fuel false rfl,
    induce_inMemory⟩

end UStore.Louvain
