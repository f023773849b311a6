import UStore.Louvain.Induce
import Mathlib.Algebra.Order.BigOperators.Group.Finset

/-!
# The community statistics

`community_degrees` is updated at every move (lines 80-84, 140-144) and never
recomputed. What do its entries hold? For a move of `v` from `A` to `B`, with `d` the
degree of `v` and `k_X` the weight of its entries into `X`, the code does

    tot[A] -= d - k_A;  tot[B] += d - k_B;  in[A] -= k_A;  in[B] += k_B

so that `in + tot` changes by `-d` for `A` and `+d` for `B`, and `in` by the change of
the weight inside each community. Starting from `{0, degree}` for every singleton, the
statistics of every reachable state are (`StatsInv`)

    in[c] = W(c)          the weight of the edges inside c, each counted once
    tot[c] = D(c) - W(c)  the sum of the members' degrees, less W(c)

So `in_degree` is the internal weight, not twice it, and `tot_degree` is not the sum
of the degrees once a community has an internal edge; `tot - in` is the weight of the
edges leaving `c`, which is never negative.

The reachable states (`Reachable`) are those of any moves into the vertex's own
community or a neighbour's, whichever the scan picks: the statistics update does not
depend on why a community was picked, so what holds here holds also where the rounding
of the code's `delta` picks another community than exact arithmetic would.

## What is proved

* `inDegree_eq_internalWeight`: in every state the local-move loop can reach from the
  start of any level, `in_degree` is the internal weight of the community.
* `inDegree_le_totDegree`: in every such state `0 ≤ in_degree ≤ tot_degree`.
* `LevelStart.start`: every level's graph is well formed, with exact degrees and right
  statistics at its start.
-/

namespace UStore.Louvain

open scoped BigOperators

/-- The members of community `c` under `P`. -/
def members (R : Graph) (P : Key → Key) (c : Key) : Finset Key :=
  (UMap.keys R).toFinset.filter (P · = c)

/-- The weight of the edges inside `c`, each counted once. -/
def internalWeight (R : Graph) (P : Key → Key) (c : Key) : ℚ :=
  (∑ u ∈ members R P c, ∑ x ∈ members R P c, weight R u x) / 2

/-- The sum of the degrees of the members of `c`. -/
def memberDegree (R : Graph) (deg : Key → ℚ) (P : Key → Key) (c : Key) : ℚ :=
  ∑ u ∈ members R P c, deg u

/-- The weight of the entries of `v` into `c`. -/
def weightInto (R : Graph) (P : Key → Key) (v c : Key) : ℚ := ∑ x ∈ members R P c, weight R v x

/-! ### Moving one vertex -/

theorem members_update (R : Graph) (P : Key → Key) {v : Key} (hv : v ∈ UMap.keys R) (B c : Key) :
    members R (Function.update P v B) c =
      if c = B then insert v (members R P c) else (members R P c).erase v := by
  ext x
  by_cases hx : x = v
  · subst x; split <;> simp_all [members, eq_comm]
  · split <;> simp [members, Function.update_noteq hx, hx]

theorem sum_sum_insert {S : Finset Key} {v : Key} (hv : v ∉ S) {w : Key → Key → ℚ}
    (hw : ∀ u x, w u x = w x u) (hvv : w v v = 0) :
    ∑ u ∈ insert v S, ∑ x ∈ insert v S, w u x = ∑ u ∈ S, ∑ x ∈ S, w u x + 2 * ∑ x ∈ S, w v x := by
  simp only [Finset.sum_insert hv, hvv, Finset.sum_add_distrib, zero_add, hw _ v]
  ring

theorem weight_self {R : Graph} (hR : WellFormed R) (v : Key) : weight R v v = 0 := by
  refine List.sum_eq_zero fun q hq => ?_
  obtain ⟨r, hr, rfl⟩ := List.mem_map.1 hq
  split
  · subst v
    exact List.sum_eq_zero fun q hq => by
      obtain ⟨e, he, rfl⟩ := List.mem_map.1 hq
      exact if_neg (hR.irrefl r hr e he)
  · rfl

/-- How a move of `v` to `B` changes the internal weight of each community. -/
theorem internalWeight_update {R : Graph} (hR : WellFormed R) (P : Key → Key) {v : Key}
    (hv : v ∈ UMap.keys R) {B : Key} (hB : B ≠ P v) (c : Key) :
    internalWeight R (Function.update P v B) c = internalWeight R P c +
      (if c = B then weightInto R P v c else 0) - (if c = P v then weightInto R P v c else 0) := by
  have hsum := fun S (hS : v ∉ S) => sum_sum_insert hS hR.symm (weight_self hR v)
  simp only [internalWeight, weightInto, members_update R P hv]
  split
  · subst c
    have hvm : v ∉ members R P B := by simp [members, Ne.symm hB]
    rw [hsum _ hvm, if_neg hB]; ring
  · split
    · subst c
      have hvm : v ∈ members R P (P v) := by simp [members, hv]
      rw [← Finset.insert_erase hvm, hsum _ (Finset.not_mem_erase v _), Finset.erase_insert
        (Finset.not_mem_erase v _), Finset.sum_insert (Finset.not_mem_erase v _), weight_self hR]
      ring
    · have hvm : v ∉ members R P c := by simp_all [members, eq_comm]
      rw [Finset.erase_eq_of_not_mem hvm]; ring

/-- How a move of `v` to `B` changes the degree sum of each community. -/
theorem memberDegree_update (R : Graph) (deg : Key → ℚ) (P : Key → Key) {v : Key}
    (hv : v ∈ UMap.keys R) {B : Key} (hB : B ≠ P v) (c : Key) :
    memberDegree R deg (Function.update P v B) c = memberDegree R deg P c +
      (if c = B then deg v else 0) - (if c = P v then deg v else 0) := by
  simp only [memberDegree, members_update R P hv]
  split
  · subst c
    rw [Finset.sum_insert (by simp [members, Ne.symm hB]), if_neg hB]; ring
  · split
    · subst c
      rw [← Finset.add_sum_erase _ _ (by simp [members, hv] : v ∈ members R P (P v))]; ring
    · rw [Finset.erase_eq_of_not_mem (by simp_all [members, eq_comm])]; ring

/-! ### The tally and the statistics update -/

theorem degreeInComs_apply (partition : Partition) (ns : UMap ℚ) (c : Key) :
    degreeInComs partition ns c = (ns.map fun e => if partition.get e.1 = c then e.2 else 0).sum := by
  suffices ∀ t : Key → ℚ, ns.foldl (fun t e => Function.update t (partition.get e.1)
      (t (partition.get e.1) + e.2)) t c = t c + (ns.map fun e => if partition.get e.1 = c then e.2 else 0).sum
    by simpa using this 0
  induction ns with
  | nil => simp
  | cons e ns ih =>
    intro t
    rw [List.foldl_cons, ih, List.map_cons, List.sum_cons, Function.update_apply]
    by_cases h : partition.get e.1 = c
    · simp [h, add_assoc]
    · simp [h, Ne.symm h]

/-- The tally of a row is the weight of its vertex into each community. -/
theorem degreeInComs_eq_weightInto {R : Graph} (hR : WellFormed R) {v : Key} {ns : UMap ℚ}
    (hr : (v, ns) ∈ R) (partition : Partition) (c : Key) :
    degreeInComs partition ns c = weightInto R partition.get v c := by
  have hK : ∀ e ∈ ns, e.1 ∈ (UMap.keys R).toFinset := fun e he => by
    simpa using hR.closed _ hr e he
  have hmul : (ns.map fun e => if partition.get e.1 = c then e.2 else 0) =
      ns.map fun e => (if partition.get e.1 = c then 1 else 0) * e.2 :=
    List.map_congr_left fun e _ => by split <;> simp
  have hrow := sum_row_eq ns hK fun x => if partition.get x = c then (1 : ℚ) else 0
  simp only at hrow
  rw [degreeInComs_apply, hmul, hrow, weightInto, members, Finset.sum_filter]
  refine Finset.sum_congr rfl fun x _ => ?_
  rw [weight_eq_rowWeight hR.nodup hr]; split <;> simp

theorem get_moveStatistics (S : CommunityDegrees) {A B : Key} (hAB : A ≠ B) (d kA kB : ℚ) (c : Key) :
    (moveStatistics S A B d kA kB).get c =
      if c = A then ⟨(S.get A).inDegree - kA, (S.get A).totDegree - (d - kA)⟩
      else if c = B then ⟨(S.get B).inDegree + kB, (S.get B).totDegree + (d - kB)⟩
      else S.get c := by
  by_cases hA : c = A
  · subst c; simp [moveStatistics, hAB]
  · by_cases hB : c = B
    · subst c; simp [moveStatistics, hA]
    · simp [moveStatistics, hA, hB]

/-- The statistics of `s` hold the internal weight, and the degree sum less it. -/
def StatsInv (R : Graph) (deg : Key → ℚ) (s : State) : Prop :=
  ∀ c, (s.communityDegrees.get c).inDegree = internalWeight R s.partition.get c ∧
    (s.communityDegrees.get c).totDegree =
      memberDegree R deg s.partition.get c - internalWeight R s.partition.get c

/-- `StatsInv` reads a state only through its lookups. -/
theorem StatsInv.of_get_eq {R : Graph} {deg : Key → ℚ} {s s' : State} (hs : StatsInv R deg s)
    (hP : s'.partition.get = s.partition.get) (hS : s'.communityDegrees.get = s.communityDegrees.get) :
    StatsInv R deg s' := by
  intro c; rw [hP, hS]; exact hs c

/-- A move of a vertex to any other community keeps the statistics right. -/
theorem StatsInv.move {R : Graph} (hR : WellFormed R) {deg : VertexDegrees} {s : State}
    (hs : StatsInv R deg.get s) {v : Key} {ns : UMap ℚ} (hr : (v, ns) ∈ R) {B : Key}
    (hB : B ≠ s.partition.get v) {P : Partition} {S : CommunityDegrees} (hP : P.get = s.partition.get)
    (hS : S.get = s.communityDegrees.get) :
    StatsInv R deg.get ⟨P.set v B, moveStatistics S (s.partition.get v) B (deg.get v)
      (degreeInComs P ns (s.partition.get v)) (degreeInComs P ns B)⟩ := by
  have hv : v ∈ UMap.keys R := List.mem_map_of_mem Prod.fst hr
  intro c
  dsimp only
  rw [UMap.get_set_eq_update, hP, get_moveStatistics _ (Ne.symm hB), internalWeight_update hR _ hv hB,
    memberDegree_update R _ _ hv hB, degreeInComs_eq_weightInto hR hr, degreeInComs_eq_weightInto hR hr,
    hP, hS]
  split
  · subst c; simp [hB, Ne.symm hB, (hs _).1, (hs _).2]; ring
  · split
    · subst c; simp [(hs _).1, (hs _).2]; ring
    · rename_i h1 h2; simpa [h1, h2] using hs c

/-- One step of the loop keeps the statistics right, whichever community it moves into. -/
theorem StatsInv.moveVertexTo {R : Graph} (hR : WellFormed R) {degrees : VertexDegrees} {s : State}
    (hs : StatsInv R degrees.get s) {r : Key × UMap ℚ} (hr : r ∈ R) (B : Key) :
    StatsInv R degrees.get (Louvain.moveVertexTo degrees r.1 r.2 s B).2 := by
  unfold Louvain.moveVertexTo
  dsimp only
  split
  · rename_i hB
    rw [UMap.get_touch] at hB ⊢
    exact hs.move hR hr hB (UMap.get_touch_touchAll _ _ _) (UMap.get_touch_touchAll _ _ _)
  · exact hs.of_get_eq (UMap.get_touch_touchAll _ _ _) (UMap.get_touch_touchAll _ _ _)

/-! ### Runs of the loop -/

/-- The states the local-move loops can reach from `s₀` on `R`: any vertex moved, in any
order, any number of times, into its own community or a neighbour's. The scan picks one
of these with `delta`, and on doubles it may pick another one than exact arithmetic
would; the relation leaves the choice open, so what holds along it holds for the code
whatever the rounding. `countEdges`, which only steers that choice, is not read; it
names the loop the states belong to. -/
inductive Reachable (countEdges : UInt64) (degrees : VertexDegrees) (R : Graph) (s₀ : State) :
    State → Prop
  | start : Reachable countEdges degrees R s₀ s₀
  | move {s : State} {r : Key × UMap ℚ} {B : Key} : Reachable countEdges degrees R s₀ s → r ∈ R →
      (B = s.partition.get r.1 ∨ ∃ e ∈ r.2, B = s.partition.get e.1) →
      Reachable countEdges degrees R s₀ (moveVertexTo degrees r.1 r.2 s B).2

/-- The code's step is one of them. -/
theorem Reachable.moveVertex {countEdges : UInt64} {degrees : VertexDegrees} {R : Graph} {s₀ s : State}
    (h : Reachable countEdges degrees R s₀ s) {r : Key × UMap ℚ} (hr : r ∈ R) :
    Reachable countEdges degrees R s₀ (Louvain.moveVertex countEdges degrees r.1 r.2 s).2 := by
  obtain ⟨B, hB, heq⟩ := exists_moveVertex_eq countEdges degrees r.1 r.2 s
  rw [heq]
  exact h.move hr hB

theorem Reachable.sweep {countEdges : UInt64} {degrees : VertexDegrees} {R : Graph} {s₀ s : State}
    (h : Reachable countEdges degrees R s₀ s) : Reachable countEdges degrees R s₀ (sweep countEdges degrees R s).2 := by
  suffices ∀ l, l ⊆ R → ∀ b s, Reachable countEdges degrees R s₀ s →
      Reachable countEdges degrees R s₀ (l.foldl (fun acc r =>
        let m := Louvain.moveVertex countEdges degrees r.1 r.2 acc.2; (acc.1 || m.1, m.2)) (b, s)).2 from
    this R (List.Subset.refl R) false s h
  intro l
  induction l with
  | nil => exact fun _ _ _ h => h
  | cons r l ih =>
    intro hl b s h
    exact ih (fun x hx => hl (List.mem_cons_of_mem _ hx)) _ _ (h.moveVertex (hl (List.mem_cons_self _ _)))

/-- Every state the `while (modified)` loop ends in is reachable. -/
theorem Reachable.localMove {countEdges : UInt64} {degrees : VertexDegrees} {R : Graph} {s₀ : State}
    {fuel : ℕ} {improvement b : Bool} {s s' : State} (h : Reachable countEdges degrees R s₀ s)
    (hl : Louvain.localMove countEdges degrees R fuel improvement s = some (b, s')) :
    Reachable countEdges degrees R s₀ s' := by
  induction fuel generalizing improvement s with
  | zero => cases hl
  | succ fuel ih =>
    simp only [Louvain.localMove] at hl
    split at hl
    · exact ih h.sweep hl
    · cases hl; exact h.sweep

/-- The statistics stay right along every run. -/
theorem StatsInv.reachable {R : Graph} (hR : WellFormed R) {countEdges : UInt64} {degrees : VertexDegrees}
    {s₀ s : State} (h₀ : StatsInv R degrees.get s₀) (h : Reachable countEdges degrees R s₀ s) :
    StatsInv R degrees.get s := by
  induction h with
  | start => exact h₀
  | @move _ _ B _ hr _ ih => exact ih.moveVertexTo hR hr B

/-! ### The start of a level -/

/-- Each vertex's degree is the sum of its row's weights (line 56 of the store's
contract for level `0`, lines 243-247 above it). -/
def DegreesOf (R : Graph) (deg : Key → ℚ) : Prop := ∀ v ∈ UMap.keys R, deg v = mass (R.get v)

theorem weight_nonneg {R : Graph} (hR : WellFormed R) (u x : Key) : 0 ≤ weight R u x :=
  List.sum_nonneg fun q hq => by
    obtain ⟨r, hr, rfl⟩ := List.mem_map.1 hq
    split
    · exact List.sum_nonneg fun t ht => by
        obtain ⟨e, he, rfl⟩ := List.mem_map.1 ht
        split
        · exact (hR.pos r hr e he).le
        · exact le_rfl
    · exact le_rfl

/-- In a well-formed graph a vertex's row sums to its weights to every vertex. -/
theorem mass_get_eq_sum {R : Graph} (hR : WellFormed R) {v : Key} (hv : v ∈ UMap.keys R) :
    mass (R.get v) = ∑ x ∈ (UMap.keys R).toFinset, weight R v x := by
  have hmem : (v, R.get v) ∈ R := UMap.mem_of_find? (UMap.find?_eq_some_get hv)
  have hrow := sum_row_eq (R.get v) (fun e he => List.mem_toFinset.2 (hR.closed _ hmem e he)) fun _ => 1
  simp only [one_mul] at hrow
  exact hrow.trans (Finset.sum_congr rfl fun x _ => (weight_eq_rowWeight hR.nodup hmem x).symm)

theorem internalWeight_nonneg {R : Graph} (hR : WellFormed R) (P : Key → Key) (c : Key) :
    0 ≤ internalWeight R P c :=
  div_nonneg (Finset.sum_nonneg fun u _ => Finset.sum_nonneg fun x _ => weight_nonneg hR u x) zero_le_two

/-- A community's degree sum less twice its internal weight is the weight of the edges
leaving it. -/
theorem memberDegree_sub_internalWeight {R : Graph} (hR : WellFormed R) {deg : Key → ℚ}
    (hdeg : DegreesOf R deg) (P : Key → Key) (c : Key) :
    memberDegree R deg P c - 2 * internalWeight R P c =
      ∑ u ∈ members R P c, ∑ x ∈ (UMap.keys R).toFinset \ members R P c, weight R u x := by
  have hsub : members R P c ⊆ (UMap.keys R).toFinset := Finset.filter_subset _ _
  have h2 : 2 * internalWeight R P c = ∑ u ∈ members R P c, ∑ x ∈ members R P c, weight R u x := by
    rw [internalWeight]; ring
  rw [h2, memberDegree, ← Finset.sum_sub_distrib]
  refine Finset.sum_congr rfl fun u hu => ?_
  have hu : u ∈ UMap.keys R := List.mem_toFinset.1 (hsub hu)
  rw [hdeg u hu, mass_get_eq_sum hR hu, ← Finset.sum_sdiff hsub, add_sub_cancel_right]

/-- Every vertex its own community, with statistics `{0, degree}`: the statistics are right. -/
theorem StatsInv.singletons {R : Graph} (hR : WellFormed R) {deg : Key → ℚ} {s : State}
    (hP : ∀ k, s.partition.get k = if k ∈ UMap.keys R then k else 0)
    (hS : ∀ k, s.communityDegrees.get k = if k ∈ UMap.keys R then ⟨0, deg k⟩ else default) :
    StatsInv R deg s := by
  have hM : ∀ c, members R s.partition.get c = (UMap.keys R).toFinset.filter (· = c) := fun c =>
    Finset.filter_congr fun x hx => by rw [hP x, if_pos (List.mem_toFinset.1 hx)]
  intro c
  rw [internalWeight, memberDegree, hM, Finset.filter_eq', hS]
  by_cases hc : c ∈ UMap.keys R
  · simp [hc, weight_self hR]
  · simp [hc]

/-- The graph, vertex degrees and state a level's local-move loop starts from: the store
graph with the initialisation of lines 209-228, or the graph induced from a level's
graph under any partition with the initialisation of lines 236-253. -/
inductive LevelStart : Graph → VertexDegrees → State → Prop
  /-- Level `0`. -/
  | store {G : Store} : G.Undirected → G.DegreesExact →
      LevelStart G.rows (initialState G).1 (initialState G).2
  /-- The next level. -/
  | next {R g : Graph} {degrees : VertexDegrees} {s : State} {partition : Partition} :
      LevelStart R degrees s → induceCommunityGraph R partition = some g →
      LevelStart g (levelInit g).degrees (levelInit g).state

/-- Every level starts on a well-formed graph, with exact degrees and right statistics. -/
theorem LevelStart.start {R : Graph} {degrees : VertexDegrees} {s : State} (h : LevelStart R degrees s) :
    WellFormed R ∧ DegreesOf R degrees.get ∧ StatsInv R degrees.get s := by
  induction h with
  | @store G hG hdeg =>
    have hR := hG.wellFormed
    have hk := G.keys_rows
    have hdeg' : DegreesOf G.rows (initialState G).1.get := fun v hv => by
      rw [hk] at hv
      rw [(get_initialState G v).1, if_pos hv, hdeg v hv, Store.get_rows hG.nodup hv]
      simp [mass, Function.comp_def]
    refine ⟨hR, hdeg', StatsInv.singletons hR (fun k => by rw [hk, (get_initialState G k).2.1]) fun k => ?_⟩
    rw [hk, (get_initialState G k).2.2, (get_initialState G k).1]
    split <;> simp [*]
  | next _ hg ih =>
    have hR := ih.1.induceCommunityGraph hg
    have hI := get_levelInit hR.nodup
    refine ⟨hR, fun v hv => by rw [(hI v).1, if_pos hv], StatsInv.singletons hR (fun k => (hI k).2.1) fun k => ?_⟩
    rw [(hI k).2.2, (hI k).1]
    split <;> simp [*]

/-- At the start of every level each vertex is its own community. -/
theorem LevelStart.get_partition {R : Graph} {degrees : VertexDegrees} {s : State} (h : LevelStart R degrees s)
    (k : Key) : s.partition.get k = if k ∈ UMap.keys R then k else 0 := by
  cases h with
  | @store G _ _ => rw [(get_initialState G k).2.1, G.keys_rows]
  | next h₀ hg => exact (get_levelInit (h₀.start.1.induceCommunityGraph hg).nodup k).2.1

/-! ### What the statistics hold -/

/-- **The statistics of every reachable state.** From the start of any level, after any
moves, `in_degree` is the weight of the edges inside the community, each counted once,
and `tot_degree` is the sum of the members' degrees less that weight. -/
theorem inDegree_eq_internalWeight {R : Graph} {degrees : VertexDegrees} {s₀ s : State}
    {countEdges : UInt64} (h₀ : LevelStart R degrees s₀) (h : Reachable countEdges degrees R s₀ s)
    (c : Key) :
    (s.communityDegrees.get c).inDegree = internalWeight R s.partition.get c ∧
      (s.communityDegrees.get c).totDegree =
        memberDegree R degrees.get s.partition.get c - internalWeight R s.partition.get c :=
  h₀.start.2.2.reachable h₀.start.1 h c

attribute [local semireducible] Rat.add Rat.mul Rat.inv Rat.sub

theorem oneEdge_undirected : oneEdge.Undirected ∧ oneEdge.DegreesExact :=
  ⟨⟨by decide, by decide, by decide, by decide⟩, by unfold Store.DegreesExact; decide⟩

/-- On the edge `1 - 2`, `first_phase` moves `1` into the community of `2`. -/
theorem firstPhase_oneEdge :
    firstPhase 3 oneEdge (initialState oneEdge).2.partition (initialState oneEdge).1
        (initialState oneEdge).2.communityDegrees oneEdge.numberOfEdges =
      some (true, ⟨[(1, 2), (2, 2)], [(1, ⟨0, 0⟩), (2, ⟨1, 1⟩)]⟩) := by
  decide

theorem oneEdge_statistics_after_firstPhase :
    ∃ s, firstPhase 3 oneEdge (initialState oneEdge).2.partition (initialState oneEdge).1
        (initialState oneEdge).2.communityDegrees oneEdge.numberOfEdges = some (true, s) ∧
      (s.communityDegrees.get 2).inDegree = internalWeight oneEdge.rows s.partition.get 2 ∧
      (s.communityDegrees.get 2).totDegree =
        memberDegree oneEdge.rows (initialState oneEdge).1.get s.partition.get 2 -
          internalWeight oneEdge.rows s.partition.get 2 :=
  ⟨_, firstPhase_oneEdge, inDegree_eq_internalWeight
    (.store oneEdge_undirected.1 oneEdge_undirected.2) (.localMove .start firstPhase_oneEdge) 2⟩

/-- After that move the community `2` holds `{1, 1}`, where the sum of its members'
degrees and twice the weight inside it are both `2`. -/
theorem oneEdge_totDegree_ne_memberDegree :
    firstPhase 3 oneEdge (initialState oneEdge).2.partition (initialState oneEdge).1
        (initialState oneEdge).2.communityDegrees oneEdge.numberOfEdges =
      some (true, ⟨[(1, 2), (2, 2)], [(1, ⟨0, 0⟩), (2, ⟨1, 1⟩)]⟩) ∧
    memberDegree oneEdge.rows (initialState oneEdge).1.get (UMap.get [(1, 2), (2, 2)]) 2 = 2 ∧
    2 * internalWeight oneEdge.rows (UMap.get [(1, 2), (2, 2)]) 2 = 2 :=
  ⟨firstPhase_oneEdge, by decide, by decide⟩

/-- **`0 ≤ in_degree ≤ tot_degree`** in every reachable state: `tot - in` is the weight of
the edges leaving the community. -/
theorem inDegree_le_totDegree {R : Graph} {degrees : VertexDegrees} {s₀ s : State}
    {countEdges : UInt64} (h₀ : LevelStart R degrees s₀) (h : Reachable countEdges degrees R s₀ s)
    (c : Key) :
    0 ≤ (s.communityDegrees.get c).inDegree ∧
      (s.communityDegrees.get c).inDegree ≤ (s.communityDegrees.get c).totDegree := by
  obtain ⟨hR, hdeg, hs₀⟩ := h₀.start
  obtain ⟨hin, htot⟩ := hs₀.reachable hR h c
  have hcut := memberDegree_sub_internalWeight hR hdeg s.partition.get c
  have hleave : 0 ≤ ∑ u ∈ members R s.partition.get c,
      ∑ x ∈ (UMap.keys R).toFinset \ members R s.partition.get c, weight R u x :=
    Finset.sum_nonneg fun u _ => Finset.sum_nonneg fun x _ => weight_nonneg hR u x
  rw [hin, htot]
  exact ⟨internalWeight_nonneg hR _ c, by linarith⟩

theorem oneEdge_inDegree_le_totDegree :
    ∃ s, firstPhase 3 oneEdge (initialState oneEdge).2.partition (initialState oneEdge).1
        (initialState oneEdge).2.communityDegrees oneEdge.numberOfEdges = some (true, s) ∧
      0 ≤ (s.communityDegrees.get 2).inDegree ∧
      (s.communityDegrees.get 2).inDegree ≤ (s.communityDegrees.get 2).totDegree :=
  ⟨_, firstPhase_oneEdge, inDegree_le_totDegree
    (.store oneEdge_undirected.1 oneEdge_undirected.2) (.localMove .start firstPhase_oneEdge) 2⟩

end UStore.Louvain
