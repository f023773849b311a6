import UStore.Louvain.BestPartition
import UStore.Louvain.Rounding

/-!
# The level graphs are quotients of the store graph

Each round of `best_partition` replaces its graph with the graph `induce_community_graph`
builds from it and the round's partition (lines 232 and 260): a vertex for each
community, and between two communities the weight of the entries between their members.
Inducing twice is inducing once by the composed partition: the entries between two
communities of communities are those between members of their members, and the entries
inside one community, which the first induction drops, join no two distinct communities
of communities. So every graph of the loop is the store graph read through the
composition of the partitions so far, the composition the flattening returns
(`flatten_eq_composeLevels`): between two distinct vertices, its weight counts the
store's edges between the vertices they stand for.

The code sums on doubles. Each level's weights are whole and weigh together at most the
level before, so from whole weights below `2^53` in all, every level is built exactly
(`induceCommunityGraphDouble_eq`).

## What is proved

* `bestPartitionDouble_eq`: on a store of fewer than `2^53` neighbour-list entries,
  `best_partition` adding its weights in doubles returns what it returns adding them
  exactly.
* `induceLevels_interWeight`: from whole positive weights summing to less than `2^53`,
  after inducing on doubles by the partitions `P₀, …, Pₖ` in turn, the weight between two
  distinct vertices `A` and `B` is the weight, in the first graph, of the entries from a
  vertex whose composed community is `A` to one whose composed community is `B`.
-/

namespace UStore.Louvain

open Finset

/-- The graphs of the level loop: the graph, then each graph induced on doubles from the
one before by the next partition (lines 232 and 260). -/
def induceLevels : Graph → List Partition → Option Graph
  | R, [] => some R
  | R, P :: Ps => (induceCommunityGraphDouble R P).bind fun g => induceLevels g Ps

/-- A vertex's community at the last of the partitions `Ps`, finest first. -/
def composePartitions (Ps : List Partition) (v : Key) : Key := Ps.foldl (fun c P => P.get c) v

/-! ### Inducing twice -/

/-- Summing the indicator of two communities over every pair of communities keeps the
pair of `u` and `x`. -/
theorem sum_sum_indicator {S : Finset Key} {P Q : Key → Key} {u x : Key} (hu : P u ∈ S) (hx : P x ∈ S)
    (A B : Key) :
    ∑ C ∈ S, ∑ D ∈ S, (if Q C = A ∧ Q D = B then (1 : ℚ) else 0) * (if P u = C ∧ P x = D then 1 else 0) =
      if Q (P u) = A ∧ Q (P x) = B then 1 else 0 := by
  simp [ite_and, Finset.sum_ite_eq, hu, hx]

/-- Between two distinct communities of communities, the graph induced from an induced
graph weighs what the first graph weighs between members of their members. -/
theorem interWeight_induceRows (P Q : Key → Key) (R : Graph) {A B : Key} (hAB : A ≠ B) :
    interWeight (induceRows P R []) Q A B = interWeight R (fun v => Q (P v)) A B := by
  have hb : Built (induceRows P R []) := Built.nil.induceRows P R
  set K := mentioned R
  set S := mentioned (induceRows P R []) ∪ K.image P
  have hS : ∀ r ∈ induceRows P R [], r.1 ∈ S ∧ ∀ e ∈ r.2, e.1 ∈ S := fun r hr =>
    ⟨mem_union_left _ (mem_mentioned _ r hr).1, fun e he => mem_union_left _ ((mem_mentioned _ r hr).2 e he)⟩
  have hK : ∀ u ∈ K, P u ∈ S := fun u hu => mem_union_right _ (mem_image_of_mem P hu)
  -- an edge of the induced graph joins two communities, and weighs what joins their members
  have hw : ∀ C D, (if Q C = A ∧ Q D = B then (1 : ℚ) else 0) * weight (induceRows P R []) C D =
      (if Q C = A ∧ Q D = B then 1 else 0) * interWeight R P C D := by
    intro C D
    by_cases hCD : C = D
    · subst hCD; rw [if_neg fun h => hAB (h.1.symm.trans h.2), zero_mul, zero_mul]
    · rw [hb.weight_eq, (induced_induceRows P R).get_get C D hCD]
  calc interWeight (induceRows P R []) Q A B
      = ∑ C ∈ S, ∑ D ∈ S, (if Q C = A ∧ Q D = B then 1 else 0) * weight (induceRows P R []) C D :=
        interWeight_eq _ Q hS A B
    _ = ∑ C ∈ S, ∑ D ∈ S, ∑ u ∈ K, ∑ x ∈ K, (if Q C = A ∧ Q D = B then 1 else 0) *
          (if P u = C ∧ P x = D then 1 else 0) * weight R u x := by
        simp only [hw, interWeight_eq R P (mem_mentioned R), mul_sum, mul_assoc]
    _ = ∑ u ∈ K, ∑ x ∈ K, ∑ C ∈ S, ∑ D ∈ S, (if Q C = A ∧ Q D = B then 1 else 0) *
          (if P u = C ∧ P x = D then 1 else 0) * weight R u x :=
        (sum_congr rfl fun C _ => sum_comm.trans (sum_congr rfl fun u _ => sum_comm)).trans
          (sum_comm.trans (sum_congr rfl fun u _ => sum_comm))
    _ = ∑ u ∈ K, ∑ x ∈ K, (if Q (P u) = A ∧ Q (P x) = B then 1 else 0) * weight R u x := by
        refine sum_congr rfl fun u hu => sum_congr rfl fun x hx => ?_
        rw [← sum_sum_indicator (hK u hu) (hK x hx), sum_mul]
        exact sum_congr rfl fun C _ => (sum_mul _ _ _).symm
    _ = interWeight R (fun v => Q (P v)) A B := (interWeight_eq R _ (mem_mentioned R) A B).symm

/-! ### Every level -/

/-- An induced graph weighs at most its input, whose weights are not negative. -/
theorem totalWeight_induceRows_le (P : Key → Key) {R : Graph} (hR : ∀ r ∈ R, ∀ e ∈ r.2, 0 ≤ e.2) :
    totalWeight (induceRows P R []) ≤ totalWeight R := by
  rw [(induced_induceRows P R).total]
  refine List.sum_le_sum fun r hr => List.sum_le_sum fun e he => ?_
  split
  · exact le_rfl
  · exact hR r hr e he

/-- One level keeps whole positive weights below `2^53`: the graph induced on doubles is
the exact one, its weights are whole and positive, and it weighs at most its input. -/
theorem induceCommunityGraphDouble_level {R g : Graph} {P : Partition}
    (hR : ∀ r ∈ R, ∀ e ∈ r.2, ∃ n : ℕ, 0 < n ∧ e.2 = n) (htot : totalWeight R < 2 ^ 53)
    (h : induceCommunityGraphDouble R P = some g) :
    g = induceRows P.get R [] ∧ (∀ r ∈ g, ∀ e ∈ r.2, ∃ n : ℕ, 0 < n ∧ e.2 = n) ∧ totalWeight g < 2 ^ 53 := by
  rw [induceCommunityGraphDouble_eq (.of_pos hR) htot] at h
  obtain rfl := induceCommunityGraph_eq_of_eq_some h
  refine ⟨rfl, fun r hr => ((PosNat.induceRows (fun _ h => by cases h) P.get hR) r hr).2,
    (totalWeight_induceRows_le P.get fun r hr e he => ?_).trans_lt htot⟩
  obtain ⟨n, _, hn⟩ := hR r hr e he
  exact hn ▸ Nat.cast_nonneg n

/-- **Every level graph is the first graph read through the composed partition.** From
whole positive weights summing to less than `2^53`, after inducing on doubles by
`P₀, …, Pₖ` in turn, the weight between two distinct vertices `A` and `B` is the weight
of the entries of the first graph from a vertex whose community, through `P₀, …, Pₖ`,
is `A` to one whose community is `B`. -/
theorem induceLevels_interWeight {R g : Graph} {P : Partition} {Ps : List Partition}
    (hR : ∀ r ∈ R, ∀ e ∈ r.2, ∃ n : ℕ, 0 < n ∧ e.2 = n) (htot : totalWeight R < 2 ^ 53)
    (h : induceLevels R (P :: Ps) = some g) {A B : Key} (hAB : A ≠ B) :
    (g.get A).get B = interWeight R (composePartitions (P :: Ps)) A B := by
  induction Ps generalizing R P with
  | nil =>
    obtain ⟨g₁, hg₁, h⟩ := Option.bind_eq_some.1 h
    cases h
    rw [(induceCommunityGraphDouble_level hR htot hg₁).1]
    exact (induced_induceRows P.get R).get_get A B hAB
  | cons P' Ps ih =>
    obtain ⟨g₁, hg₁, h⟩ := Option.bind_eq_some.1 h
    obtain ⟨rfl, hpos, htot₁⟩ := induceCommunityGraphDouble_level hR htot hg₁
    rw [ih hpos htot₁ h, interWeight_induceRows _ _ _ hAB]
    rfl

attribute [local semireducible] Rat.add Rat.mul Rat.inv Rat.sub

set_option exponentiation.threshold 1100 in
set_option maxRecDepth 4000 in
/-- On the path `2 - 1 - 3`, two levels, each vertex its own community, then `2` in `1`'s:
the last graph joins `1` and `3` with the one edge from `{1, 2}` to `{3}`. -/
theorem path_induceLevels :
    totalWeight path.rows < 2 ^ 53 ∧
      induceLevels path.rows [[(1, 1), (2, 2), (3, 3)], [(1, 1), (2, 1), (3, 3)]] =
        some [(1, [(3, 1)]), (3, [(1, 1)])] ∧
      UMap.get (UMap.get [(1, [(3, 1)]), (3, [(1, 1)])] 1) 3 =
        interWeight path.rows (composePartitions [[(1, 1), (2, 2), (3, 3)], [(1, 1), (2, 1), (3, 3)]]) 1 3 := by
  have htot : totalWeight path.rows < 2 ^ 53 := by decide
  have h : induceLevels path.rows [[(1, 1), (2, 2), (3, 3)], [(1, 1), (2, 1), (3, 3)]] =
      some [(1, [(3, 1)]), (3, [(1, 1)])] := by decide
  exact ⟨htot, h, induceLevels_interWeight (posWeights_rows path) htot h (by decide)⟩

/-! ### `best_partition` on doubles -/

/-- `best_partition` with the inducers adding in doubles (lines 180 and 196), as the code
does. -/
def bestPartitionDouble (fuel : ℕ) (minModularityGrowth : ℚ) (graph : Store) : Option Partition :=
  bestPartitionWith induceCommunityGraphDouble fuel minModularityGrowth graph

/-- From whole positive weights summing to less than `2^53`, the level loop on doubles
builds every level as the exact one does. -/
theorem levelsWith_double_eq {fuel : ℕ} {minModularityGrowth : ℚ} {rounds : ℕ} {graph : Graph}
    (hR : ∀ r ∈ graph, ∀ e ∈ r.2, ∃ n : ℕ, 0 < n ∧ e.2 = n) (htot : totalWeight graph < 2 ^ 53)
    (mod : ℚ) (ps : List Partition) :
    levelsWith induceCommunityGraphDouble fuel minModularityGrowth rounds graph mod ps =
      levels fuel minModularityGrowth rounds graph mod ps := by
  induction rounds generalizing graph mod ps with
  | zero => rfl
  | succ rounds ih =>
    have heq := induceCommunityGraphDouble_eq (.of_pos hR) htot
    simp only [levels, levelsWith, Option.bind_eq_bind]
    refine Option.bind_congr fun ⟨improvement, s⟩ _ => Option.bind_congr fun _ _ =>
      Option.bind_congr fun newMod _ => ?_
    dsimp only
    split
    · rfl
    · rw [heq]
      refine Option.bind_congr fun g hg => ?_
      obtain ⟨-, hpos, htot'⟩ := induceCommunityGraphDouble_level hR htot ((heq _).trans hg)
      split
      · exact ih hpos htot' _ _
      · rfl

/-- **The inducer's doubles are exact in `best_partition`.** On a store with fewer than
`2^53` neighbour-list entries, every weight `best_partition` adds up in
`induce_community_graph` is a whole number below `2^53`, at every level, so the code,
adding in doubles, returns what `bestPartition`, adding exactly, returns. -/
theorem bestPartitionDouble_eq (fuel : ℕ) (minModularityGrowth : ℚ) {G : Store}
    (hG : (G.stream.map fun v => (G.neighbors v).length).sum < 2 ^ 53) :
    bestPartitionDouble fuel minModularityGrowth G = bestPartition fuel minModularityGrowth G := by
  have htot : totalWeight G.rows < 2 ^ 53 := by rw [totalWeight_rows]; exact_mod_cast hG
  have heq := induceCommunityGraphDouble_eq (natWeights_rows G) htot
  simp only [bestPartitionDouble, bestPartition, bestPartitionWith, Option.bind_eq_bind]
  refine Option.bind_congr fun _ _ => Option.bind_congr fun _ _ => ?_
  rw [heq]
  refine Option.bind_congr fun g hg => ?_
  obtain ⟨-, hpos, htot'⟩ := induceCommunityGraphDouble_level (posWeights_rows G) htot ((heq _).trans hg)
  split
  · rw [levelsWith_double_eq hpos htot']
    rfl
  · rfl

/-- On the two disjoint edges, fewer than `2^53` entries, `best_partition` on doubles
returns what the exact model returns. -/
theorem twoEdges_bestPartitionDouble :
    (twoEdges.stream.map fun v => (twoEdges.neighbors v).length).sum < 2 ^ 53 ∧
      bestPartitionDouble 3 0 twoEdges = bestPartition 3 0 twoEdges :=
  ⟨by decide, bestPartitionDouble_eq 3 0 (by decide)⟩

end UStore.Louvain
