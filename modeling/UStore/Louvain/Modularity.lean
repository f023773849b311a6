import UStore.Louvain.Statistics

/-!
# Modularity

`modularity` (lines 155-164) scores a partition from the community statistics: for
each entry `(v, c)` of the partition it adds `(tot[c] - in[c]) / m - deg_sum² / m²`,
with `m = deg_sum / 2`, looking `c` up with `at`. `best_partition` compares these
values from one level to the next.

The loop runs over the partition's entries, one per vertex, so the term of a community
is added once per member, not once per community as §4.4 of the design has it.

Beside it, `newmanModularity` is the modularity of the design's glossary in its own
words, `Q(P) = Σ_c [W_in(c)/m - (D(c)/2m)²]`: the gain `delta` of the local-move loops
is meant to be the change of `Q` a move makes. Once a community holds an internal edge,
its `tot_degree` is no longer `D(c)` (`Statistics.lean`), and the two part.

`at` throws `std::out_of_range` inside a `noexcept` function, which ends the program:
`modularity` answers `none` then. Doubles are read as rationals, each operation exact.
For `deg_sum = 0` the code's `1 / (m * m)` is infinite and every term NaN, which the
rationals, where `x / 0 = 0`, do not model: there each term is `0`.

## What is proved

* `modularity_counts_members`: on two vertices of one community the value is `-4`,
  where the sum over communities is `-2`.
* `delta_path_ne_newman_gain`: on the path `2 - 1 - 3`, once `1` has joined `2`, the
  loop computes the gain `1/4` for moving `3` into that community, while `Q` grows by
  `1/8`.
-/

namespace UStore.Louvain

open scoped BigOperators

/-- `modularity` (lines 155-164). -/
def modularity (partition : Partition) (communityDegrees : CommunityDegrees) (degSum : ℚ) :
    Option ℚ :=
  let m := degSum / 2
  let norm := 1 / (m * m)
  partition.foldlM (fun res e => do
    let communityDegree ← communityDegrees.find? e.2
    pure (res + ((communityDegree.totDegree - communityDegree.inDegree) / m -
      degSum * degSum * norm))) 0

/-- The term `modularity` adds for an entry of community `c`. -/
def modularityTerm (communityDegrees : CommunityDegrees) (degSum : ℚ) (c : Key) : ℚ :=
  ((communityDegrees.get c).totDegree - (communityDegrees.get c).inDegree) / (degSum / 2) -
    degSum * degSum * (1 / (degSum / 2 * (degSum / 2)))

/-- When every community has statistics, `modularity` adds the term of each entry. -/
theorem modularity_eq_sum (partition : Partition) (S : CommunityDegrees) (degSum : ℚ)
    (hS : ∀ e ∈ partition, e.2 ∈ S.keys) :
    modularity partition S degSum = some (partition.map fun e => modularityTerm S degSum e.2).sum := by
  suffices ∀ res, partition.foldlM (fun res e => do
      let communityDegree ← S.find? e.2
      pure (res + ((communityDegree.totDegree - communityDegree.inDegree) / (degSum / 2) -
        degSum * degSum * (1 / (degSum / 2 * (degSum / 2)))))) res =
      some (res + (partition.map fun e => modularityTerm S degSum e.2).sum) by
    rw [← zero_add (List.sum _)]; exact this 0
  induction partition with
  | nil => simp
  | cons e partition ih =>
    intro res
    have he := UMap.find?_eq_some_get (hS e (List.mem_cons_self _ _))
    rw [List.foldlM_cons]
    simp only [he, Option.bind_eq_bind, Option.pure_def, Option.some_bind] at ih ⊢
    rw [ih fun e' h => hS e' (List.mem_cons_of_mem _ h)]
    simp only [List.map_cons, List.sum_cons, modularityTerm, add_assoc]

attribute [local semireducible] Rat.add Rat.mul Rat.inv Rat.sub

/-- Two vertices in one community with statistics `{0, 2}` and `deg_sum = 2`: the
community's term `(2 - 0) / 1 - 4 = -2` is added once per member. -/
theorem modularity_counts_members :
    modularity [(1, 1), (2, 1)] [(1, ⟨0, 2⟩)] 2 = some (-4) ∧
      ((2 - 0) / (2 / 2) - 2 ^ 2 / (2 / 2) ^ 2 : ℚ) = -2 :=
  ⟨by decide, by norm_num⟩

/-! ### The gain of a move -/

/-- Newman's modularity, in the words of the design: over the communities `c` of `P`,
`W_in(c) / m - (D(c) / 2m)²`, with `W_in` the weight inside `c`, `D` the sum of the
members' degrees and `m` the total weight of the edges. -/
def newmanModularity (R : Graph) (deg : Key → ℚ) (P : Key → Key) : ℚ :=
  let m := (∑ v ∈ (UMap.keys R).toFinset, deg v) / 2
  ∑ c ∈ (UMap.keys R).toFinset.image P,
    (internalWeight R P c / m - (memberDegree R deg P c / (2 * m)) ^ 2)

/-- The store graph of the path `2 - 1 - 3`. -/
def path : Store where
  batches := [[1, 2, 3]]
  neighbors v := if v = 1 then [2, 3] else if v = 2 ∨ v = 3 then [1] else []
  degree v := if v = 1 then 2 else if v = 2 ∨ v = 3 then 1 else 0
  numberOfEdges := 2

/-- On the path `2 - 1 - 3`, the first move puts `1` into `2`'s community, with
statistics `{1, 2}`. Scanning `3` next, the loop's gain for joining that community is
`1/4`; Newman's modularity grows by `1/8`. -/
theorem delta_path_ne_newman_gain :
    (moveVertex path.numberOfEdges (initialState path).1 1 [(2, 1), (3, 1)] (initialState path).2) =
      (true, ⟨[(1, 2), (2, 2), (3, 3)], [(1, ⟨0, 0⟩), (2, ⟨1, 2⟩), (3, ⟨0, 1⟩)]⟩) ∧
    delta path.numberOfEdges 1 (degreeInComs [(1, 2), (2, 2), (3, 3)] [(1, 1)] 2)
      (degreeInComs [(1, 2), (2, 2), (3, 3)] [(1, 1)] 3) 2 1 = 1 / 4 ∧
    newmanModularity path.rows (initialState path).1.get
        (Function.update (UMap.get [(1, 2), (2, 2), (3, 3)]) 3 2) -
      newmanModularity path.rows (initialState path).1.get (UMap.get [(1, 2), (2, 2), (3, 3)]) =
        1 / 8 := by
  decide

end UStore.Louvain
