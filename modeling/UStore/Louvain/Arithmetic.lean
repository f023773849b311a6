import UStore.Louvain.Induce
import Mathlib.Algebra.Order.BigOperators.Group.List

/-!
# Machine arithmetic in the Louvain code

Two integers of the Louvain code are machine words. The `delta` of lines 69-71 and
129-131 divides by `2.0 * (count_edges * count_edges)`, a `size_t` product taken modulo
`2^64` before it becomes a `double`. And `best_partition` adds each vertex's `double`
degree into the `int` `degree_sum` (lines 242-250), a conversion that is undefined once
the sum leaves the range of `int` (`levelInit` answers `none` then).

`deltaExact` is the gain of lines 69-71 with exact arithmetic, the quantity the code
means to compute.

## What is proved

* `delta_degreeSum_exact_iff`: `delta` is the exact gain on every input exactly when
  `count_edges < 2^32`; at `2^32` the product is `0`. On a well-formed level graph,
  `degree_sum` is the exact sum of the degrees exactly when that sum is below `2^31`,
  and undefined otherwise.
-/

namespace UStore.Louvain

/-- The gain of lines 69-71 with exact arithmetic: `count_edges²` not reduced modulo
`2^64`. -/
def deltaExact (countEdges : ℕ) (vertexDegree vertexInNeighborComDegree vertexInVertexComDegree
    neighborComTotDegree vertexComTotDegree : ℚ) : ℚ :=
  1 / (countEdges : ℚ) * (vertexInNeighborComDegree - vertexInVertexComDegree) -
    vertexDegree / (2 * ((countEdges : ℚ) * countEdges)) *
      (vertexDegree + neighborComTotDegree - vertexComTotDegree)

/-! ### `count_edges * count_edges` -/

/-- The `size_t` square is exact exactly below `2^32`. -/
theorem toNat_mul_self_eq_iff (c : UInt64) : (c * c).toNat = c.toNat * c.toNat ↔ c.toNat < 2 ^ 32 := by
  have hmul : (c * c).toNat = c.toNat * c.toNat % 2 ^ 64 := by
    rw [UInt64.mul_def]; simp [UInt64.toNat, BitVec.toNat_mul]
  rw [hmul, Nat.mod_eq_iff_lt (by norm_num), show (2 : ℕ) ^ 64 = 2 ^ 32 * 2 ^ 32 by norm_num,
    Nat.mul_self_lt_mul_self_iff]

theorem delta_eq_deltaExact_iff (countEdges : UInt64) :
    (∀ d a b t t', delta countEdges d a b t t' = deltaExact countEdges.toNat d a b t t') ↔
      countEdges.toNat < 2 ^ 32 := by
  rw [← toNat_mul_self_eq_iff]
  constructor
  · intro h
    have h1 := h 1 0 0 0 0
    simp only [delta, deltaExact, sub_self, mul_zero, add_zero, sub_zero, mul_one, zero_sub, neg_inj,
      one_div, inv_inj] at h1
    exact_mod_cast mul_left_cancel₀ two_ne_zero h1
  · intro h d a b t t'
    simp only [delta, deltaExact, h, Nat.cast_mul]

/-! ### `degree_sum` -/

/-- `static_cast<int>` of an integer-valued `double`: the integer, when it fits. -/
theorem toInt_intCast (n : ℤ) : toInt n = if -2 ^ 31 ≤ n ∧ n < 2 ^ 31 then some n else none := by
  simp [toInt]

theorem exists_nat_mass {ns : UMap ℚ} (h : ∀ e ∈ ns, ∃ n : ℕ, e.2 = n) : ∃ n : ℕ, mass ns = n := by
  induction ns with
  | nil => exact ⟨0, rfl⟩
  | cons e ns ih =>
    obtain ⟨a, ha⟩ := h e (List.mem_cons_self _ _)
    obtain ⟨b, hb⟩ := ih fun e' he' => h e' (List.mem_cons_of_mem _ he')
    exact ⟨a + b, by simp only [mass, List.map_cons, List.sum_cons] at hb ⊢; rw [ha, hb]; push_cast; rfl⟩

theorem foldl_bind_none (L : Graph) :
    L.foldl (fun o r => o.bind fun ds => toInt (ds + mass r.2)) none = none := by
  induction L with
  | nil => rfl
  | cons r L ih => exact ih

/-- The additions of lines 242-250, from a partial sum `s` that fits an `int`. -/
theorem foldl_degreeSum (L : Graph) (hL : ∀ r ∈ L, ∃ n : ℕ, mass r.2 = n) (s : ℤ) (hs : 0 ≤ s)
    (hs' : s < 2 ^ 31) :
    (L.foldl (fun o r => o.bind fun ds => toInt (ds + mass r.2)) (some s)).map (fun d : ℤ => (d : ℚ)) =
      if (s : ℚ) + totalWeight L < 2 ^ 31 then some ((s : ℚ) + totalWeight L) else none := by
  induction L generalizing s with
  | nil => simp [totalWeight, show (s : ℚ) < 2 ^ 31 by exact_mod_cast hs']
  | cons r L ih =>
    obtain ⟨n, hn⟩ := hL r (List.mem_cons_self _ _)
    have hL' : ∀ r ∈ L, ∃ n : ℕ, mass r.2 = n := fun r' hr' => hL r' (List.mem_cons_of_mem _ hr')
    have hrest : 0 ≤ totalWeight L := List.sum_nonneg fun q hq => by
      obtain ⟨r', hr', rfl⟩ := List.mem_map.1 hq
      obtain ⟨m, hm⟩ := hL' r' hr'
      rw [hm]; exact Nat.cast_nonneg m
    have hsum : totalWeight (r :: L) = n + totalWeight L := by
      simp only [totalWeight, List.map_cons, List.sum_cons, hn]
    have hcast : (s : ℚ) + mass r.2 = ((s + n : ℤ) : ℚ) := by rw [hn]; push_cast; rfl
    rw [List.foldl_cons, Option.some_bind, hcast, toInt_intCast, hsum]
    by_cases h : s + n < 2 ^ 31
    · rw [if_pos ⟨by omega, h⟩, ih hL' (s + n) (by omega) h]
      push_cast
      simp only [add_assoc]
    · have hover : (2 : ℚ) ^ 31 ≤ s + n := by exact_mod_cast not_lt.1 h
      rw [if_neg fun h' => h h'.2, foldl_bind_none, if_neg (by linarith)]
      rfl

/-- **The machine arithmetic is exact only below `2^32` edges and `2^31` of weight.**
`delta` computes the exact gain on every input exactly when `count_edges < 2^32`; and
on a well-formed level graph, `degree_sum` ends as the exact sum of the degrees exactly
when that sum is below `2^31` (otherwise a conversion to `int` is undefined). -/
theorem delta_degreeSum_exact_iff :
    (∀ countEdges : UInt64,
      (∀ d a b t t', delta countEdges d a b t t' = deltaExact countEdges.toNat d a b t t') ↔
        countEdges.toNat < 2 ^ 32) ∧
    ∀ g : Graph, WellFormed g →
      ((levelInit g).degreeSum.map (fun d : ℤ => (d : ℚ)) = some (totalWeight g) ↔ totalWeight g < 2 ^ 31) := by
  refine ⟨delta_eq_deltaExact_iff, fun g hg => ?_⟩
  have hfold : (levelInit g).degreeSum =
      g.foldl (fun o r => o.bind fun ds => toInt (ds + mass r.2)) (some 0) :=
    (List.foldl_hom (fun acc : LevelInit => acc.degreeSum) _
      (fun (o : Option ℤ) (r : Key × UMap ℚ) => o.bind fun ds => toInt (ds + mass r.2)) _ _ fun _ _ => rfl).symm
  have hL : ∀ r ∈ g, ∃ n : ℕ, mass r.2 = n := fun r hr =>
    exists_nat_mass fun e he => hg.integral r hr e he
  rw [hfold, foldl_degreeSum g hL 0 le_rfl (by norm_num), Int.cast_zero, zero_add]
  split <;> simp [*]

/-- With `2^32` edges the square is `0`, and `delta` is not the exact gain; on the edge
`1 - 2`, whose graph weighs `2`, `degree_sum` is exact. -/
theorem countEdges_wraps_at_two_pow_32 :
    ((4294967296 : UInt64) * 4294967296).toNat = 0 ∧
    ¬(∀ d a b t t', delta 4294967296 d a b t t' = deltaExact (4294967296 : UInt64).toNat d a b t t') ∧
    ((levelInit oneEdge.rows).degreeSum.map (fun d : ℤ => (d : ℚ)) = some (totalWeight oneEdge.rows) ↔
      totalWeight oneEdge.rows < 2 ^ 31) :=
  ⟨by decide, fun h => absurd ((delta_degreeSum_exact_iff.1 _).1 h) (by decide),
    delta_degreeSum_exact_iff.2 _ (Store.Undirected.wellFormed ⟨by decide, by decide, by decide, by decide⟩)⟩

end UStore.Louvain
