import UStore.Louvain.Induce
import UStore.ConfigLoader.Numbers
import Mathlib.Algebra.Order.BigOperators.Group.List
import Mathlib.Algebra.BigOperators.Ring

/-!
# The inducer on doubles

`graph_t` holds `double` weights, and `induce_community_graph` adds each entry's weight
to the edge between two communities with `+=` on doubles (line 196, and line 180 with
`1`): every partial sum is rounded to the nearest double. The inducer of
`UStore.Louvain.Induce` adds exactly. The two agree while every sum the code forms is a
whole number below `2^53`, which rounding keeps: so on whole weights whose total is
below `2^53`, the store graph with fewer than `2^53` neighbour-list entries and every
graph `best_partition` induces from it. Weights that are not whole break the
agreement: `1 + 5·2⁻⁵⁵` is no double, and the code stores `1 + 2⁻⁵²` for it, whichever
of the two entries comes first.

## What is proved

* `induceCommunityGraphDouble_eq`: on whole weights whose total is below `2^53`, the
  inducer on doubles builds what the exact one builds.
* `induceCommunityGraphDouble_spec`: both overloads on doubles, on such inputs, build the
  graph of the communities that `induceCommunityGraph_spec` describes.
* `induceCommunityGraphDouble_rounds`: on the weights `1` and `5·2⁻⁵⁵` between two
  communities, the edge weighs `1 + 2⁻⁵²`, not their sum.
-/

namespace UStore.Louvain

/-- `x += w` on doubles: the sum rounded to the nearest double. A sum past the largest
double, which the code turns into infinity, is kept as it is. -/
def addDouble (x w : ℚ) : ℚ := (ConfigLoader.toDouble (x + w)).getD (x + w)

/-- `induced_graph[vertex_com][neighbor_com] += weight` on doubles. -/
def addEdgeDouble (g : Graph) (vertexCom neighborCom : Key) (w : ℚ) : Graph :=
  g.modify vertexCom fun inner => inner.modify neighborCom (addDouble · w)

/-- The body of the vertex loop (lines 172-181, 191-197) on doubles. -/
def induceRowDouble (partition : Partition) (g : Graph) (r : Key × UMap ℚ) : Option Graph := do
  let vertexCom ← partition.find? r.1
  r.2.foldlM (fun g e => do
    let neighborCom ← partition.find? e.1
    pure (if vertexCom = neighborCom then g else addEdgeDouble g vertexCom neighborCom e.2)) g

/-- `induce_community_graph(graph_t const&, partition_t const&)` on doubles. -/
def induceCommunityGraphDouble (graph : Graph) (partition : Partition) : Option Graph :=
  graph.foldlM (induceRowDouble partition) []

/-- `induce_community_graph(graph_collection_t&, partition_t const&)` on doubles: the
store graph, each neighbour-list entry weighing `1`. -/
def Store.induceCommunityGraphDouble (graph : Store) (partition : Partition) : Option Graph :=
  Louvain.induceCommunityGraphDouble graph.rows partition

/-- Every weight of the graph is a whole number. -/
def NatWeights (R : Graph) : Prop := ∀ r ∈ R, ∀ e ∈ r.2, ∃ n : ℕ, e.2 = n

/-- The store graph's entries all weigh `1`. -/
theorem posWeights_rows (G : Store) : ∀ r ∈ G.rows, ∀ e ∈ r.2, ∃ n : ℕ, 0 < n ∧ e.2 = n := by
  intro r hr e he
  obtain ⟨v, _, rfl⟩ := List.mem_map.1 hr
  obtain ⟨x, _, rfl⟩ := List.mem_map.1 he
  exact ⟨1, one_pos, Nat.cast_one.symm⟩

theorem NatWeights.of_pos {R : Graph} (h : ∀ r ∈ R, ∀ e ∈ r.2, ∃ n : ℕ, 0 < n ∧ e.2 = n) : NatWeights R :=
  fun r hr e he => (h r hr e he).imp fun _ h => h.2

theorem natWeights_rows (G : Store) : NatWeights G.rows := .of_pos (posWeights_rows G)

theorem totalWeight_rows (G : Store) :
    totalWeight G.rows = ((G.stream.map fun v => (G.neighbors v).length).sum : ℕ) := by
  simp [totalWeight, Store.rows, mass, Function.comp_def, Nat.cast_list_sum]

/-! ### Sums below `2^53` -/

theorem addDouble_natCast {m n : ℕ} (h : (m : ℚ) + n < 2 ^ 53) : addDouble m n = m + n := by
  have h' : m + n < 2 ^ 53 := by exact_mod_cast h
  rw [addDouble, ← Nat.cast_add, ConfigLoader.toDouble_natCast h', Option.getD_some]

/-- Every entry of `g` is a whole number at most `b`. -/
def WholeBelow (g : Graph) (b : ℚ) : Prop := ∀ A B, ∃ n : ℕ, (g.get A).get B = n ∧ (n : ℚ) ≤ b

theorem WholeBelow.nil : WholeBelow [] 0 := fun _ _ => ⟨0, by simp [UMap.get]; rfl, by simp⟩

theorem WholeBelow.mono {g : Graph} {b b' : ℚ} (h : WholeBelow g b) (hb : b ≤ b') : WholeBelow g b' :=
  fun A B => (h A B).imp fun _ hn => ⟨hn.1, hn.2.trans hb⟩

theorem WholeBelow.addEdge {g : Graph} {b : ℚ} (h : WholeBelow g b) (A B : Key) (n : ℕ) :
    WholeBelow (addEdge g A B n) (b + n) := by
  intro A' B'
  obtain ⟨k, hk, hkb⟩ := h A' B'
  rw [get_get_addEdge, hk]
  split
  · exact ⟨k + n, (Nat.cast_add k n).symm, by rw [Nat.cast_add]; exact add_le_add_right hkb _⟩
  · exact ⟨k, add_zero _, le_add_of_le_of_nonneg hkb (Nat.cast_nonneg n)⟩

/-- Below `2^53`, line 196 adds exactly. -/
theorem addEdgeDouble_eq {g : Graph} {b : ℚ} (h : WholeBelow g b) (A B : Key) {n : ℕ}
    (hn : b + n < 2 ^ 53) : addEdgeDouble g A B n = addEdge g A B n := by
  obtain ⟨k, hk, hkb⟩ := h A B
  have hadd : addDouble ((g.get A).get B) n = (g.get A).get B + n := by
    rw [hk]; exact addDouble_natCast ((add_le_add_right hkb _).trans_lt hn)
  simp only [addEdgeDouble, addEdge, UMap.modify, hadd]

/-! ### The two folds -/

section Fold

variable {α β : Type} {f f' : β → α → Option β} {p : α → Prop} {I : β → ℚ → Prop} {wt : α → ℚ}
  {T : ℚ}

/-- Two folds agree while an invariant holds: from a state with the invariant at `b`,
each step of the two agrees and leads to the invariant at `b` plus the step's weight, as
long as that stays within `T`. -/
theorem foldlM_eq_of_step (hwt : ∀ a, p a → 0 ≤ wt a)
    (hstep : ∀ x a b, p a → I x b → b + wt a ≤ T →
      f x a = f' x a ∧ ∀ y, f' x a = some y → I y (b + wt a)) :
    ∀ (l : List α), (∀ a ∈ l, p a) → ∀ x b, I x b → b + (l.map wt).sum ≤ T →
      l.foldlM f x = l.foldlM f' x ∧ ∀ y, l.foldlM f' x = some y → I y (b + (l.map wt).sum)
  | [], _, x, b, hx, _ => ⟨rfl, fun y hy => by cases hy; simpa using hx⟩
  | a :: l, hl, x, b, hx, hb => by
    have hrest : 0 ≤ (l.map wt).sum :=
      List.sum_nonneg (List.forall_mem_map.2 fun a' ha' => hwt a' (hl a' (List.mem_cons_of_mem _ ha')))
    rw [List.map_cons, List.sum_cons, ← add_assoc] at hb ⊢
    obtain ⟨heq, hI⟩ := hstep x a b (hl a (List.mem_cons_self _ _)) hx (le_of_add_le_of_nonneg_left hb hrest)
    simp only [List.foldlM_cons, heq]
    cases hy : f' x a with
    | none => exact ⟨rfl, fun _ h => by cases h⟩
    | some y =>
      exact foldlM_eq_of_step hwt hstep l (fun a ha => hl a (List.mem_cons_of_mem _ ha)) y _ (hI y hy) hb

end Fold

section Exact

variable {T : ℚ} (hT : T < 2 ^ 53) (partition : Partition)

include hT

/-- One vertex's entries, on doubles as exactly, from a graph of whole entries at most
`b`: the entries add at most their weight. -/
theorem induceRowDouble_step (x : Graph) (r : Key × UMap ℚ) (b : ℚ) (hr : ∀ e ∈ r.2, ∃ n : ℕ, e.2 = n)
    (hx : WholeBelow x b) (hb : b + mass r.2 ≤ T) :
    induceRowDouble partition x r = induceRow partition x r ∧
      ∀ y, induceRow partition x r = some y → WholeBelow y (b + mass r.2) := by
  unfold induceRowDouble induceRow
  cases partition.find? r.1 with
  | none => exact ⟨rfl, fun _ h => by cases h⟩
  | some vertexCom =>
    simp only [Option.bind_eq_bind, Option.some_bind]
    refine foldlM_eq_of_step (fun e ⟨n, hn⟩ => hn ▸ Nat.cast_nonneg n) ?_ r.2 hr x b hx hb
    rintro x e b ⟨n, hn⟩ hx hb
    cases partition.find? e.1 with
    | none => exact ⟨rfl, fun _ h => by cases h⟩
    | some neighborCom =>
      simp only [Option.bind_eq_bind, Option.some_bind, pure, Option.some.injEq]
      rw [hn] at hb ⊢
      split
      · exact ⟨rfl, fun y hy => hy ▸ hx.mono (le_add_of_nonneg_right (Nat.cast_nonneg n))⟩
      · exact ⟨by rw [addEdgeDouble_eq hx _ _ (hb.trans_lt hT)], fun y hy => hy ▸ hx.addEdge _ _ n⟩

end Exact

theorem mass_nonneg {ns : UMap ℚ} (h : ∀ e ∈ ns, ∃ n : ℕ, e.2 = n) : 0 ≤ mass ns :=
  List.sum_nonneg (List.forall_mem_map.2 fun e he => (h e he).elim fun n hn => hn ▸ Nat.cast_nonneg n)

/-- **The inducer adds exactly on whole weights.** When every weight is a whole number
and the weights sum to less than `2^53`, every sum lines 180 and 196 form is a whole
number below `2^53`, and the inducer on doubles builds what the exact one builds. -/
theorem induceCommunityGraphDouble_eq {R : Graph} (hR : NatWeights R) (htot : totalWeight R < 2 ^ 53)
    (partition : Partition) : induceCommunityGraphDouble R partition = induceCommunityGraph R partition :=
  (foldlM_eq_of_step (fun _ => mass_nonneg)
    (fun x r b hr hx hb => induceRowDouble_step htot partition x r b hr hx hb)
    R hR [] 0 WholeBelow.nil (zero_add _).le).1

/-- **Inducer on doubles**: both overloads of `induce_community_graph`, given a partition
that gives every vertex and every neighbour a community, on the store graph with fewer
than `2^53` neighbour-list entries and on a graph of whole weights summing to less than
`2^53`, succeed and build the graph of the communities: no edge from a community to
itself, between two others the weight of the entries between their members, symmetric
when the input is, and as heavy as the entries between communities. -/
theorem induceCommunityGraphDouble_spec :
    (∀ (graph : Store) (partition : Partition),
      (graph.stream.map fun v => (graph.neighbors v).length).sum < 2 ^ 53 →
      (∀ v ∈ graph.stream, v ∈ partition.keys ∧ ∀ x ∈ graph.neighbors v, x ∈ partition.keys) →
      ∃ g, graph.induceCommunityGraphDouble partition = some g ∧ Induced graph.rows partition.get g) ∧
    (∀ (graph : Graph) (partition : Partition), NatWeights graph → totalWeight graph < 2 ^ 53 →
      Covers partition graph →
      ∃ g, induceCommunityGraphDouble graph partition = some g ∧ Induced graph partition.get g) := by
  refine ⟨fun graph partition hn h => ?_, fun graph partition hw ht h => ?_⟩
  · have ht : totalWeight graph.rows < 2 ^ 53 := by rw [totalWeight_rows]; exact_mod_cast hn
    rw [Store.induceCommunityGraphDouble, induceCommunityGraphDouble_eq (natWeights_rows graph) ht]
    exact induceCommunityGraph_spec.1 graph partition h
  · rw [induceCommunityGraphDouble_eq hw ht]
    exact induceCommunityGraph_spec.2 graph partition h

/-- On the edge `1 - 2`, each vertex its own community, the store graph on doubles
becomes the edge between the two communities. -/
theorem oneEdge_induceCommunityGraphDouble :
    ((oneEdge.stream.map fun v => (oneEdge.neighbors v).length).sum < 2 ^ 53 ∧
      ∀ v ∈ oneEdge.stream, v ∈ UMap.keys [(1, 1), (2, 2)] ∧
        ∀ x ∈ oneEdge.neighbors v, x ∈ UMap.keys [(1, 1), (2, 2)]) ∧
      ∃ g, oneEdge.induceCommunityGraphDouble [(1, 1), (2, 2)] = some g ∧
        Induced oneEdge.rows (UMap.get [(1, 1), (2, 2)]) g :=
  ⟨⟨by decide, by decide⟩, induceCommunityGraphDouble_spec.1 oneEdge [(1, 1), (2, 2)] (by decide) (by decide)⟩

/-! ### Weights that are not whole -/

/-- Vertices `1` and `2` joined to `3` with the weights `1` and `5·2⁻⁵⁵`, both doubles. -/
def roundingGraph : Graph := [(1, [(3, 1)]), (2, [(3, 5 / 2 ^ 55)]), (3, [(1, 1), (2, 5 / 2 ^ 55)])]

attribute [local semireducible] Rat.add Rat.mul Rat.inv Rat.sub

set_option exponentiation.threshold 1100 in
set_option maxRecDepth 4000 in
/-- With `1` and `2` in community `7` and `3` in `8`, both edges between the communities
weigh `1 + 2⁻⁵²`, the double nearest to the sum `1 + 5·2⁻⁵⁵` of the weights between
their members. -/
theorem induceCommunityGraphDouble_rounds :
    induceCommunityGraphDouble roundingGraph [(1, 7), (2, 7), (3, 8)] =
        some [(7, [(8, 1 + 1 / 2 ^ 52)]), (8, [(7, 1 + 1 / 2 ^ 52)])] ∧
      interWeight roundingGraph (UMap.get [(1, 7), (2, 7), (3, 8)]) 7 8 = 1 + 5 / 2 ^ 55 ∧
      interWeight roundingGraph (UMap.get [(1, 7), (2, 7), (3, 8)]) 8 7 = 1 + 5 / 2 ^ 55 := by
  decide

end UStore.Louvain
