import UStore.Louvain.UnorderedMap
import Mathlib.Algebra.BigOperators.Group.Finset
import Mathlib.Algebra.Order.Field.Rat
import Mathlib.Tactic.Ring
import Mathlib.Tactic.Linarith

/-!
# Graphs

The data model of the Louvain fragment (`louvain.cpp`, lines 24-32), and the
weighted graph that both local-move loops and both inducers read.

The level-0 graph lives in the store (`graph_collection_t`): a stream of vertex keys
read batch by batch, a neighbour list per vertex, and a degree per vertex. The graphs
of the later levels are `graph_t`s in memory, vertex → (neighbour → weight). The code
reads both the same way: vertex by vertex, each neighbour with a weight, which is `1`
for every entry of a store neighbour list. `Store.rows` is the store graph in that
form. It is a `graph_t` whose inner maps may repeat a key, and `first_phase` and the
store `induce_community_graph` are the in-memory code run on it.

## The weighted graph

`weight R u x` is the weight of the entries from `u` to `x`. A level's graph is
`WellFormed` when it is undirected (`weight` is symmetric), has no self-loops, has
positive integral weights, and every neighbour is itself a vertex. The store graph is
well formed when its stream repeats no key and its neighbour lists are symmetric
(`Store.Undirected`); the graphs built from it are well formed by
`WellFormed.induceCommunityGraph`. `sum_row_eq` turns a sum over a row's entries into a
sum over vertices weighted by `weight`: the one fact about rows the later modules use.
-/

namespace UStore.Louvain

open scoped BigOperators

/-- `community_degree_t`. -/
structure CommunityDegree where
  /-- `in_degree`. -/
  inDegree : ℚ
  /-- `tot_degree`. -/
  totDegree : ℚ
  deriving DecidableEq, Inhabited

@[simp] theorem CommunityDegree.default_eq : (default : CommunityDegree) = ⟨0, 0⟩ := rfl

/-- `partition_t`: vertex → community. -/
abbrev Partition := UMap Key

/-- `vertex_degrees_t`. -/
abbrev VertexDegrees := UMap ℚ

/-- `community_degrees_t`. -/
abbrev CommunityDegrees := UMap CommunityDegree

/-- `graph_t`: vertex → (neighbour → weight). -/
abbrev Graph := UMap (UMap ℚ)

/-- The store's graph collection, as far as the Louvain code reads it. Its answers are
taken as given: a failed status makes `throw_or_release` throw, and the code does
nothing else with it. -/
structure Store where
  /-- The keys `vertex_stream()` yields, batch by batch (`keys_batch`). -/
  batches : List (List Key)
  /-- `neighbors(v)`. -/
  neighbors : Key → List Key
  /-- `degrees(vs)`, vertex by vertex. -/
  degree : Key → ℚ
  /-- `number_of_edges()`. -/
  numberOfEdges : UInt64

namespace Store

/-- The keys of the vertex stream, in order. -/
def stream (G : Store) : List Key := G.batches.flatten

/-- The store graph read as a `graph_t`: each neighbour-list entry with weight `1`. -/
def rows (G : Store) : Graph := G.stream.map fun v => (v, (G.neighbors v).map fun n => (n, 1))

/-- An undirected store graph without self-loops: the stream repeats no key, every
neighbour is streamed, no vertex is its own neighbour, and `u` is listed as often
among the neighbours of `v` as `v` among those of `u`. -/
structure Undirected (G : Store) : Prop where
  nodup : G.stream.Nodup
  closed : ∀ v ∈ G.stream, ∀ x ∈ G.neighbors v, x ∈ G.stream
  irrefl : ∀ v ∈ G.stream, v ∉ G.neighbors v
  symm : ∀ u ∈ G.stream, ∀ x ∈ G.stream, (G.neighbors u).count x = (G.neighbors x).count u

/-- The store's degrees count neighbour-list entries. -/
def DegreesExact (G : Store) : Prop := ∀ v ∈ G.stream, G.degree v = (G.neighbors v).length

end Store

/-- The sum of a map's values: the degree of a row. -/
def mass (m : UMap ℚ) : ℚ := (m.map Prod.snd).sum

/-! ### Weights -/

/-- The weight of the entries from `u` to `x`, over every row of `u`. -/
def weight (R : Graph) (u x : Key) : ℚ :=
  (R.map fun r => if r.1 = u then (r.2.map fun e => if e.1 = x then e.2 else 0).sum else 0).sum

/-- A graph of one level: undirected, without self-loops, with positive integral
weights, its neighbours among its vertices. -/
structure WellFormed (R : Graph) : Prop where
  nodup : (UMap.keys R).Nodup
  irrefl : ∀ r ∈ R, ∀ e ∈ r.2, e.1 ≠ r.1
  closed : ∀ r ∈ R, ∀ e ∈ r.2, e.1 ∈ UMap.keys R
  pos : ∀ r ∈ R, ∀ e ∈ r.2, 0 < e.2
  integral : ∀ r ∈ R, ∀ e ∈ r.2, ∃ n : ℕ, e.2 = n
  symm : ∀ u x, weight R u x = weight R x u

/-- The weight of one row to `x`. -/
def rowWeight (ns : UMap ℚ) (x : Key) : ℚ := (ns.map fun e => if e.1 = x then e.2 else 0).sum

theorem weight_eq_rowWeight {R : Graph} {v : Key} {ns : UMap ℚ} (hR : (UMap.keys R).Nodup)
    (h : (v, ns) ∈ R) (x : Key) : weight R v x = rowWeight ns x := by
  induction R with
  | nil => cases h
  | cons r R ih =>
    simp only [UMap.keys_cons, List.nodup_cons] at hR
    simp only [weight, List.map_cons, List.sum_cons] at ih ⊢
    have key_mem : ∀ r' ∈ R, r'.1 ∈ UMap.keys R := fun r' hr' => List.mem_map_of_mem Prod.fst hr'
    rcases List.mem_cons.1 h with rfl | h
    · have : ∀ r' ∈ R, r'.1 ≠ v := fun r' hr' hv => hR.1 (by simpa [hv] using key_mem r' hr')
      rw [if_pos rfl, List.map_congr_left (fun r' hr' => if_neg (this r' hr'))]
      simp [rowWeight]
    · have hv : r.1 ≠ v := fun hv => hR.1 (hv ▸ key_mem _ h)
      rw [if_neg hv, zero_add, ih hR.2 h]

/-- A sum over the entries of a row is a sum over vertices, each weighted by the
row's weight to it. -/
theorem sum_row_eq (ns : UMap ℚ) {K : Finset Key} (hK : ∀ e ∈ ns, e.1 ∈ K) (g : Key → ℚ) :
    (ns.map fun e => g e.1 * e.2).sum = ∑ x ∈ K, g x * rowWeight ns x := by
  induction ns with
  | nil => simp [rowWeight]
  | cons e ns ih =>
    simp only [rowWeight, List.map_cons, List.sum_cons, mul_add, Finset.sum_add_distrib] at ih ⊢
    rw [ih fun e' he' => hK e' (List.mem_cons_of_mem _ he')]
    simp [mul_ite, Finset.sum_ite_eq, hK e (List.mem_cons_self _ _)]

theorem rowWeight_unit (l : List Key) (x : Key) :
    rowWeight (l.map fun n => (n, (1 : ℚ))) x = l.count x := by
  induction l with
  | nil => rfl
  | cons n l ih =>
    rw [rowWeight, List.map_cons, List.map_cons, List.sum_cons, ← rowWeight, ih, List.count_cons]
    by_cases h : n = x <;> simp [h, add_comm]

theorem weight_eq_zero {R : Graph} {u : Key} (h : u ∉ UMap.keys R) (x : Key) : weight R u x = 0 := by
  refine List.sum_eq_zero fun q hq => ?_
  obtain ⟨r, hr, rfl⟩ := List.mem_map.1 hq
  exact if_neg fun hu : r.1 = u => h (hu ▸ List.mem_map_of_mem Prod.fst hr)

theorem Store.keys_rows (G : Store) : UMap.keys G.rows = G.stream := by
  simp [UMap.keys, Store.rows, List.map_map, Function.comp_def]

theorem Store.weight_rows {G : Store} (hG : G.stream.Nodup) (u x : Key) :
    weight G.rows u x = if u ∈ G.stream then ((G.neighbors u).count x : ℚ) else 0 := by
  split
  · have hmem : (u, (G.neighbors u).map fun n => (n, (1 : ℚ))) ∈ G.rows := List.mem_map_of_mem _ ‹_›
    rw [weight_eq_rowWeight (G.keys_rows ▸ hG) hmem, rowWeight_unit]
  · exact weight_eq_zero (G.keys_rows ▸ ‹_›) x

theorem Store.get_rows {G : Store} (hG : G.stream.Nodup) {v : Key} (hv : v ∈ G.stream) :
    G.rows.get v = (G.neighbors v).map fun n => (n, 1) :=
  UMap.get_of_mem (by rw [UMap.NodupKeys, G.keys_rows]; exact hG) (List.mem_map_of_mem _ hv)

/-- The store graph, read as a `graph_t`, is well formed. -/
theorem Store.Undirected.wellFormed {G : Store} (hG : G.Undirected) : WellFormed G.rows := by
  have hk := G.keys_rows
  have mem : ∀ r ∈ G.rows, ∀ e ∈ r.2, r.1 ∈ G.stream ∧ e.1 ∈ G.neighbors r.1 ∧ e.2 = 1 := by
    intro r hr e he
    obtain ⟨v, hv, rfl⟩ := List.mem_map.1 hr
    obtain ⟨n, hn, rfl⟩ := List.mem_map.1 he
    exact ⟨hv, hn, rfl⟩
  refine ⟨hk ▸ hG.nodup, fun r hr e he => ?_, fun r hr e he => ?_, fun r hr e he => ?_,
    fun r hr e he => ⟨1, by simp [(mem r hr e he).2.2]⟩, fun u x => ?_⟩
  · obtain ⟨hv, hn, -⟩ := mem r hr e he
    exact fun h => hG.irrefl _ hv (h ▸ hn)
  · obtain ⟨hv, hn, -⟩ := mem r hr e he
    exact hk ▸ hG.closed _ hv _ hn
  · simp [(mem r hr e he).2.2]
  · rw [G.weight_rows hG.nodup, G.weight_rows hG.nodup]
    by_cases hu : u ∈ G.stream <;> by_cases hx : x ∈ G.stream
    · simp [hu, hx, hG.symm u hu x hx]
    · simp [hu, hx, List.count_eq_zero.2 fun h => hx (hG.closed u hu x h)]
    · simp [hu, hx, List.count_eq_zero.2 fun h => hu (hG.closed x hx u h)]
    · simp [hu, hx]

/-- A sum over all entries of a graph, as a double sum over keys weighted by `weight`. -/
theorem sum_entries_eq (R : Graph) {K : Finset Key} (hK : ∀ r ∈ R, r.1 ∈ K ∧ ∀ e ∈ r.2, e.1 ∈ K)
    (f : Key → Key → ℚ) :
    (R.map fun r => (r.2.map fun e => f r.1 e.1 * e.2).sum).sum =
      ∑ u ∈ K, ∑ x ∈ K, f u x * weight R u x := by
  induction R with
  | nil => simp [weight]
  | cons r R ih =>
    have hr := hK r (List.mem_cons_self _ _)
    have hw : ∀ u x, weight (r :: R) u x = (if r.1 = u then rowWeight r.2 x else 0) + weight R u x :=
      fun u x => by simp [weight, rowWeight]
    simp only [hw, List.map_cons, List.sum_cons, mul_add, Finset.sum_add_distrib,
      ih fun r' hr' => hK r' (List.mem_cons_of_mem _ hr'), sum_row_eq r.2 hr.2 (f r.1)]
    simp [mul_ite, Finset.sum_ite_eq, hr.1]

end UStore.Louvain
