import UStore.Louvain.Phase

/-!
# The graph inducer

`induce_community_graph` (lines 166-201) builds the next level's graph: one vertex per
community, and for every entry from a vertex to a neighbour in another community the
entry's weight added to the edge between the two communities. Entries inside a
community are dropped. `partition.at` throws when a vertex or a neighbour has no
community, which is `none` here. The store overload counts `1` per neighbour-list
entry; it is the `graph_t` one run on `Store.rows`.

The sums here are exact. The code adds in doubles; `UStore.Louvain.Rounding` models
that, and shows the two equal on whole weights below `2^53`, the only ones
`best_partition` builds from a store of fewer than `2^53` entries.

## What is proved

* `induceCommunityGraph_spec`: for either overload, adding exactly, and a partition
  defined on every vertex and neighbour, the result has no edge from a community to
  itself, gives two others the weight of the entries between their members, is
  symmetric when the input is, and weighs as much as the inter-community entries of the
  input.
* `WellFormed.induceCommunityGraph`: the graph built from a well-formed graph is well
  formed, so every level of `best_partition` is (`LevelStart.start` in
  `UStore.Louvain.Statistics`).
-/

namespace UStore.Louvain

open scoped BigOperators

/-- `induced_graph[vertex_com][neighbor_com] += weight`. -/
def addEdge (g : Graph) (vertexCom neighborCom : Key) (w : ℚ) : Graph :=
  g.modify vertexCom fun inner => inner.modify neighborCom (· + w)

/-- The body of the vertex loop (lines 172-181, 191-197): the entries of one vertex. -/
def induceRow (partition : Partition) (g : Graph) (r : Key × UMap ℚ) : Option Graph := do
  let vertexCom ← partition.find? r.1
  r.2.foldlM (fun g e => do
    let neighborCom ← partition.find? e.1
    pure (if vertexCom = neighborCom then g else addEdge g vertexCom neighborCom e.2)) g

/-- `induce_community_graph(graph_t const&, partition_t const&)`. -/
def induceCommunityGraph (graph : Graph) (partition : Partition) : Option Graph :=
  graph.foldlM (induceRow partition) []

/-- `induce_community_graph(graph_collection_t&, partition_t const&)`: the store graph,
each neighbour-list entry weighing `1`. -/
def Store.induceCommunityGraph (graph : Store) (partition : Partition) : Option Graph :=
  Louvain.induceCommunityGraph graph.rows partition

/-- The weight of the entries from a member of `A` to a member of `B`. -/
def interWeight (R : Graph) (P : Key → Key) (A B : Key) : ℚ :=
  (R.map fun r => (r.2.map fun e => if P r.1 = A ∧ P e.1 = B then e.2 else 0).sum).sum

/-- The sum of all weights of a graph. -/
def totalWeight (g : Graph) : ℚ := (g.map fun r => mass r.2).sum

/-! ### One edge -/

namespace UMap

variable {α : Type}

theorem mem_set {m : UMap α} {k : Key} {v : α} {e : Key × α} (h : e ∈ m.set k v) :
    e = (k, v) ∨ e ∈ m := by
  unfold set at h
  split at h
  · obtain ⟨e', he', rfl⟩ := List.mem_map.1 h
    split
    · exact .inl rfl
    · exact .inr he'
  · simpa [or_comm] using h

/-- A sum over the entries of a map without repeated keys, after `m[k] = v`. -/
theorem sum_set [Inhabited α] {m : UMap α} (hm : m.NodupKeys) (k : Key) (v : α) (φ : Key → α → ℚ)
    (h0 : φ k default = 0) :
    ((m.set k v).map fun e => φ e.1 e.2).sum = (m.map fun e => φ e.1 e.2).sum - φ k (m.get k) + φ k v := by
  by_cases hk : k ∈ m.keys
  · rw [set, if_pos (isSome_find?.2 hk)]
    induction m with
    | nil => simp at hk
    | cons e m ih =>
      simp only [NodupKeys, keys_cons, List.nodup_cons] at hm
      by_cases he : e.1 = k
      · subst he
        have : ∀ e' ∈ m, e'.1 ≠ e.1 := fun e' he' h => hm.1 (h ▸ List.mem_map_of_mem Prod.fst he')
        simp only [List.map_cons, List.sum_cons, if_pos, get, find?_cons, Option.getD_some]
        have hrest : (m.map fun e' => if e'.1 = e.1 then (e.1, v) else e') = m :=
          (List.map_congr_left fun e' he' => if_neg (this e' he')).trans (List.map_id _)
        rw [hrest]
        ring
      · have hk' : k ∈ keys m := by simpa [Ne.symm he] using hk
        simp only [List.map_cons, List.sum_cons, if_neg he, get, find?_cons] at ih ⊢
        rw [ih hm.2 hk']; ring
  · rw [set, if_neg (mt isSome_find?.1 hk)]
    simp [get, find?_eq_none.2 hk, h0]

end UMap

theorem get_get_addEdge (g : Graph) (A B A' B' : Key) (w : ℚ) :
    ((addEdge g A B w).get A').get B' = (g.get A').get B' + if A' = A ∧ B' = B then w else 0 := by
  by_cases hA : A' = A <;> by_cases hB : B' = B <;> simp [addEdge, hA, hB]

theorem find?_get_addEdge (g : Graph) (A B A' B' : Key) (w : ℚ) :
    ((addEdge g A B w).get A').find? B' =
      if A' = A ∧ B' = B then some ((g.get A).get B + w) else (g.get A').find? B' := by
  by_cases hA : A' = A <;> by_cases hB : B' = B <;> simp [addEdge, hA, hB]

/-! ### The folds -/

/-- What the entry `e` of vertex `v` adds, when every lookup succeeds. -/
def induceEntry (P : Key → Key) (v : Key) (g : Graph) (e : Key × ℚ) : Graph :=
  if P v = P e.1 then g else addEdge g (P v) (P e.1) e.2

/-- What the vertex loop adds, when every lookup succeeds. -/
def induceRows (P : Key → Key) (R : Graph) (g : Graph) : Graph :=
  R.foldl (fun g r => r.2.foldl (induceEntry P r.1) g) g

/-- Every key the rows mention has a community. -/
def Covers (partition : Partition) (R : Graph) : Prop :=
  ∀ r ∈ R, r.1 ∈ partition.keys ∧ ∀ e ∈ r.2, e.1 ∈ partition.keys

theorem induceRow_eq {partition : Partition} {g : Graph} {v : Key} {ns : UMap ℚ}
    (hv : v ∈ partition.keys) (hns : ∀ e ∈ ns, e.1 ∈ partition.keys) :
    induceRow partition g (v, ns) = some (ns.foldl (induceEntry partition.get v) g) := by
  rw [induceRow, UMap.find?_eq_some_get hv, Option.bind_eq_bind, Option.some_bind]
  induction ns generalizing g with
  | nil => rfl
  | cons e ns ih =>
    simp only [List.foldlM_cons, List.foldl_cons, UMap.find?_eq_some_get (hns e (List.mem_cons_self _ _)),
      Option.bind_eq_bind, Option.some_bind]
    exact ih (fun e' he' => hns e' (List.mem_cons_of_mem _ he'))

theorem induceCommunityGraph_eq {partition : Partition} {R : Graph} (h : Covers partition R) :
    induceCommunityGraph R partition = some (induceRows partition.get R []) := by
  unfold induceCommunityGraph induceRows
  generalize ([] : Graph) = g
  induction R generalizing g with
  | nil => rfl
  | cons r R ih =>
    have hr := h r (List.mem_cons_self _ _)
    rw [List.foldlM_cons, induceRow_eq hr.1 hr.2, Option.bind_eq_bind, Option.some_bind, List.foldl_cons]
    exact ih (fun r' hr' => h r' (List.mem_cons_of_mem _ hr')) _

theorem mem_keys_of_induceRow {partition : Partition} {g g' : Graph} {r : Key × UMap ℚ}
    (h : induceRow partition g r = some g') : r.1 ∈ partition.keys ∧ ∀ e ∈ r.2, e.1 ∈ partition.keys := by
  obtain ⟨v, ns⟩ := r
  rw [induceRow, Option.bind_eq_bind, Option.bind_eq_some] at h
  obtain ⟨vc, hvc, h⟩ := h
  refine ⟨UMap.isSome_find?.1 (by simp [hvc]), ?_⟩
  clear hvc
  induction ns generalizing g with
  | nil => simp
  | cons e ns ih =>
    rw [List.foldlM_cons, Option.bind_eq_bind, Option.bind_eq_some] at h
    obtain ⟨g₁, h₁, h⟩ := h
    obtain ⟨nc, hnc, -⟩ := Option.bind_eq_some.1 h₁
    exact List.forall_mem_cons.2 ⟨UMap.isSome_find?.1 (by simp [hnc]), ih h⟩

/-- An inducer that succeeds found every key it looked up. -/
theorem covers_of_induceCommunityGraph {partition : Partition} {R g : Graph}
    (h : induceCommunityGraph R partition = some g) : Covers partition R := by
  unfold induceCommunityGraph at h
  generalize ([] : Graph) = g₀ at h
  induction R generalizing g₀ with
  | nil => intro r hr; cases hr
  | cons r R ih =>
    rw [List.foldlM_cons, Option.bind_eq_bind, Option.bind_eq_some] at h
    obtain ⟨g₁, h₁, h⟩ := h
    exact List.forall_mem_cons.2 ⟨mem_keys_of_induceRow h₁, ih g₁ h⟩

theorem induceCommunityGraph_eq_none {partition : Partition} {R : Graph} (h : ¬Covers partition R) :
    induceCommunityGraph R partition = none :=
  Option.eq_none_iff_forall_not_mem.2 fun _ hg => h (covers_of_induceCommunityGraph hg)

theorem induceCommunityGraph_eq_of_eq_some {partition : Partition} {R g : Graph}
    (h : induceCommunityGraph R partition = some g) : g = induceRows partition.get R [] :=
  Option.some.inj (h.symm.trans (induceCommunityGraph_eq (covers_of_induceCommunityGraph h)))

theorem get_get_induceEntry (P : Key → Key) (v : Key) (g : Graph) (e : Key × ℚ) (A B : Key) :
    ((induceEntry P v g e).get A).get B =
      (g.get A).get B + if P v = A ∧ P e.1 = B ∧ A ≠ B then e.2 else 0 := by
  unfold induceEntry
  split
  · rename_i h
    rw [if_neg (by rintro ⟨rfl, rfl, hAB⟩; exact hAB h), add_zero]
  · rw [get_get_addEdge]
    by_cases hA : P v = A <;> by_cases hB : P e.1 = B <;> simp_all [eq_comm]

theorem get_get_induceRows (P : Key → Key) (R g : Graph) (A B : Key) :
    ((induceRows P R g).get A).get B = (g.get A).get B +
      (R.map fun r => (r.2.map fun e => if P r.1 = A ∧ P e.1 = B ∧ A ≠ B then e.2 else 0).sum).sum := by
  induction R generalizing g with
  | nil => simp [induceRows]
  | cons r R ih =>
    rw [induceRows, List.foldl_cons, ← induceRows, ih, List.map_cons, List.sum_cons, ← add_assoc]
    congr 1
    induction r.2 generalizing g with
    | nil => simp
    | cons e ns ihe => simp [ihe, get_get_induceEntry, add_assoc]

theorem isSome_find?_addEdge (g : Graph) (A B A' : Key) (w : ℚ) :
    ((addEdge g A B w).find? A').isSome ↔ A = A' ∨ (g.find? A').isSome := by
  rw [addEdge, UMap.find?_modify]
  by_cases h : A' = A
  · subst h; simp
  · simp [h, Ne.symm h]

theorem isSome_find?_get_addEdge (g : Graph) (A B A' B' : Key) (w : ℚ) :
    (((addEdge g A B w).get A').find? B').isSome ↔ (A = A' ∧ B = B') ∨ ((g.get A').find? B').isSome := by
  rw [find?_get_addEdge]
  by_cases h : A' = A ∧ B' = B
  · obtain ⟨rfl, rfl⟩ := h; simp
  · have : ¬(A = A' ∧ B = B') := fun ⟨h1, h2⟩ => h ⟨h1.symm, h2.symm⟩
    simp only [h, this, if_false, false_or]

/-- The communities an entry loop gives an outer entry. -/
theorem isSome_find?_foldl_induceEntry (P : Key → Key) (v : Key) (ns : UMap ℚ) (g : Graph) (A : Key) :
    ((ns.foldl (induceEntry P v) g).find? A).isSome ↔
      (g.find? A).isSome ∨ ∃ e ∈ ns, P v = A ∧ P v ≠ P e.1 := by
  induction ns generalizing g with
  | nil => simp
  | cons e ns ih =>
    rw [List.foldl_cons, ih, List.exists_mem_cons_iff]
    unfold induceEntry
    split
    · rename_i h
      simp only [h, ne_eq, not_true_eq_false, and_false, false_or]
    · rename_i h
      rw [isSome_find?_addEdge]
      simp only [h, ne_eq, not_false_eq_true, and_true]
      exact or_assoc.trans or_left_comm

/-- The pairs of communities an entry loop gives an inner entry. -/
theorem isSome_find?_get_foldl_induceEntry (P : Key → Key) (v : Key) (ns : UMap ℚ) (g : Graph)
    (A B : Key) : ((((ns.foldl (induceEntry P v) g).get A).find? B).isSome ↔
      ((g.get A).find? B).isSome ∨ ∃ e ∈ ns, P v = A ∧ P e.1 = B ∧ A ≠ B) := by
  induction ns generalizing g with
  | nil => simp
  | cons e ns ih =>
    rw [List.foldl_cons, ih, List.exists_mem_cons_iff]
    unfold induceEntry
    split
    · rename_i h
      have : ¬(P v = A ∧ P e.1 = B ∧ A ≠ B) := fun ⟨h1, h2, h3⟩ => h3 (h1.symm.trans (h.trans h2))
      simp only [this, false_or]
    · rename_i h
      have : (P v = A ∧ P e.1 = B) ↔ (P v = A ∧ P e.1 = B ∧ A ≠ B) :=
        ⟨fun ⟨h1, h2⟩ => ⟨h1, h2, fun hAB => h (h1.trans (hAB.trans h2.symm))⟩, fun ⟨h1, h2, _⟩ => ⟨h1, h2⟩⟩
      rw [isSome_find?_get_addEdge, this]
      exact or_assoc.trans or_left_comm

theorem isSome_find?_induceRows (P : Key → Key) (R g : Graph) (A : Key) :
    ((induceRows P R g).find? A).isSome ↔
      (g.find? A).isSome ∨ ∃ r ∈ R, ∃ e ∈ r.2, P r.1 = A ∧ P r.1 ≠ P e.1 := by
  induction R generalizing g with
  | nil => simp [induceRows]
  | cons r R ih =>
    rw [induceRows, List.foldl_cons, ← induceRows, ih, isSome_find?_foldl_induceEntry, List.exists_mem_cons_iff,
      or_assoc]

theorem isSome_find?_get_induceRows (P : Key → Key) (R g : Graph) (A B : Key) :
    (((induceRows P R g).get A).find? B).isSome ↔
      ((g.get A).find? B).isSome ∨ ∃ r ∈ R, ∃ e ∈ r.2, P r.1 = A ∧ P e.1 = B ∧ A ≠ B := by
  induction R generalizing g with
  | nil => simp [induceRows]
  | cons r R ih =>
    rw [induceRows, List.foldl_cons, ← induceRows, ih, isSome_find?_get_foldl_induceEntry,
      List.exists_mem_cons_iff, or_assoc]

/-! ### The shape of an induced graph -/

/-- The shape of every graph the inducer builds: a map of maps without repeated keys,
and no entry from a key to itself. -/
structure Built (g : Graph) : Prop where
  nodup : g.NodupKeys
  inner : ∀ r ∈ g, r.2.NodupKeys ∧ r.1 ∉ r.2.keys

theorem Built.nil : Built [] := ⟨List.nodup_nil, fun _ h => by cases h⟩

/-- The row `g[A]` is an entry of `g`, or empty. -/
theorem Built.get {g : Graph} (hg : Built g) (A : Key) : (g.get A).NodupKeys ∧ A ∉ (g.get A).keys := by
  rcases UMap.get_mem_or_eq_default g A with h | h
  · exact hg.inner _ h
  · rw [h]; exact ⟨List.nodup_nil, List.not_mem_nil A⟩

theorem Built.addEdge {g : Graph} (hg : Built g) {A B : Key} (hAB : A ≠ B) (w : ℚ) :
    Built (addEdge g A B w) := by
  refine ⟨hg.nodup.modify _ _, fun r hr => ?_⟩
  rcases UMap.mem_set hr with rfl | hr
  · obtain ⟨hn, hA⟩ := hg.get A
    dsimp only
    exact ⟨hn.modify _ _, fun h => (UMap.mem_keys_set.1 h).elim hAB hA⟩
  · exact hg.inner r hr

theorem Built.foldl_induceEntry {g : Graph} (hg : Built g) (P : Key → Key) (v : Key) (ns : UMap ℚ) :
    Built (ns.foldl (induceEntry P v) g) := by
  induction ns generalizing g with
  | nil => exact hg
  | cons e ns ih =>
    refine ih ?_
    unfold induceEntry; split
    · exact hg
    · exact hg.addEdge ‹_› _

theorem Built.induceRows {g : Graph} (hg : Built g) (P : Key → Key) (R : Graph) :
    Built (induceRows P R g) := by
  induction R generalizing g with
  | nil => exact hg
  | cons r R ih => exact ih (hg.foldl_induceEntry P r.1 r.2)

theorem Built.find?_get_self {g : Graph} (hg : Built g) (A : Key) : (g.get A).find? A = none :=
  UMap.find?_eq_none.2 (hg.get A).2

theorem rowWeight_eq_get {ns : UMap ℚ} (h : ns.NodupKeys) (x : Key) : rowWeight ns x = ns.get x := by
  induction ns with
  | nil => rfl
  | cons e ns ih =>
    simp only [UMap.NodupKeys, UMap.keys_cons, List.nodup_cons] at h
    by_cases he : e.1 = x
    · subst x
      have : ∀ e' ∈ ns, e'.1 ≠ e.1 := fun e' he' h' => h.1 (h' ▸ List.mem_map_of_mem Prod.fst he')
      simp [rowWeight, UMap.get, UMap.find?_cons, List.map_congr_left fun e' he' => if_neg (this e' he')]
    · simpa [rowWeight, UMap.get, UMap.find?_cons, he] using ih h.2

theorem Built.weight_eq {g : Graph} (hg : Built g) (A B : Key) : weight g A B = (g.get A).get B := by
  by_cases hA : A ∈ UMap.keys g
  · rw [weight_eq_rowWeight hg.nodup (UMap.mem_of_find? (UMap.find?_eq_some_get hA)),
      rowWeight_eq_get (hg.get A).1]
  · have : g.get A = [] := by simp [UMap.get, UMap.find?_eq_none.2 hA]; rfl
    rw [weight_eq_zero hA, this]; rfl

/-- The entries of a graph are positive whole numbers, and no row is empty. -/
def PosNat (g : Graph) : Prop := ∀ r ∈ g, r.2 ≠ [] ∧ ∀ e ∈ r.2, ∃ n : ℕ, 0 < n ∧ e.2 = n

theorem PosNat.addEdge {g : Graph} (hg : PosNat g) (A B : Key) {n : ℕ} (hn : 0 < n) :
    PosNat (addEdge g A B n) := by
  have hrow : ∀ e ∈ g.get A, ∃ m : ℕ, 0 < m ∧ e.2 = m := by
    rcases UMap.get_mem_or_eq_default g A with h | h
    · exact (hg _ h).2
    · rw [h]; intro e he; cases he
  intro r hr
  rcases UMap.mem_set hr with rfl | hr
  · dsimp only
    have hB : B ∈ UMap.keys ((g.get A).modify B fun x => x + n) := UMap.mem_keys_set.2 (.inl rfl)
    refine ⟨fun h => by rw [h] at hB; exact List.not_mem_nil _ hB, fun e he => ?_⟩
    rcases UMap.mem_set he with rfl | he
    · rcases UMap.get_mem_or_eq_default (g.get A) B with h | h
      · obtain ⟨m, hm, hme⟩ := hrow _ h
        exact ⟨m + n, by omega, by simp only at hme; simp [hme]⟩
      · exact ⟨n, hn, by simp [h]; rfl⟩
    · exact hrow e he
  · exact hg r hr

theorem PosNat.foldl_induceEntry {g : Graph} (hg : PosNat g) (P : Key → Key) (v : Key) {ns : UMap ℚ}
    (hns : ∀ e ∈ ns, ∃ n : ℕ, 0 < n ∧ e.2 = n) : PosNat (ns.foldl (induceEntry P v) g) := by
  induction ns generalizing g with
  | nil => exact hg
  | cons e ns ih =>
    refine ih ?_ fun e' he' => hns e' (List.mem_cons_of_mem _ he')
    unfold induceEntry; split
    · exact hg
    · obtain ⟨n, hn, he⟩ := hns e (List.mem_cons_self _ _)
      rw [he]; exact hg.addEdge _ _ hn

theorem PosNat.induceRows {g : Graph} (hg : PosNat g) (P : Key → Key) {R : Graph}
    (hR : ∀ r ∈ R, ∀ e ∈ r.2, ∃ n : ℕ, 0 < n ∧ e.2 = n) : PosNat (induceRows P R g) := by
  induction R generalizing g with
  | nil => exact hg
  | cons r R ih =>
    exact ih (hg.foldl_induceEntry P r.1 (hR r (List.mem_cons_self _ _)))
      fun r' hr' => hR r' (List.mem_cons_of_mem _ hr')

/-! ### Weights of an induced graph -/

theorem mass_set {m : UMap ℚ} (hm : m.NodupKeys) (k : Key) (v : ℚ) :
    mass (m.set k v) = mass m - m.get k + v :=
  UMap.sum_set hm k v (fun _ x => x) rfl

theorem Built.totalWeight_addEdge {g : Graph} (hg : Built g) (A B : Key) (w : ℚ) :
    totalWeight (Louvain.addEdge g A B w) = totalWeight g + w := by
  rw [totalWeight, Louvain.addEdge, UMap.modify, UMap.sum_set hg.nodup _ _ (fun _ => mass) rfl, UMap.modify,
    mass_set (hg.get A).1, ← totalWeight]
  ring

theorem Built.totalWeight_induceRows {g : Graph} (hg : Built g) (P : Key → Key) (R : Graph) :
    totalWeight (Louvain.induceRows P R g) = totalWeight g +
      (R.map fun r => (r.2.map fun e => if P r.1 ≠ P e.1 then e.2 else 0).sum).sum := by
  induction R generalizing g with
  | nil => simp [Louvain.induceRows]
  | cons r R ih =>
    rw [Louvain.induceRows, List.foldl_cons, ← Louvain.induceRows, ih (hg.foldl_induceEntry P r.1 r.2), List.map_cons,
      List.sum_cons, ← add_assoc]
    congr 1
    induction r.2 generalizing g with
    | nil => simp
    | cons e ns ihe =>
      rw [List.foldl_cons, ihe (by unfold induceEntry; split; exact hg; exact hg.addEdge ‹_› _)]
      unfold induceEntry; split
      · simp_all
      · rw [hg.totalWeight_addEdge]; simp_all [add_assoc]

/-- Every key a graph mentions, as a vertex or as a neighbour. -/
def mentioned (R : Graph) : Finset Key := (R.flatMap fun r => r.1 :: r.2.map Prod.fst).toFinset

theorem mem_mentioned (R : Graph) : ∀ r ∈ R, r.1 ∈ mentioned R ∧ ∀ e ∈ r.2, e.1 ∈ mentioned R := by
  intro r hr
  simp only [mentioned, List.mem_toFinset, List.mem_flatMap]
  exact ⟨⟨r, hr, List.mem_cons_self _ _⟩,
    fun e he => ⟨r, hr, List.mem_cons_of_mem _ (List.mem_map_of_mem _ he)⟩⟩

/-- The weight between two communities, as a double sum over the vertices. -/
theorem interWeight_eq (R : Graph) (P : Key → Key) {K : Finset Key}
    (hK : ∀ r ∈ R, r.1 ∈ K ∧ ∀ e ∈ r.2, e.1 ∈ K) (A B : Key) :
    interWeight R P A B = ∑ u ∈ K, ∑ x ∈ K, (if P u = A ∧ P x = B then 1 else 0) * weight R u x := by
  rw [← sum_entries_eq R hK]; simp [interWeight]

theorem interWeight_comm {R : Graph} (hR : ∀ u x, weight R u x = weight R x u) (P : Key → Key)
    (A B : Key) : interWeight R P A B = interWeight R P B A := by
  rw [interWeight_eq R P (mem_mentioned R), interWeight_eq R P (mem_mentioned R), Finset.sum_comm]
  simp only [hR, and_comm]

/-! ### What the inducer builds -/

/-- What `induce_community_graph` builds from the entries `R` and the communities `P`. -/
structure Induced (R : Graph) (P : Key → Key) (g : Graph) : Prop where
  /-- No edge from a community to itself. -/
  no_loop : ∀ A, (g.get A).find? A = none
  /-- Between two communities, the weight of the entries between their members. -/
  get_get : ∀ A B, A ≠ B → (g.get A).get B = interWeight R P A B
  /-- Symmetric when the input is. -/
  symm : (∀ u x, weight R u x = weight R x u) → ∀ A B, (g.get A).get B = (g.get B).get A
  /-- As heavy as the entries between communities. -/
  total : totalWeight g = (R.map fun r => (r.2.map fun e => if P r.1 ≠ P e.1 then e.2 else 0).sum).sum

theorem induced_induceRows (P : Key → Key) (R : Graph) : Induced R P (induceRows P R []) := by
  have hb := Built.nil.induceRows P R
  have hget : ∀ A B, A ≠ B → ((induceRows P R []).get A).get B = interWeight R P A B := by
    intro A B hAB
    rw [get_get_induceRows]
    simp [hAB, interWeight, UMap.get]; rfl
  refine ⟨hb.find?_get_self, hget, fun hR A B => ?_, ?_⟩
  · by_cases hAB : A = B
    · rw [hAB]
    · rw [hget A B hAB, hget B A (Ne.symm hAB), interWeight_comm hR]
  · rw [Built.nil.totalWeight_induceRows]; simp [totalWeight]

/-- The graph built from a well-formed graph is well formed. -/
theorem WellFormed.induceCommunityGraph {R g : Graph} {partition : Partition} (hR : WellFormed R)
    (h : Louvain.induceCommunityGraph R partition = some g) : WellFormed g := by
  obtain rfl := induceCommunityGraph_eq_of_eq_some h
  have hb := Built.nil.induceRows partition.get R
  have hp : PosNat (induceRows partition.get R []) := PosNat.induceRows (fun _ h => by cases h) _
    fun r hr e he => (hR.integral r hr e he).imp fun n hn => ⟨by exact_mod_cast hn ▸ hR.pos r hr e he, hn⟩
  have hsymm := (induced_induceRows partition.get R).symm hR.symm
  have hval : ∀ r ∈ induceRows partition.get R [], ∀ e ∈ r.2,
      ((induceRows partition.get R []).get r.1).get e.1 = e.2 := fun r hr e he => by
    rw [UMap.get_of_mem hb.nodup hr, UMap.get_of_mem (hb.inner r hr).1 he]
  have hpos : ∀ r ∈ induceRows partition.get R [], ∀ e ∈ r.2, (0 : ℚ) < e.2 := fun r hr e he => by
    obtain ⟨n, hn, he⟩ := (hp r hr).2 e he; rw [he]; exact_mod_cast hn
  refine ⟨hb.nodup, fun r hr e he h => (hb.inner r hr).2 (h ▸ List.mem_map_of_mem _ he),
    fun r hr e he => ?_, hpos, fun r hr e he => ((hp r hr).2 e he).imp fun _ h => h.2,
    fun u x => by rw [hb.weight_eq, hb.weight_eq, hsymm]⟩
  by_contra hk
  have := hval r hr e he
  rw [hsymm, UMap.get_eq_default hk] at this
  exact (hpos r hr e he).ne' (this ▸ rfl)

/-- **Inducer**: both overloads of `induce_community_graph`, given a partition that
gives every vertex and every neighbour a community, succeed and build the graph of the
communities: no edge from a community to itself, between two others the weight of the
entries between their members, symmetric when the input is, and as heavy as the
entries between communities. -/
theorem induceCommunityGraph_spec :
    (∀ (graph : Store) (partition : Partition),
      (∀ v ∈ graph.stream, v ∈ partition.keys ∧ ∀ x ∈ graph.neighbors v, x ∈ partition.keys) →
      ∃ g, graph.induceCommunityGraph partition = some g ∧ Induced graph.rows partition.get g) ∧
    (∀ (graph : Graph) (partition : Partition), Covers partition graph →
      ∃ g, induceCommunityGraph graph partition = some g ∧ Induced graph partition.get g) := by
  refine ⟨fun graph partition h => ?_, fun graph partition h =>
    ⟨_, induceCommunityGraph_eq h, induced_induceRows _ _⟩⟩
  have hc : Covers partition graph.rows := by
    simp only [Covers, Store.rows, List.mem_map]
    rintro _ ⟨v, hv, rfl⟩
    exact ⟨(h v hv).1, by simpa using (h v hv).2⟩
  exact ⟨_, induceCommunityGraph_eq hc, induced_induceRows _ _⟩

/-- The store graph of the one edge `1 - 2`. -/
def oneEdge : Store where
  batches := [[1, 2]]
  neighbors v := if v = 1 then [2] else if v = 2 then [1] else []
  degree v := if v = 1 ∨ v = 2 then 1 else 0
  numberOfEdges := 1

end UStore.Louvain
