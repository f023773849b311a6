import UStore.Louvain.Equivalence

/-!
# What a local-move loop guarantees when it stops

`first_phase` and `second_phase` stop when a sweep moves no vertex. Such a sweep only
inserts default entries with `operator[]`, so the lookups stay as they were and every
vertex is scanned, in that sweep, against the partition and statistics the loop returns.
A vertex stays where it is exactly when no neighbouring community has a positive
`delta`: the scan starts from `best_mod = 0`, and once it has left the vertex's own
community it never comes back to it. The loop therefore returns a local optimum of its
own gain.

That gain is the `delta` of lines 69-71 and 129-131 computed from the statistics the
loop keeps, which are not those of Newman's modularity (`delta_path_ne_newman_gain`):
the optimum is one of `delta`, not of `Q`.

## What is proved

* `localMove_no_positive_delta`: when the `while (modified)` loop returns, one more
  sweep would move nothing, and no vertex has a neighbour in another community with a
  positive `delta`.
-/

namespace UStore.Louvain

variable {countEdges : UInt64} {degrees : VertexDegrees}

/-! ### The scan for the best community -/

section Scan

variable {P : Partition} {S : CommunityDegrees} {t : Key → ℚ} {d : ℚ} {A : Key} {tA kA : ℚ}

theorem candidate_snd_ne {best : ℚ × Key} (h : best.2 ≠ A) (e : Key × ℚ) :
    (candidate countEdges P S t d A tA kA best e).2 ≠ A := by
  dsimp only [candidate]
  split
  · exact h
  · split
    · exact Ne.symm ‹_›
    · exact h

theorem foldl_candidate_snd_ne (l : UMap ℚ) {best : ℚ × Key} (h : best.2 ≠ A) :
    (l.foldl (candidate countEdges P S t d A tA kA) best).2 ≠ A := by
  induction l generalizing best with
  | nil => exact h
  | cons e l ih => exact ih (candidate_snd_ne h e)

/-- The scan keeps the vertex's own community exactly when no neighbour in another
community has a positive `delta`. -/
theorem foldl_candidate_eq_self_iff (l : UMap ℚ) :
    (l.foldl (candidate countEdges P S t d A tA kA) (0, A)).2 = A ↔
      ∀ e ∈ l, P.get e.1 ≠ A → delta countEdges d (t (P.get e.1)) kA (S.get (P.get e.1)).totDegree tA ≤ 0 := by
  induction l with
  | nil => simp
  | cons e l ih =>
    rw [List.foldl_cons, List.forall_mem_cons]
    by_cases hA : A = P.get e.1
    · rw [show candidate countEdges P S t d A tA kA (0, A) e = (0, A) from if_pos hA, ih]
      exact ⟨fun h => ⟨fun h' => absurd hA.symm h', h⟩, fun h => h.2⟩
    · by_cases hd : delta countEdges d (t (P.get e.1)) kA (S.get (P.get e.1)).totDegree tA > 0
      · rw [show candidate countEdges P S t d A tA kA (0, A) e =
            (delta countEdges d (t (P.get e.1)) kA (S.get (P.get e.1)).totDegree tA, P.get e.1) by
          simp only [candidate, if_neg hA, if_pos hd]]
        exact iff_of_false (foldl_candidate_snd_ne l (Ne.symm hA))
          fun h => absurd (h.1 (Ne.symm hA)) (not_le.2 hd)
      · rw [show candidate countEdges P S t d A tA kA (0, A) e = (0, A) by
          simp only [candidate, if_neg hA, if_neg hd], ih]
        exact ⟨fun h => ⟨fun _ => not_lt.1 hd, h⟩, fun h => h.2⟩

end Scan

theorem bestCommunity_eq_self_iff (countEdges : UInt64) (P : Partition) (S : CommunityDegrees)
    (t : Key → ℚ) (d : ℚ) (A : Key) (ns : UMap ℚ) :
    bestCommunity countEdges P S t d A ns = A ↔
      ∀ e ∈ ns, P.get e.1 ≠ A →
        delta countEdges d (t (P.get e.1)) (t A) (S.get (P.get e.1)).totDegree (S.get A).totDegree ≤ 0 :=
  foldl_candidate_eq_self_iff ns

/-! ### Moves that do not happen -/

/-- Whether a vertex moves, read off the state before the insertions of `operator[]`:
exactly when its best community is not its own. -/
theorem moveVertex_fst (countEdges : UInt64) (degrees : VertexDegrees) (v : Key) (ns : UMap ℚ) (s : State) :
    (moveVertex countEdges degrees v ns s).1 =
      decide (bestCommunity countEdges s.partition s.communityDegrees (degreeInComs s.partition ns)
        (degrees.get v) (s.partition.get v) ns ≠ s.partition.get v) := by
  simp only [moveVertex, UMap.get_touch]
  rw [bestCommunity_congr countEdges (UMap.get_touch_touchAll _ _ _) (UMap.get_touch_touchAll _ _ _),
    degreeInComs_congr (UMap.get_touch_touchAll _ _ _)]
  split <;> simp [*]

/-- Whether a vertex moves depends only on what `m[k]` reads in the two maps. -/
theorem moveVertex_fst_congr {s s' : State} (hP : s.partition.get = s'.partition.get)
    (hS : s.communityDegrees.get = s'.communityDegrees.get) (v : Key) (ns : UMap ℚ) :
    (moveVertex countEdges degrees v ns s).1 = (moveVertex countEdges degrees v ns s').1 := by
  rw [moveVertex_fst, moveVertex_fst, degreeInComs_congr hP, bestCommunity_congr countEdges hP hS, hP]

/-- A vertex that does not move leaves what `m[k]` reads as it was. -/
theorem get_moveVertex_of_fst_eq_false {v : Key} {ns : UMap ℚ} {s : State}
    (h : (moveVertex countEdges degrees v ns s).1 = false) :
    (moveVertex countEdges degrees v ns s).2.partition.get = s.partition.get ∧
      (moveVertex countEdges degrees v ns s).2.communityDegrees.get = s.communityDegrees.get := by
  simp only [moveVertex] at h ⊢
  split at h
  · cases h
  · rw [if_neg ‹_›]
    exact ⟨UMap.get_touch_touchAll _ _ _, UMap.get_touch_touchAll _ _ _⟩

/-! ### Sweeps that move nothing -/

theorem foldl_sweep (R : Graph) (b : Bool) (s : State) :
    R.foldl (fun acc r => let m := moveVertex countEdges degrees r.1 r.2 acc.2; (acc.1 || m.1, m.2)) (b, s) =
      (b || (sweep countEdges degrees R s).1, (sweep countEdges degrees R s).2) := by
  induction R generalizing b s with
  | nil => simp [sweep]
  | cons r R ih =>
    rw [sweep, List.foldl_cons, List.foldl_cons, ih, ih]
    simp only [Bool.false_or, Bool.or_assoc]

/-- A sweep is its first vertex's move, then a sweep over the rest. -/
theorem sweep_cons (r : Key × UMap ℚ) (R : Graph) (s : State) :
    sweep countEdges degrees (r :: R) s =
      ((moveVertex countEdges degrees r.1 r.2 s).1 ||
          (sweep countEdges degrees R (moveVertex countEdges degrees r.1 r.2 s).2).1,
        (sweep countEdges degrees R (moveVertex countEdges degrees r.1 r.2 s).2).2) :=
  (foldl_sweep R _ _).trans (by rw [Bool.false_or])

/-- A sweep moves nothing exactly when no vertex would move from the state it starts in. -/
theorem sweep_fst_eq_false_iff {R : Graph} {s : State} :
    (sweep countEdges degrees R s).1 = false ↔ ∀ r ∈ R, (moveVertex countEdges degrees r.1 r.2 s).1 = false := by
  induction R generalizing s with
  | nil => simp [sweep]
  | cons r R ih =>
    rw [sweep_cons, Bool.or_eq_false_iff, List.forall_mem_cons]
    refine and_congr_right fun hr => ?_
    obtain ⟨hP, hS⟩ := get_moveVertex_of_fst_eq_false hr
    rw [ih]
    exact forall₂_congr fun r' _ => by rw [moveVertex_fst_congr hP hS]

/-- A sweep that moves nothing leaves what `m[k]` reads as it was. -/
theorem get_sweep_of_fst_eq_false {R : Graph} {s : State} (h : (sweep countEdges degrees R s).1 = false) :
    (sweep countEdges degrees R s).2.partition.get = s.partition.get ∧
      (sweep countEdges degrees R s).2.communityDegrees.get = s.communityDegrees.get := by
  induction R generalizing s with
  | nil => exact ⟨rfl, rfl⟩
  | cons r R ih =>
    rw [sweep_cons, Bool.or_eq_false_iff] at h
    obtain ⟨hP, hS⟩ := get_moveVertex_of_fst_eq_false h.1
    obtain ⟨hP', hS'⟩ := ih h.2
    rw [sweep_cons]
    exact ⟨hP'.trans hP, hS'.trans hS⟩

/-- The `while (modified)` loop returns the state its last sweep ended in, a sweep that
moved nothing. -/
theorem localMove_last_sweep {R : Graph} {fuel : ℕ} {improvement b : Bool} {s s' : State}
    (h : localMove countEdges degrees R fuel improvement s = some (b, s')) :
    ∃ s₀, (sweep countEdges degrees R s₀).1 = false ∧ (sweep countEdges degrees R s₀).2 = s' := by
  induction fuel generalizing improvement s with
  | zero => cases h
  | succ fuel ih =>
    simp only [localMove] at h
    split at h
    · exact ih h
    · cases h
      exact ⟨s, Bool.eq_false_iff.2 ‹_›, rfl⟩

/-- **The loop stops at a local optimum of its gain.** When the `while (modified)` loop
of `first_phase` or `second_phase` returns, one more sweep would move nothing, and for
every vertex and every neighbour in another community, the `delta` of moving the vertex
there, computed from the returned partition and statistics, is not positive. -/
theorem localMove_no_positive_delta {R : Graph} {fuel : ℕ} {improvement b : Bool} {s s' : State}
    (h : localMove countEdges degrees R fuel improvement s = some (b, s')) :
    (sweep countEdges degrees R s').1 = false ∧
      ∀ r ∈ R, ∀ e ∈ r.2, s'.partition.get e.1 ≠ s'.partition.get r.1 →
        delta countEdges (degrees.get r.1) (degreeInComs s'.partition r.2 (s'.partition.get e.1))
          (degreeInComs s'.partition r.2 (s'.partition.get r.1))
          (s'.communityDegrees.get (s'.partition.get e.1)).totDegree
          (s'.communityDegrees.get (s'.partition.get r.1)).totDegree ≤ 0 := by
  obtain ⟨s₀, hsweep, rfl⟩ := localMove_last_sweep h
  obtain ⟨hP, hS⟩ := get_sweep_of_fst_eq_false hsweep
  have hstay : ∀ r ∈ R, (moveVertex countEdges degrees r.1 r.2 (sweep countEdges degrees R s₀).2).1 = false :=
    fun r hr => (moveVertex_fst_congr hP hS r.1 r.2).trans (sweep_fst_eq_false_iff.1 hsweep r hr)
  refine ⟨sweep_fst_eq_false_iff.2 hstay, fun r hr => ?_⟩
  have hbest := hstay r hr
  rwa [moveVertex_fst, decide_eq_false_iff_not, not_not, bestCommunity_eq_self_iff] at hbest

/-- On the edge `1 - 2`, `first_phase` returns a state from which no sweep moves a vertex. -/
theorem oneEdge_firstPhase_settled :
    ∃ s, firstPhase 3 oneEdge (initialState oneEdge).2.partition (initialState oneEdge).1
        (initialState oneEdge).2.communityDegrees oneEdge.numberOfEdges = some (true, s) ∧
      (sweep oneEdge.numberOfEdges (initialState oneEdge).1 oneEdge.rows s).1 = false :=
  ⟨_, firstPhase_oneEdge, (localMove_no_positive_delta firstPhase_oneEdge).1⟩

end UStore.Louvain
