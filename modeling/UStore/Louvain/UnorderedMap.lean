import Mathlib.Data.List.Nodup

/-!
# Unordered maps

The Louvain fragment keeps all of its state in `std::unordered_map`s keyed by
`ustore_key_t`: the partition, the vertex degrees, the community statistics and
the in-memory graph. A map is modelled by its entries in iteration order. The
standard leaves that order unspecified; nothing proved here depends on it beyond
what the code itself does with it.

The code touches a map in three ways:

* `m[k]` reads the entry under `k`, inserting a value-initialised one first when
  there is none: `get` is the value read, `touch` the insertion;
* `m[k] = v` and `m[k] op= v` overwrite the entry in place, or append one: `set`,
  `modify`;
* `m.at(k)` reads and throws `std::out_of_range` when there is no entry: `find?`,
  with `none` for the throw.

Value-initialisation gives `0` for `double` and `ustore_key_t`, `{0, 0}` for
`community_degree_t` and the empty map for a map, which is Lean's `default` for the
model's types.
-/

namespace UStore.Louvain

/-- `ustore_key_t`: the id of a vertex, and of a community. -/
abbrev Key := ℤ

/-- An `std::unordered_map` keyed by `ustore_key_t`: its entries, in iteration order. -/
abbrev UMap (α : Type) := List (Key × α)

namespace UMap

variable {α : Type}

/-- The entry under `k`, if any: what `find` and `at` see. -/
def find? : UMap α → Key → Option α
  | [], _ => none
  | e :: m, k => if e.1 = k then some e.2 else find? m k

/-- The keys, in iteration order. -/
def keys (m : UMap α) : List Key := m.map Prod.fst

/-- The value `m[k]` reads: the entry's, or a value-initialised one. -/
def get [Inhabited α] (m : UMap α) (k : Key) : α := (m.find? k).getD default

/-- The insertion `m[k]` makes when `k` has no entry. -/
def touch [Inhabited α] (m : UMap α) (k : Key) : UMap α :=
  if (m.find? k).isSome then m else m ++ [(k, default)]

/-- A loop of `m[k]` reads, one for each key in turn. -/
def touchAll [Inhabited α] (m : UMap α) (ks : List Key) : UMap α := ks.foldl touch m

/-- `m[k] = v`: overwrite the entry under `k` in place, or append one. -/
def set (m : UMap α) (k : Key) (v : α) : UMap α :=
  if (m.find? k).isSome then m.map (fun e => if e.1 = k then (k, v) else e) else m ++ [(k, v)]

/-- `m[k] op= …`: store `f` of the value `m[k]` reads. -/
def modify [Inhabited α] (m : UMap α) (k : Key) (f : α → α) : UMap α := m.set k (f (m.get k))

/-- Every key has one entry, as in a real map. -/
def NodupKeys (m : UMap α) : Prop := m.keys.Nodup

/-! ### Lookups -/

@[simp] theorem find?_nil (k : Key) : find? ([] : UMap α) k = none := rfl

theorem find?_cons (e : Key × α) (m : UMap α) (k : Key) :
    find? (e :: m) k = if e.1 = k then some e.2 else find? m k := rfl

@[simp] theorem keys_nil : keys ([] : UMap α) = [] := rfl

@[simp] theorem keys_cons (e : Key × α) (m : UMap α) : keys (e :: m) = e.1 :: keys m := rfl

@[simp] theorem keys_append (m m' : UMap α) : keys (m ++ m') = keys m ++ keys m' :=
  List.map_append _ _ _

theorem find?_eq_none {m : UMap α} {k : Key} : m.find? k = none ↔ k ∉ m.keys := by
  induction m with
  | nil => simp
  | cons e m ih => by_cases h : e.1 = k <;> simp [find?_cons, h, ih, Ne.symm]

theorem isSome_find? {m : UMap α} {k : Key} : (m.find? k).isSome ↔ k ∈ m.keys := by
  rw [← not_iff_not, Option.not_isSome_iff_eq_none, find?_eq_none]

theorem find?_of_mem {m : UMap α} {k : Key} {v : α} (hnd : m.NodupKeys) (h : (k, v) ∈ m) :
    m.find? k = some v := by
  induction m with
  | nil => cases h
  | cons e m ih =>
    simp only [NodupKeys, keys_cons, List.nodup_cons] at hnd
    rcases List.mem_cons.1 h with rfl | h
    · simp [find?_cons]
    · have hk : e.1 ≠ k := fun hek => hnd.1 (hek ▸ List.mem_map_of_mem Prod.fst h)
      rw [find?_cons, if_neg hk, ih hnd.2 h]

theorem mem_of_find? {m : UMap α} {k : Key} {v : α} (h : m.find? k = some v) : (k, v) ∈ m := by
  induction m with
  | nil => cases h
  | cons e m ih =>
    rw [find?_cons] at h
    split at h
    · cases h; subst k; exact List.mem_cons_self _ _
    · exact List.mem_cons_of_mem _ (ih h)

theorem find?_eq_some_get [Inhabited α] {m : UMap α} {k : Key} (h : k ∈ m.keys) :
    m.find? k = some (m.get k) := by
  obtain ⟨v, hv⟩ := Option.isSome_iff_exists.1 (isSome_find?.2 h)
  simp [get, hv]

theorem get_eq_of_find? [Inhabited α] {m : UMap α} {k : Key} {v : α} (h : m.find? k = some v) :
    m.get k = v := by simp [get, h]

theorem get_of_mem [Inhabited α] {m : UMap α} {k : Key} {v : α} (hnd : m.NodupKeys) (h : (k, v) ∈ m) :
    m.get k = v := get_eq_of_find? (find?_of_mem hnd h)

theorem get_eq_default [Inhabited α] {m : UMap α} {k : Key} (h : k ∉ m.keys) : m.get k = default := by
  simp [get, find?_eq_none.2 h]

/-- `m[k]` reads an entry of `m`, or the default. -/
theorem get_mem_or_eq_default [Inhabited α] (m : UMap α) (k : Key) :
    (k, m.get k) ∈ m ∨ m.get k = default := by
  cases h : m.find? k with
  | none => exact .inr (by simp [get, h])
  | some v => exact .inl (by simpa [get, h] using mem_of_find? h)

theorem find?_append_singleton (m : UMap α) (k k' : Key) (v : α) :
    find? (m ++ [(k, v)]) k' = (find? m k').elim (if k = k' then some v else none) some := by
  induction m with
  | nil => simp [find?_cons]
  | cons e m ih => by_cases h : e.1 = k' <;> simp [find?_cons, h, ih]

theorem find?_map_replace (m : UMap α) (k k' : Key) (v : α) :
    find? (m.map fun e => if e.1 = k then (k, v) else e) k' =
      if k' = k then (find? m k').map fun _ => v else find? m k' := by
  induction m with
  | nil => simp
  | cons e m ih =>
    simp only [List.map_cons, find?_cons, ih]
    by_cases he : e.1 = k
    · by_cases hk : k' = k
      · subst hk; simp [he]
      · simp [he, hk, Ne.symm hk]
    · by_cases hk : e.1 = k'
      · have hk' : k' ≠ k := hk ▸ he
        simp [he, hk, hk']
      · simp [he, hk]

@[simp] theorem find?_set (m : UMap α) (k k' : Key) (v : α) :
    (m.set k v).find? k' = if k' = k then some v else m.find? k' := by
  unfold set
  split
  · rw [find?_map_replace]
    split
    · subst k'; obtain ⟨x, hx⟩ := Option.isSome_iff_exists.1 ‹_›; simp [hx]
    · rfl
  · rw [find?_append_singleton]
    split
    · subst k'; simp_all
    · cases h : m.find? k' <;> simp [Ne.symm ‹_›]

@[simp] theorem find?_touch [Inhabited α] (m : UMap α) (k k' : Key) :
    (m.touch k).find? k' = if k' = k then some (m.get k) else m.find? k' := by
  unfold touch get
  split
  · split
    · subst k'; obtain ⟨x, hx⟩ := Option.isSome_iff_exists.1 ‹_›; simp [hx]
    · rfl
  · rw [find?_append_singleton]
    split
    · subst k'; simp_all
    · cases h : m.find? k' <;> simp [Ne.symm ‹_›]

@[simp] theorem get_set [Inhabited α] (m : UMap α) (k k' : Key) (v : α) :
    (m.set k v).get k' = if k' = k then v else m.get k' := by
  simp only [get, find?_set]; split <;> rfl

@[simp] theorem get_touch [Inhabited α] (m : UMap α) (k k' : Key) : (m.touch k).get k' = m.get k' := by
  simp only [get, find?_touch]; split <;> simp_all [get]

@[simp] theorem get_touchAll [Inhabited α] (m : UMap α) (ks : List Key) (k : Key) :
    (m.touchAll ks).get k = m.get k := by
  induction ks generalizing m with
  | nil => rfl
  | cons k' ks ih => exact (ih (m.touch k')).trans (get_touch m k' k)

@[simp] theorem find?_modify [Inhabited α] (m : UMap α) (k k' : Key) (f : α → α) :
    (m.modify k f).find? k' = if k' = k then some (f (m.get k)) else m.find? k' := find?_set _ _ _ _

theorem get_set_eq_update [Inhabited α] (m : UMap α) (k : Key) (v : α) :
    (m.set k v).get = Function.update m.get k v := by
  funext k'; by_cases h : k' = k
  · subst h; simp
  · simp [h]

theorem get_touchAll_eq [Inhabited α] (m : UMap α) (ks : List Key) : (m.touchAll ks).get = m.get :=
  funext (get_touchAll m ks)

theorem get_touch_eq [Inhabited α] (m : UMap α) (k : Key) : (m.touch k).get = m.get :=
  funext (get_touch m k)

/-- The insertions a step of the local moves makes before it reads the partition. -/
theorem get_touch_touchAll [Inhabited α] (m : UMap α) (k : Key) (ks : List Key) :
    ((m.touch k).touchAll ks).get = m.get := by
  rw [get_touchAll_eq, get_touch_eq]

@[simp] theorem get_modify [Inhabited α] (m : UMap α) (k k' : Key) (f : α → α) :
    (m.modify k f).get k' = if k' = k then f (m.get k) else m.get k' := get_set _ _ _ _

/-- The lookups after a loop of `m[κ b] = f b`, when every `b` with key `k` sets the
same value `a`. -/
theorem get_foldl_set {β : Type} [Inhabited α] (l : List β) (κ : β → Key) (f : β → α) (m : UMap α)
    (k : Key) (a : α) (hf : ∀ b ∈ l, κ b = k → f b = a) :
    (l.foldl (fun m b => m.set (κ b) (f b)) m).get k = if k ∈ l.map κ then a else m.get k := by
  induction l generalizing m with
  | nil => simp
  | cons b l ih =>
    rw [List.foldl_cons, ih _ fun b' hb' => hf b' (List.mem_cons_of_mem _ hb'), get_set]
    by_cases h : k = κ b
    · simp [h, hf b (List.mem_cons_self _ _) h.symm]
    · simp [h]

/-! ### Maps with the same entries

Two maps with the same lookups are the same `std::unordered_map`, whatever the order of
their entries; every operation of the code keeps them so. -/

theorem get_congr [Inhabited α] {m m' : UMap α} (h : m.find? = m'.find?) : m.get = m'.get := by
  funext k; simp only [get, h]

/-- Rewriting every value keeps the keys, and each lookup sees the new value. -/
theorem find?_map_snd {β : Type} (m : UMap α) (f : α → β) (k : Key) :
    find? (m.map fun e => (e.1, f e.2)) k = (m.find? k).map f := by
  induction m with
  | nil => rfl
  | cons e m ih => simp only [List.map_cons, find?_cons, ih]; split <;> rfl

/-- A lookup is the value `m[k]` reads, when there is an entry. -/
theorem find?_eq_ite [Inhabited α] (m : UMap α) (k : Key) :
    m.find? k = if (m.find? k).isSome then some (m.get k) else none := by
  cases h : m.find? k <;> simp [get, h]

theorem find?_touchAll [Inhabited α] (m : UMap α) (ks : List Key) (k : Key) :
    (m.touchAll ks).find? k = if (m.find? k).isNone ∧ k ∈ ks then some default else m.find? k := by
  induction ks generalizing m with
  | nil => simp [touchAll]
  | cons k' ks ih =>
    rw [touchAll, List.foldl_cons, ← touchAll, ih, find?_touch]
    by_cases hk : k = k'
    · subst hk; cases h : m.find? k <;> simp [get, h]
    · simp only [hk, if_false, List.mem_cons, false_or]

theorem find?_touch_congr [Inhabited α] {m m' : UMap α} (h : m.find? = m'.find?) (k : Key) :
    (m.touch k).find? = (m'.touch k).find? := by
  funext k'; simp only [find?_touch, h, get_congr h]

theorem find?_touchAll_congr [Inhabited α] {m m' : UMap α} (h : m.find? = m'.find?) {ks ks' : List Key}
    (hks : ∀ k, k ∈ ks ↔ k ∈ ks') : (m.touchAll ks).find? = (m'.touchAll ks').find? := by
  funext k; simp only [find?_touchAll, h, hks]

theorem find?_set_congr {m m' : UMap α} (h : m.find? = m'.find?) (k : Key) (v : α) :
    (m.set k v).find? = (m'.set k v).find? := by
  funext k'; simp only [find?_set, h]

theorem find?_modify_congr [Inhabited α] {m m' : UMap α} (h : m.find? = m'.find?) (k : Key) (f : α → α) :
    (m.modify k f).find? = (m'.modify k f).find? := by
  funext k'; simp only [find?_modify, h, get_congr h]

/-! ### Keys -/

theorem keys_set (m : UMap α) (k : Key) (v : α) :
    (m.set k v).keys = if k ∈ m.keys then m.keys else m.keys ++ [k] := by
  unfold set
  by_cases h : k ∈ m.keys
  · rw [if_pos (isSome_find?.2 h), if_pos h, keys, List.map_map]
    congr 1; funext e; by_cases he : e.1 = k <;> simp [he]
  · rw [if_neg (mt isSome_find?.1 h), if_neg h]; simp [keys]

theorem keys_touch [Inhabited α] (m : UMap α) (k : Key) :
    (m.touch k).keys = if k ∈ m.keys then m.keys else m.keys ++ [k] := by
  unfold touch
  by_cases h : k ∈ m.keys
  · rw [if_pos (isSome_find?.2 h), if_pos h]
  · rw [if_neg (mt isSome_find?.1 h), if_neg h]; simp [keys]

theorem mem_keys_set {m : UMap α} {k k' : Key} {v : α} : k' ∈ (m.set k v).keys ↔ k' = k ∨ k' ∈ m.keys := by
  rw [keys_set]; split <;> simp_all [or_comm]

theorem mem_keys_touch [Inhabited α] {m : UMap α} {k k' : Key} :
    k' ∈ (m.touch k).keys ↔ k' = k ∨ k' ∈ m.keys := by
  rw [keys_touch]; split <;> simp_all [or_comm]

theorem NodupKeys.set {m : UMap α} (h : m.NodupKeys) (k : Key) (v : α) : (m.set k v).NodupKeys := by
  unfold NodupKeys; rw [keys_set]; split
  · exact h
  · exact List.nodup_append.2 ⟨h, List.nodup_singleton k, List.disjoint_singleton.2 ‹_›⟩

theorem NodupKeys.modify [Inhabited α] {m : UMap α} (h : m.NodupKeys) (k : Key) (f : α → α) :
    (m.modify k f).NodupKeys := h.set _ _

end UMap

end UStore.Louvain
