import Tenderdash.Mempool.CList
import Tenderdash.Lib.Lru

/-!
# `mapTxCache`

`mapTxCache` (clist_mempool.go) keeps the keys of the transactions it has seen in
a `container/list`, least recently used first, and a map from each key to its
element of that list.  An element is modelled by an id, handed out in order by
`PushBack`, and the list by its elements front first, each with the key it holds.

`Linked` is what keeps the map and the list together: the map sends a key to an
element exactly when that element holds the key, and the list holds each key
once.  `Push`, `Remove` and `Reset` keep it and do to the keys what the mempool
model's `TxCache` does (`push_toTxCache`, `remove_toTxCache`), and `TxCache` is
an `LruSet` of capacity `size` (`TxCache.push_lru`).  `run_lru` carries this over
every run of calls, and the capacity of the list is then the one the `LruSet`
carries as a field.
-/

namespace Tenderdash.Mempool

/-- `mapTxCache`: its capacity, `cacheMap` from a key to the id of its element,
and `list`, front first, each element with its id and key.  `next` is the id the
next `PushBack` allocates. -/
structure MapTxCache (κ : Type) where
  size : ℤ
  cacheMap : κ → Option ℕ
  list : List (ℕ × κ)
  next : ℕ

/-- A call on the cache. -/
inductive CacheCall where
  | push (tx : Tx)
  | remove (tx : Tx)
  | reset
deriving DecidableEq, Repr

variable {κ : Type} [DecidableEq κ] (txKey : Tx → κ)

/-- `newMapTxCache`. -/
def newMapTxCache (cacheSize : ℤ) : MapTxCache κ :=
  ⟨cacheSize, fun _ ↦ none, [], 0⟩

/-- `list.Remove(e)`. -/
def listRemove (list : List (ℕ × κ)) (e : ℕ) : List (ℕ × κ) :=
  list.filter (·.1 != e)

/-- `list.MoveToBack(e)`.  The source returns early when `e` is already last,
which leaves the same list. -/
def moveToBack (list : List (ℕ × κ)) (e : ℕ) : List (ℕ × κ) :=
  match list.find? (·.1 == e) with
  | some elem => listRemove list e ++ [elem]
  | none => list

namespace MapTxCache

/-- The keys of `list`, front first. -/
def keys (cache : MapTxCache κ) : List κ := cache.list.map (·.2)

/-- `e := list.PushBack(txHash)` and `cacheMap[txHash] = e`. -/
def pushBack (cache : MapTxCache κ) (txHash : κ) : MapTxCache κ :=
  { cache with
    cacheMap := Function.update cache.cacheMap txHash (some cache.next)
    list := cache.list ++ [(cache.next, txHash)]
    next := cache.next + 1 }

/-- The eviction in `Push`: the front element, if there is one, leaves the map
and the list. -/
def popFront (cache : MapTxCache κ) : MapTxCache κ :=
  match cache.list.head? with
  | some popped =>
    { cache with
      cacheMap := Function.update cache.cacheMap popped.2 none
      list := listRemove cache.list popped.1 }
  | none => cache

/-- `Push`. -/
def push (tx : Tx) (cache : MapTxCache κ) : MapTxCache κ × Bool :=
  let txHash := txKey tx
  match cache.cacheMap txHash with
  | some moved => ({ cache with list := moveToBack cache.list moved }, false)
  | none =>
    let cache := if cache.size ≤ cache.list.length then cache.popFront else cache
    (cache.pushBack txHash, true)

/-- `Remove`. -/
def remove (tx : Tx) (cache : MapTxCache κ) : MapTxCache κ :=
  let txHash := txKey tx
  let popped := cache.cacheMap txHash
  let cache := { cache with cacheMap := Function.update cache.cacheMap txHash none }
  match popped with
  | some e => { cache with list := listRemove cache.list e }
  | none => cache

/-- `Reset`: a new map, and the list initialised again in place. -/
def reset (cache : MapTxCache κ) : MapTxCache κ :=
  { cache with cacheMap := fun _ ↦ none, list := [] }

/-- A run of calls, with what each `Push` returned. -/
def run : MapTxCache κ → List CacheCall → MapTxCache κ × List Bool
  | cache, [] => (cache, [])
  | cache, .push tx :: calls =>
    let r := run (cache.push txKey tx).1 calls
    (r.1, (cache.push txKey tx).2 :: r.2)
  | cache, .remove tx :: calls => run (cache.remove txKey tx) calls
  | cache, .reset :: calls => run cache.reset calls

/-- The mempool model's view of the cache: its capacity and its keys. -/
def toTxCache (cache : MapTxCache κ) : TxCache κ := .map cache.size cache.keys

end MapTxCache

/-- The operation on keys that a call makes. -/
def CacheCall.toOp : CacheCall → LruSet.Op κ
  | .push tx => .push (txKey tx)
  | .remove tx => .erase (txKey tx)
  | .reset => .reset

/-! ## Lists of elements

Ids are unique in the list, so removing an element by id and moving it to the
back act on its key as `erase` does. -/

section Elements

variable {list : List (ℕ × κ)} {e : ℕ} {k : κ}

omit [DecidableEq κ] in
theorem mem_listRemove {p : ℕ × κ} : p ∈ listRemove list e ↔ p ∈ list ∧ p.1 ≠ e := by
  simp [listRemove]

omit [DecidableEq κ] in
theorem listRemove_sublist : (listRemove list e).Sublist list := List.filter_sublist

omit [DecidableEq κ] in
theorem eq_of_mem_of_fst_eq (hnd : (list.map (·.1)).Nodup) {p q : ℕ × κ} (hp : p ∈ list)
    (hq : q ∈ list) (h : p.1 = q.1) : p = q :=
  List.inj_on_of_nodup_map hnd hp hq h

omit [DecidableEq κ] in
theorem eq_of_mem_of_snd_eq (hnd : (list.map (·.2)).Nodup) {p q : ℕ × κ} (hp : p ∈ list)
    (hq : q ∈ list) (h : p.2 = q.2) : p = q :=
  List.inj_on_of_nodup_map hnd hp hq h

omit [DecidableEq κ] in
theorem listRemove_cons_self {t : List (ℕ × κ)} (he : e ∉ t.map (·.1)) :
    listRemove ((e, k) :: t) e = t := by
  rw [listRemove, List.filter_cons_of_neg (by simp), List.filter_eq_self]
  intro p hp
  have hpe : p.1 ≠ e := fun h ↦ he (List.mem_map.mpr ⟨p, hp, h⟩)
  simpa using hpe

omit [DecidableEq κ] in
theorem listRemove_cons_of_ne {a : ℕ} {b : κ} {t : List (ℕ × κ)} (hae : a ≠ e) :
    listRemove ((a, b) :: t) e = (a, b) :: listRemove t e :=
  List.filter_cons_of_pos (by simpa using hae)

/-- Removing the element of id `e`, which holds `k`, erases `k` from the keys. -/
theorem map_snd_listRemove :
    ∀ {list : List (ℕ × κ)}, (list.map (·.1)).Nodup → (list.map (·.2)).Nodup →
      (e, k) ∈ list → (listRemove list e).map (·.2) = (list.map (·.2)).erase k
  | [], _, _, h => absurd h List.not_mem_nil
  | (a, b) :: t, hids, hkeys, h => by
    have hids' := hids
    rw [List.map_cons, List.nodup_cons] at hids' hkeys
    by_cases hae : a = e
    · subst hae
      have hb : (a, b) = (a, k) :=
        eq_of_mem_of_fst_eq hids List.mem_cons_self h rfl
      cases hb
      rw [listRemove_cons_self hids'.1, List.map_cons, List.erase_cons_head]
    · have ht : (e, k) ∈ t := by
        rcases List.mem_cons.mp h with h | h
        · exact absurd (Prod.mk.inj h).1.symm hae
        · exact h
      have hbk : b ≠ k := by
        rintro rfl
        exact hkeys.1 (List.mem_map.mpr ⟨(e, b), ht, rfl⟩)
      rw [listRemove_cons_of_ne hae, List.map_cons, List.map_cons,
        List.erase_cons_tail (by simpa using hbk), map_snd_listRemove hids'.2 hkeys.2 ht]

omit [DecidableEq κ] in
theorem find?_eq_of_mem (hnd : (list.map (·.1)).Nodup) (h : (e, k) ∈ list) :
    list.find? (·.1 == e) = some (e, k) := by
  have hsome : (list.find? (·.1 == e)).isSome :=
    List.find?_isSome.mpr ⟨(e, k), h, by simp⟩
  obtain ⟨x, hx⟩ := Option.isSome_iff_exists.mp hsome
  have hxe : x.1 = e := by simpa using List.find?_some hx
  rw [hx, eq_of_mem_of_fst_eq hnd (List.mem_of_find?_eq_some hx) h hxe]

omit [DecidableEq κ] in
theorem moveToBack_of_mem (hnd : (list.map (·.1)).Nodup) (h : (e, k) ∈ list) :
    moveToBack list e = listRemove list e ++ [(e, k)] := by
  rw [moveToBack, find?_eq_of_mem hnd h]

omit [DecidableEq κ] in
/-- Moving an element of the list to the back keeps the same elements. -/
theorem mem_moveToBack (hnd : (list.map (·.1)).Nodup) (h : (e, k) ∈ list) {p : ℕ × κ} :
    p ∈ moveToBack list e ↔ p ∈ list := by
  rw [moveToBack_of_mem hnd h, List.mem_append, mem_listRemove, List.mem_singleton]
  constructor
  · rintro (⟨hp, -⟩ | rfl)
    · exact hp
    · exact h
  · intro hp
    by_cases hpe : p.1 = e
    · exact .inr (eq_of_mem_of_fst_eq hnd hp h hpe)
    · exact .inl ⟨hp, hpe⟩

end Elements

namespace MapTxCache

/-! ## The map and the list together -/

/-- The map and the list agree: `cacheMap` sends a key to an element exactly when
that element holds the key, the ids and the keys of the list are each held once,
and every id is below `next`. -/
structure Linked (cache : MapTxCache κ) : Prop where
  nodup_ids : (cache.list.map (·.1)).Nodup
  nodup_keys : cache.keys.Nodup
  lt_next : ∀ p ∈ cache.list, p.1 < cache.next
  cacheMap_eq_some : ∀ k e, cache.cacheMap k = some e ↔ (e, k) ∈ cache.list

variable {cache : MapTxCache κ} {k : κ} {e : ℕ}

omit [DecidableEq κ] in
@[simp] theorem length_keys : cache.keys.length = cache.list.length := List.length_map _

omit [DecidableEq κ] in
@[simp] theorem keys_reset : cache.reset.keys = [] := rfl

@[simp] theorem size_pushBack : (cache.pushBack k).size = cache.size := rfl

@[simp] theorem size_popFront : cache.popFront.size = cache.size := by
  unfold popFront
  split <;> rfl

@[simp] theorem keys_pushBack : (cache.pushBack k).keys = cache.keys ++ [k] := by
  simp [pushBack, keys]

/-- `Push` of a key in the map moves its element to the back. -/
theorem push_of_some {tx : Tx} (hk : cache.cacheMap (txKey tx) = some e) :
    cache.push txKey tx = ({ cache with list := moveToBack cache.list e }, false) := by
  simp [push, hk]

/-- `Push` of a key not in the map evicts the front element when the list is
full, then pushes the key to the back. -/
theorem push_of_none {tx : Tx} (hk : cache.cacheMap (txKey tx) = none) :
    cache.push txKey tx =
      ((if cache.size ≤ cache.list.length then cache.popFront else cache).pushBack (txKey tx),
        true) := by
  simp [push, hk]

theorem remove_of_some {tx : Tx} (hk : cache.cacheMap (txKey tx) = some e) :
    cache.remove txKey tx =
      { cache with
        cacheMap := Function.update cache.cacheMap (txKey tx) none
        list := listRemove cache.list e } := by
  simp [remove, hk]

/-- `Remove` of a key not in the map changes nothing. -/
theorem remove_of_none {tx : Tx} (hk : cache.cacheMap (txKey tx) = none) :
    cache.remove txKey tx = cache := by
  have hmap : Function.update cache.cacheMap (txKey tx) none = cache.cacheMap := by
    rw [← hk]
    exact Function.update_eq_self _ _
  simp [remove, hk, hmap]

omit [DecidableEq κ] in
theorem linked_newMapTxCache {cacheSize : ℤ} :
    Linked (newMapTxCache cacheSize : MapTxCache κ) where
  nodup_ids := List.nodup_nil
  nodup_keys := List.nodup_nil
  lt_next := by simp [newMapTxCache]
  cacheMap_eq_some := by simp [newMapTxCache]

omit [DecidableEq κ] in
theorem Linked.mem_keys (h : Linked cache) : k ∈ cache.keys ↔ ∃ e, cache.cacheMap k = some e := by
  simp only [keys, List.mem_map, h.cacheMap_eq_some]
  constructor
  · rintro ⟨⟨e, k⟩, hp, rfl⟩
    exact ⟨e, hp⟩
  · rintro ⟨e, hp⟩
    exact ⟨(e, k), hp, rfl⟩

omit [DecidableEq κ] in
theorem Linked.not_mem_keys (h : Linked cache) (hk : cache.cacheMap k = none) :
    k ∉ cache.keys := by
  rw [h.mem_keys]
  rintro ⟨e, he⟩
  rw [hk] at he
  cases he

omit [DecidableEq κ] in
theorem linked_reset : Linked cache.reset where
  nodup_ids := List.nodup_nil
  nodup_keys := List.nodup_nil
  lt_next := by simp [MapTxCache.reset]
  cacheMap_eq_some := by simp [MapTxCache.reset]

/-! ### `MoveToBack` -/

section MoveToBack

variable (h : Linked cache) (hk : cache.cacheMap k = some e)
include h hk

omit [DecidableEq κ] in
theorem Linked.mem_moveToBack {p : ℕ × κ} : p ∈ moveToBack cache.list e ↔ p ∈ cache.list :=
  Tenderdash.Mempool.mem_moveToBack h.nodup_ids ((h.cacheMap_eq_some k e).mp hk)

theorem Linked.keys_moveToBack :
    ({ cache with list := moveToBack cache.list e } : MapTxCache κ).keys =
      cache.keys.erase k ++ [k] := by
  have hmem := (h.cacheMap_eq_some k e).mp hk
  simp only [keys, moveToBack_of_mem h.nodup_ids hmem, List.map_append, List.map_singleton]
  rw [map_snd_listRemove h.nodup_ids h.nodup_keys hmem]

theorem Linked.moveToBack : Linked { cache with list := moveToBack cache.list e } := by
  have hmem := (h.cacheMap_eq_some k e).mp hk
  refine ⟨?_, ?_, ?_, ?_⟩
  · simp only [moveToBack_of_mem h.nodup_ids hmem, List.map_append, List.map_singleton]
    refine LruSet.nodup_append_singleton ((h.nodup_ids.sublist (listRemove_sublist.map _))) ?_
    intro he
    obtain ⟨p, hp, hpe⟩ := List.mem_map.mp he
    exact (mem_listRemove.mp hp).2 hpe
  · rw [h.keys_moveToBack hk]
    exact LruSet.nodup_erase_append_singleton h.nodup_keys k
  · intro p hp
    exact h.lt_next p ((h.mem_moveToBack hk).mp hp)
  · intro k' e'
    rw [h.cacheMap_eq_some k' e']
    exact (h.mem_moveToBack hk).symm

end MoveToBack

/-! ### Eviction and `PushBack` -/

theorem Linked.popFront (h : Linked cache) : Linked cache.popFront := by
  unfold MapTxCache.popFront
  rcases hl : cache.list with _ | ⟨⟨e₀, k₀⟩, t⟩
  · simpa [hl] using h
  · have hids := h.nodup_ids
    have hkeys := h.nodup_keys
    rw [hl, List.map_cons, List.nodup_cons] at hids
    rw [keys, hl, List.map_cons, List.nodup_cons] at hkeys
    simp only [List.head?_cons]
    rw [listRemove_cons_self hids.1]
    refine ⟨hids.2, hkeys.2, fun p hp ↦ h.lt_next p (by rw [hl]; exact List.mem_cons_of_mem _ hp), ?_⟩
    intro k' e'
    by_cases hk' : k' = k₀
    · subst hk'
      simp only [Function.update_self, reduceCtorEq, false_iff]
      exact fun hp ↦ hkeys.1 (List.mem_map.mpr ⟨(e', k'), hp, rfl⟩)
    · simp only [ne_eq, hk', not_false_eq_true, Function.update_of_ne]
      rw [h.cacheMap_eq_some, hl, List.mem_cons]
      constructor
      · rintro (hp | hp)
        · exact absurd (Prod.mk.inj hp).2 hk'
        · exact hp
      · exact .inr

theorem Linked.keys_popFront (h : Linked cache) : cache.popFront.keys = cache.keys.tail := by
  unfold MapTxCache.popFront
  rcases hl : cache.list with _ | ⟨⟨e₀, k₀⟩, t⟩
  · simp [keys, hl]
  · have hids := h.nodup_ids
    rw [hl, List.map_cons, List.nodup_cons] at hids
    simp [keys, hl, listRemove_cons_self hids.1]

theorem Linked.pushBack (h : Linked cache) (hk : k ∉ cache.keys) :
    Linked (cache.pushBack k) := by
  refine ⟨?_, ?_, ?_, ?_⟩
  · simp only [MapTxCache.pushBack, List.map_append, List.map_singleton]
    refine LruSet.nodup_append_singleton h.nodup_ids ?_
    intro hn
    obtain ⟨p, hp, hpn⟩ := List.mem_map.mp hn
    exact absurd hpn (Nat.ne_of_lt (h.lt_next p hp))
  · rw [keys_pushBack]
    exact LruSet.nodup_append_singleton h.nodup_keys hk
  · intro p hp
    simp only [MapTxCache.pushBack, List.mem_append, List.mem_singleton] at hp ⊢
    rcases hp with hp | rfl
    · exact Nat.lt_succ_of_lt (h.lt_next p hp)
    · exact Nat.lt_succ_self _
  · intro k' e'
    simp only [MapTxCache.pushBack, List.mem_append, List.mem_singleton, Prod.mk.injEq]
    by_cases hk' : k' = k
    · subst hk'
      have hnot : (e', k') ∉ cache.list :=
        fun hp ↦ hk (List.mem_map.mpr ⟨(e', k'), hp, rfl⟩)
      simp only [Function.update_self, Option.some.injEq, hnot, false_or, and_true]
      exact eq_comm
    · simp [h.cacheMap_eq_some, hk']

/-! ### `Push`, `Remove` and `Reset` -/

theorem Linked.push (h : Linked cache) (tx : Tx) : Linked (cache.push txKey tx).1 := by
  rcases hk : cache.cacheMap (txKey tx) with _ | moved
  · have hnot := h.not_mem_keys hk
    rw [push_of_none txKey hk]
    split_ifs
    · exact h.popFront.pushBack (fun hm ↦ hnot (List.mem_of_mem_tail (h.keys_popFront ▸ hm)))
    · exact h.pushBack hnot
  · rw [push_of_some txKey hk]
    exact h.moveToBack hk

/-- `Push` does to the keys what `TxCache.push` does, and returns the same. -/
theorem Linked.push_toTxCache (h : Linked cache) (tx : Tx) :
    Prod.map toTxCache id (cache.push txKey tx) = cache.toTxCache.push txKey tx := by
  rcases hk : cache.cacheMap (txKey tx) with _ | moved
  · have hnot := h.not_mem_keys hk
    rw [push_of_none txKey hk]
    by_cases hfull : cache.size ≤ cache.list.length
    · simp [toTxCache, TxCache.push, hnot, hfull, h.keys_popFront, List.drop_one]
    · simp [toTxCache, TxCache.push, hnot, hfull]
  · have hmem : txKey tx ∈ cache.keys := h.mem_keys.mpr ⟨moved, hk⟩
    rw [push_of_some txKey hk]
    simp [toTxCache, TxCache.push, hmem, h.keys_moveToBack hk]

theorem Linked.remove (h : Linked cache) (tx : Tx) : Linked (cache.remove txKey tx) := by
  rcases hk : cache.cacheMap (txKey tx) with _ | e
  · rw [remove_of_none txKey hk]
    exact h
  · have hmem := (h.cacheMap_eq_some _ e).mp hk
    rw [remove_of_some txKey hk]
    refine ⟨h.nodup_ids.sublist (listRemove_sublist.map _), ?_, ?_, ?_⟩
    · show ((listRemove cache.list e).map (·.2)).Nodup
      rw [map_snd_listRemove h.nodup_ids h.nodup_keys hmem]
      exact h.nodup_keys.erase _
    · exact fun p hp ↦ h.lt_next p (mem_listRemove.mp hp).1
    · intro k' e'
      simp only [mem_listRemove]
      by_cases hk' : k' = txKey tx
      · rw [hk', Function.update_self]
        simp only [reduceCtorEq, false_iff, not_and]
        intro hp hne
        exact hne (Prod.mk.inj (eq_of_mem_of_snd_eq h.nodup_keys hp hmem rfl)).1
      · rw [Function.update_of_ne hk', h.cacheMap_eq_some]
        constructor
        · intro hp
          refine ⟨hp, fun he ↦ hk' ?_⟩
          subst he
          exact (Prod.mk.inj (eq_of_mem_of_fst_eq h.nodup_ids hp hmem rfl)).2
        · exact And.left

theorem Linked.keys_remove (h : Linked cache) (tx : Tx) :
    (cache.remove txKey tx).keys = cache.keys.erase (txKey tx) := by
  rcases hk : cache.cacheMap (txKey tx) with _ | e
  · rw [remove_of_none txKey hk, List.erase_of_not_mem (h.not_mem_keys hk)]
  · rw [remove_of_some txKey hk]
    exact map_snd_listRemove h.nodup_ids h.nodup_keys ((h.cacheMap_eq_some _ e).mp hk)

theorem size_remove (tx : Tx) : (cache.remove txKey tx).size = cache.size := by
  rcases hk : cache.cacheMap (txKey tx) with _ | e
  · rw [remove_of_none txKey hk]
  · rw [remove_of_some txKey hk]

/-- `Remove` does to the keys what `TxCache.remove` does. -/
theorem Linked.remove_toTxCache (h : Linked cache) (tx : Tx) :
    (cache.remove txKey tx).toTxCache = cache.toTxCache.remove txKey tx := by
  simp [toTxCache, TxCache.remove, size_remove, h.keys_remove]

end MapTxCache

/-! ## The cache is an LRU set -/

section Lru

variable {cap : ℕ} (hcap : 0 < cap)

/-- The mempool model's `Push` on the keys of an LRU set of the same capacity is
the LRU set's `push`. -/
theorem TxCache.push_lru (l : LruSet κ cap) (tx : Tx) {size : ℤ} (hsize : size = cap) :
    TxCache.push txKey tx (.map size l.keys) =
      (.map size (l.push hcap (txKey tx)).1.keys, (l.push hcap (txKey tx)).2) := by
  have hlen := l.length_le
  by_cases hmem : txKey tx ∈ l.keys
  · obtain ⟨hkeys, hb⟩ := l.push_of_mem hcap (txKey tx) hmem
    simp [TxCache.push, hmem, hkeys, hb]
  · by_cases hfull : size ≤ l.keys.length
    · obtain ⟨hkeys, hb⟩ := l.push_of_full hcap (txKey tx) hmem (by omega)
      simp [TxCache.push, hmem, hfull, hkeys, hb, List.drop_one]
    · obtain ⟨hkeys, hb⟩ := l.push_of_lt hcap (txKey tx) hmem (by omega)
      simp [TxCache.push, hmem, hfull, hkeys, hb]

namespace MapTxCache

variable {cache : MapTxCache κ} {l : LruSet κ cap}

/-- One `Push` on a cache whose keys are those of an LRU set. -/
theorem Linked.push_lru (h : Linked cache) (hs : cache.size = cap) (hk : cache.keys = l.keys)
    (tx : Tx) :
    (cache.push txKey tx).1.size = cap ∧
      (cache.push txKey tx).1.keys = (l.push hcap (txKey tx)).1.keys ∧
      (cache.push txKey tx).2 = (l.push hcap (txKey tx)).2 := by
  have hsim := h.push_toTxCache txKey tx
  rw [toTxCache, hk, TxCache.push_lru txKey hcap l tx hs] at hsim
  simp only [Prod.map, toTxCache, id, Prod.mk.injEq, TxCache.map.injEq] at hsim
  exact ⟨hsim.1.1.trans hs, hsim.1.2, hsim.2⟩

/-- The run lemma: a run of calls on a cache whose keys are those of an LRU set
keeps the map and the list linked, and does to the keys and returns what the LRU
set's run does. -/
theorem Linked.run_lru : ∀ (calls : List CacheCall) {cache : MapTxCache κ} {l : LruSet κ cap},
    Linked cache → cache.size = cap → cache.keys = l.keys →
      Linked (cache.run txKey calls).1 ∧ (cache.run txKey calls).1.size = cap ∧
      (cache.run txKey calls).1.keys = (l.run hcap (calls.map (CacheCall.toOp txKey))).1.keys ∧
      (cache.run txKey calls).2 = (l.run hcap (calls.map (CacheCall.toOp txKey))).2
  | [], _, _, h, hs, hk => ⟨h, hs, hk, rfl⟩
  | .push tx :: calls, cache, l, h, hs, hk => by
    obtain ⟨hs', hk', hb⟩ := h.push_lru txKey hcap hs hk tx
    obtain ⟨h₁, h₂, h₃, h₄⟩ := run_lru calls (h.push txKey tx) hs' hk'
    refine ⟨h₁, h₂, h₃, ?_⟩
    simp only [run, List.map_cons, CacheCall.toOp, LruSet.run, h₄, hb]
  | .remove tx :: calls, cache, l, h, hs, hk => by
    have hk' : (cache.remove txKey tx).keys = (l.erase (txKey tx)).keys := by
      rw [h.keys_remove, hk]
      rfl
    exact run_lru calls (h.remove txKey tx) ((size_remove txKey tx).trans hs) hk'
  | .reset :: calls, cache, l, h, hs, hk =>
    run_lru calls linked_reset hs rfl

end MapTxCache

end Lru

/-- `mapTxCache` of every capacity `s ≥ 1` is an LRU set of capacity `s`: over
every run of `Push`, `Remove` and `Reset` calls, each `Push` returns what the LRU
set's `push` answers and the list holds the LRU set's keys in its order; the map
sends each key to the element that holds it and to nothing else, every key is held
once, and the list never holds more than `s` keys. -/
theorem mapTxCache_lru (s : ℤ) (hs : 1 ≤ s) (calls : List CacheCall) :
    let cache := (newMapTxCache s : MapTxCache κ).run txKey calls
    let lru := (LruSet.empty : LruSet κ s.toNat).run (by omega) (calls.map (CacheCall.toOp txKey))
    cache.2 = lru.2 ∧ cache.1.keys = lru.1.keys ∧
      (∀ k e, cache.1.cacheMap k = some e ↔ (e, k) ∈ cache.1.list) ∧ cache.1.keys.Nodup ∧
      (cache.1.list.length : ℤ) ≤ s := by
  intro cache lru
  have hsize : (newMapTxCache s : MapTxCache κ).size = (s.toNat : ℤ) := by
    simp only [newMapTxCache]
    omega
  obtain ⟨hlinked, -, hkeys, hb⟩ :=
    MapTxCache.Linked.run_lru txKey (by omega) calls (l := LruSet.empty)
      MapTxCache.linked_newMapTxCache hsize rfl
  refine ⟨hb, hkeys, hlinked.cacheMap_eq_some, hlinked.nodup_keys, ?_⟩
  have hlen : cache.1.list.length ≤ s.toNat := by
    rw [← MapTxCache.length_keys]
    exact hkeys ▸ lru.1.length_le
  omega

/-- Two keys, capacity two: pushing `[1]`, `[2]`, `[1]` and `[3]` evicts `[2]`,
the least recently used. -/
theorem mapTxCache_lru_evicts_oldest :
    1 ≤ (2 : ℤ) ∧
      ((newMapTxCache 2 : MapTxCache Tx).run id [.push [1], .push [2], .push [1], .push [3]]).2 =
        ((LruSet.empty : LruSet Tx (2 : ℤ).toNat).run (by decide)
          ([.push [1], .push [2], .push [1], .push [3]].map (CacheCall.toOp id))).2 ∧
      ((newMapTxCache 2 : MapTxCache Tx).run id
        [.push [1], .push [2], .push [1], .push [3]]).1.keys = [[1], [3]] := by
  have h := mapTxCache_lru id 2 (by decide) [.push [1], .push [2], .push [1], .push [3]]
  refine ⟨by decide, h.1, ?_⟩
  decide

end Tenderdash.Mempool
