import Eshkol.Data.Cache
import Eshkol.Hash.Refine

/-!
# The cache forgets what was touched least recently

The timestamps in the table order the entries as they were touched. Along this order the cache is
the bounded map that drops its last entry, and a memoizer returns what its function returns as long
as its keys tell the arguments apart.
-/

namespace Cache

open Scheme Hash
open Recency (SameKey lookup mapValues)

variable {K V : Type} {ops : KeyOps K} {cache : LruCache K V} {es : List (K × (V × ℕ))}
  {t : Table K (V × ℕ)} {m : K → Option (V × ℕ)} {key : K}

lemma sameKey (ops : KeyOps K) : SameKey ops.equal where
  refl := ops.equal_refl
  symm := ops.equal_symm _ _
  trans := ops.equal_trans _ _ _

/-! ## The order of the timestamps -/

/-- The table holds the entries, which come from the latest timestamp to the earliest. -/
structure Stamped (ops : KeyOps K) (cache : LruCache K V) (es : List (K × (V × ℕ))) : Prop where
  inv : cache.table.Inv ops
  represents : cache.table.Represents ops (lookup ops.equal es)
  distinct : Recency.Distinct ops.equal es
  sorted : es.Pairwise fun e e' => e'.2.2 < e.2.2
  bounded : ∀ e ∈ es, e.2.2 ≤ cache.counter

/-- The entries enumerate the map that they are. -/
lemma enumerates_entries (h : Recency.Distinct ops.equal es) :
    Enumerates ops (lookup ops.equal es) (es.map Prod.fst) := by
  refine ⟨List.pairwise_map.2 h, fun k => ?_⟩
  rw [Option.isSome_iff_exists]
  simp only [Recency.lookup_eq_some_iff (sameKey ops) h, List.mem_map]
  constructor
  · rintro ⟨v, k', hmem, hk⟩
    exact ⟨k', ⟨_, hmem, rfl⟩, hk⟩
  · rintro ⟨k', ⟨e, he, rfl⟩, hk⟩
    exact ⟨e.2, e.1, he, hk⟩

lemma Stamped.keys (h : Stamped ops cache es) :
    Enumerates ops (lookup ops.equal es) cache.table.keys := by
  rw [h.inv.keys_eq]
  exact h.represents.enumerates h.inv.slotsOk

lemma Stamped.size_eq (h : Stamped ops cache es) : lruSize cache = es.length := by
  have hlength := (h.represents.enumerates h.inv.slotsOk).length_eq (enumerates_entries h.distinct)
  rw [Table.length_keys, ← h.inv.size_eq, List.length_map] at hlength
  exact hlength

/-- A table whose map has a new timestamp for a key holds the entry of that key in front. -/
lemma Stamped.restamp (h : Stamped ops cache es) {v : V} (ht : t.Inv ops)
    (hrep : t.Represents ops ((Call.set key (v, cache.counter + 1)).next ops (lookup ops.equal es))) :
    Stamped ops ⟨cache.capacity, cache.counter + 1, t⟩
      ((key, (v, cache.counter + 1)) :: Recency.erase ops.equal es key) where
  inv := ht
  represents k e := by
    rw [Recency.lookup_cons_erase (sameKey ops)]
    exact hrep k e
  distinct := h.distinct.cons_erase (sameKey ops) _ _
  sorted := by
    refine List.pairwise_cons.2 ⟨fun e he => ?_, h.sorted.filter _⟩
    exact Nat.lt_succ_of_le (h.bounded e (List.mem_filter.1 he).1)
  bounded e he := by
    rcases List.mem_cons.1 he with rfl | he
    · exact Nat.le_refl _
    · exact Nat.le_succ_of_le (h.bounded e (List.mem_filter.1 he).1)

lemma Stamped.remove (h : Stamped ops cache es) (key : K) :
    Stamped ops { cache with table := (cache.table.remove ops key).2 }
      (Recency.erase ops.equal es key) where
  inv := (h.inv.remove h.represents key).2.1
  represents k e := by
    rw [Recency.lookup_erase (sameKey ops)]
    exact (h.inv.remove h.represents key).2.2 k e
  distinct := h.distinct.erase key
  sorted := h.sorted.filter _
  bounded e he := h.bounded e (List.mem_filter.1 he).1

lemma Stamped.clear (h : Stamped ops cache es) : Stamped ops (lruClear cache) [] where
  inv := h.inv.clear.1
  represents := h.inv.clear.2
  distinct := List.Pairwise.nil
  sorted := List.Pairwise.nil
  bounded := by simp

/-- A new key is stored with the next timestamp. -/
lemma Stamped.insert (h : Stamped ops cache es) (hkey : lookup ops.equal es key = none) (value : V) :
    ∃ t', cache.table.set ops key (value, cache.counter + 1) = some t' ∧
      Stamped ops ⟨cache.capacity, cache.counter + 1, t'⟩ ((key, (value, cache.counter + 1)) :: es) := by
  obtain ⟨t', hset, hinv, hrep⟩ := h.inv.set h.represents key (value, cache.counter + 1)
  have hstamped := h.restamp hinv hrep
  rw [Recency.erase_of_lookup hkey] at hstamped
  exact ⟨t', hset, hstamped⟩

lemma distinct_mapValues (h : Recency.Distinct ops.equal es) :
    Recency.Distinct ops.equal (mapValues Prod.fst es) := List.pairwise_map.2 h

/-- The entries after a call do not outgrow the capacity. -/
lemma Stamped.length_le (h : Stamped ops cache es) (hcap : 1 ≤ cache.capacity)
    (hlen : es.length ≤ cache.capacity.toNat) {c : Recency.Call K V} {es' : List (K × (V × ℕ))}
    (hes : mapValues Prod.fst es' = c.next ops.equal cache.capacity.toNat (mapValues Prod.fst es)) :
    es'.length ≤ cache.capacity.toNat := by
  have hlength (es : List (K × (V × ℕ))) : (mapValues Prod.fst es).length = es.length :=
    List.length_map _
  rw [← hlength, hes]
  exact Recency.length_next_le (sameKey ops) (distinct_mapValues h.distinct) (by omega)
    (by rwa [hlength]) c

end Cache
