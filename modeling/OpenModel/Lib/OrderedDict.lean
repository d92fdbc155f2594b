import Mathlib.Data.List.Nodup

/-!
# Dictionaries in insertion order

A dictionary keeps its entries in the order in which their keys came first, and has one entry
for each key. An assignment to a key that is there leaves the entry where it is.

## Main results

- `OrderedDict.get?_eq_some_iff`: a lookup finds the entries
- `OrderedDict.get?_set_self`, `OrderedDict.get?_set_of_ne`, `OrderedDict.get?_delete_of_not_mem`:
  what assignments and deletions change
- `OrderedDict.size_set_of_not_mem`, `OrderedDict.size_delete_lt`: and how many entries they leave
-/

structure OrderedDict (κ ν : Type*) where
  entries : List (κ × ν) := []
  nodup : (entries.map Prod.fst).Nodup := by simp

namespace OrderedDict

variable {κ ν : Type*} [DecidableEq κ] {d : OrderedDict κ ν} {k k' : κ} {v : ν} {ks : List κ}

def keys (d : OrderedDict κ ν) : List κ := d.entries.map Prod.fst

def size (d : OrderedDict κ ν) : Nat := d.entries.length

/-- `d.get(k)` -/
def get? (d : OrderedDict κ ν) (k : κ) : Option ν :=
  (d.entries.find? fun e => e.1 = k).map Prod.snd

/-- The entry, with another value if it is that of the key. -/
def replace (k : κ) (v : ν) (e : κ × ν) : κ × ν := if e.1 = k then (k, v) else e

theorem replace_fst (e : κ × ν) : (replace k v e).1 = e.1 := by
  unfold replace
  split_ifs with h
  · exact h.symm
  · rfl

theorem map_replace_fst (es : List (κ × ν)) :
    (es.map (replace k v)).map Prod.fst = es.map Prod.fst := by
  rw [List.map_map]
  exact List.map_congr_left fun e _ => replace_fst e

/-- `d[k] = v` -/
def set (d : OrderedDict κ ν) (k : κ) (v : ν) : OrderedDict κ ν where
  entries := if k ∈ d.keys then d.entries.map (replace k v) else d.entries ++ [(k, v)]
  nodup := by
    split_ifs with h
    · rw [map_replace_fst]
      exact d.nodup
    · rw [List.map_append]
      refine List.nodup_append.mpr ⟨d.nodup, List.nodup_singleton _, fun a ha b hb heq => h ?_⟩
      obtain rfl := List.mem_singleton.mp hb
      exact heq ▸ ha

/-- `del d[k]` for some keys. -/
def delete (d : OrderedDict κ ν) (ks : List κ) : OrderedDict κ ν where
  entries := d.entries.filter fun e => e.1 ∉ ks
  nodup := d.nodup.sublist ((List.filter_sublist).map _)

theorem get?_eq_some_iff : d.get? k = some v ↔ (k, v) ∈ d.entries := by
  constructor
  · intro h
    obtain ⟨e, hfind, rfl⟩ := Option.map_eq_some_iff.mp h
    obtain rfl : e.1 = k := by simpa using List.find?_some hfind
    exact List.mem_of_find?_eq_some hfind
  · intro h
    obtain ⟨e, hfind⟩ : ∃ e, (d.entries.find? fun e => e.1 = k) = some e := by
      refine Option.isSome_iff_exists.mp (List.find?_isSome.mpr ⟨(k, v), h, by simp⟩)
    obtain rfl : e.1 = k := by simpa using List.find?_some hfind
    have heq : e = (e.1, v) :=
      List.inj_on_of_nodup_map d.nodup (List.mem_of_find?_eq_some hfind) h rfl
    rw [get?, hfind, heq]
    rfl

theorem mem_keys_of_get? (h : d.get? k = some v) : k ∈ d.keys :=
  List.mem_map.mpr ⟨(k, v), get?_eq_some_iff.mp h, rfl⟩

theorem get?_set_self : (d.set k v).get? k = some v := by
  rw [get?_eq_some_iff]
  unfold set
  dsimp only
  split_ifs with h
  · obtain ⟨e, he, rfl⟩ := List.mem_map.mp h
    exact List.mem_map.mpr ⟨e, he, if_pos rfl⟩
  · exact List.mem_append_right _ List.mem_cons_self

theorem mem_entries_set {v' : ν} (h : k' ≠ k) :
    (k', v') ∈ (d.set k v).entries ↔ (k', v') ∈ d.entries := by
  unfold set
  dsimp only
  split_ifs
  · constructor
    · intro hmem
      obtain ⟨e, he, heq⟩ := List.mem_map.mp hmem
      unfold replace at heq
      split_ifs at heq with hk
      · exact absurd (congrArg Prod.fst heq).symm h
      · exact heq ▸ he
    · intro hmem
      exact List.mem_map.mpr ⟨(k', v'), hmem, if_neg h⟩
  · rw [List.mem_append, List.mem_singleton, Prod.mk.injEq]
    exact ⟨fun hmem => hmem.resolve_right fun heq => h heq.1, .inl⟩

theorem get?_set_of_ne (h : k' ≠ k) : (d.set k v).get? k' = d.get? k' :=
  Option.ext fun v' => by rw [get?_eq_some_iff, mem_entries_set h, ← get?_eq_some_iff]

theorem get?_delete_of_not_mem (h : k ∉ ks) : (d.delete ks).get? k = d.get? k := by
  refine Option.ext fun v => ?_
  rw [get?_eq_some_iff, get?_eq_some_iff]
  exact ⟨fun hmem => (List.mem_filter.mp hmem).1,
    fun hmem => List.mem_filter.mpr ⟨hmem, decide_eq_true h⟩⟩

theorem size_set_of_mem (h : k ∈ d.keys) : (d.set k v).size = d.size := by
  rw [size, size, set]
  dsimp only
  rw [if_pos h, List.length_map]

theorem size_set_of_not_mem (h : k ∉ d.keys) : (d.set k v).size = d.size + 1 := by
  rw [size, size, set]
  dsimp only
  rw [if_neg h, List.length_append, List.length_singleton]

theorem size_delete_le : (d.delete ks).size ≤ d.size := List.length_filter_le _ _

/-- A deletion of a key that is there. -/
theorem size_delete_lt (hk : k ∈ ks) (h : k ∈ d.keys) : (d.delete ks).size < d.size := by
  obtain ⟨e, he, rfl⟩ := List.mem_map.mp h
  refine List.length_filter_lt_length_iff_exists.mpr ⟨e, he, ?_⟩
  simpa using hk

theorem entries_delete_of_not_mem (h : ∀ k ∈ ks, k ∉ d.keys) :
    (d.delete ks).entries = d.entries := by
  refine List.filter_eq_self.mpr fun e he => ?_
  exact decide_eq_true fun hmem => h e.1 hmem (List.mem_map.mpr ⟨e, he, rfl⟩)

end OrderedDict
