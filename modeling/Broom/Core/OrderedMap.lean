import Mathlib.Data.List.AList
import Mathlib.Data.List.Nodup

/-!
# Maps in insertion order

A map whose entries keep the place of their first insertion; overwriting a key keeps
its place. It has two implementations that this library compares: one keeps the
entries in order, the other an unordered map beside the list of its keys.
-/

namespace Broom.Core

variable {K V W : Type}

/-- An unordered map. -/
abbrev PlainMap (K V : Type) := AList fun _ : K => V

/-- The values of an unordered map, in some order. -/
def PlainMap.values (map : PlainMap K V) : List V := map.entries.map Sigma.snd

/-- Entries in the order of their first insertion, one for each key. -/
structure OrderedMap (K V : Type) where
  entries : List (K × V)
  nodup : (entries.map Prod.fst).Nodup

namespace OrderedMap

/-- The map without entries. -/
def empty : OrderedMap K V where
  entries := []
  nodup := List.nodup_nil

/-- The keys in order. -/
def keys (m : OrderedMap K V) : List K := m.entries.map Prod.fst

/-- The values in the order of their keys. -/
def values (m : OrderedMap K V) : List V := m.entries.map Prod.snd

/-- Change every value. -/
def mapValues (f : V → W) (m : OrderedMap K V) : OrderedMap K W where
  entries := m.entries.map fun e => (e.1, f e.2)
  nodup := by simpa [List.map_map, Function.comp_def] using m.nodup

/-- Every value carries its key. -/
def Keyed (key : V → K) (m : OrderedMap K V) : Prop := ∀ e ∈ m.entries, key e.2 = e.1

@[ext] theorem ext {m m' : OrderedMap K V} (h : m.entries = m'.entries) : m = m' := by
  cases m
  cases m'
  congr

@[simp] theorem values_empty : (empty : OrderedMap K V).values = [] := rfl

@[simp] theorem values_mapValues (f : V → W) (m : OrderedMap K V) :
    (m.mapValues f).values = m.values.map f := by
  simp [values, mapValues, Function.comp_def]

@[simp] theorem mapValues_empty (f : V → W) :
    (empty : OrderedMap K V).mapValues f = empty := rfl

theorem keyed_empty (key : V → K) : Keyed key (empty : OrderedMap K V) := by
  simp [Keyed, empty]

theorem Keyed.mapValues {key : V → K} {key' : W → K} {f : V → W} {m : OrderedMap K V}
    (h : m.Keyed key) (hf : ∀ v, key' (f v) = key v) : (m.mapValues f).Keyed key' := by
  intro e he
  obtain ⟨e', he', rfl⟩ := List.mem_map.mp he
  exact (hf e'.2).trans (h e' he')

end OrderedMap

variable [DecidableEq K]

/-! ## Setting an entry -/

/-- Overwrite an entry in its place, or add it at the end. -/
def setEntry (k : K) (v : V) : List (K × V) → List (K × V)
  | [] => [(k, v)]
  | e :: es => if e.1 = k then (k, v) :: es else e :: setEntry k v es

/-- A key that is not there is added at the end. -/
theorem setEntry_of_not_mem {k : K} {v : V} {es : List (K × V)} (h : k ∉ es.map Prod.fst) :
    setEntry k v es = es ++ [(k, v)] := by
  induction es with
  | nil => rfl
  | cons e es ih =>
    rw [List.map_cons, List.mem_cons, not_or] at h
    rw [setEntry, if_neg (Ne.symm h.1), ih h.2, List.cons_append]

/-- A key that is there keeps its place. -/
theorem setEntry_keys_of_mem {k : K} {v : V} {es : List (K × V)} (h : k ∈ es.map Prod.fst) :
    (setEntry k v es).map Prod.fst = es.map Prod.fst := by
  induction es with
  | nil => simp at h
  | cons e es ih =>
    by_cases he : e.1 = k
    · simp [setEntry, he]
    · have hk : k ∈ es.map Prod.fst := by
        rw [List.map_cons, List.mem_cons] at h
        exact h.resolve_left (Ne.symm he)
      rw [setEntry, if_neg he, List.map_cons, ih hk, List.map_cons]

/-- Setting an entry adds its key at the end unless it is there. -/
theorem setEntry_keys (k : K) (v : V) (es : List (K × V)) :
    (setEntry k v es).map Prod.fst =
      if k ∈ es.map Prod.fst then es.map Prod.fst else es.map Prod.fst ++ [k] := by
  split
  · rename_i h
    exact setEntry_keys_of_mem h
  · rename_i h
    rw [setEntry_of_not_mem h, List.map_append, List.map_singleton]

theorem mem_setEntry_self (k : K) (v : V) (es : List (K × V)) : (k, v) ∈ setEntry k v es := by
  induction es with
  | nil => simp [setEntry]
  | cons e es ih => by_cases h : e.1 = k <;> simp [setEntry, h, ih]

/-- An entry after setting is the new one or an old one. -/
theorem mem_of_mem_setEntry {k : K} {v : V} {es : List (K × V)} {e : K × V}
    (h : e ∈ setEntry k v es) : e = (k, v) ∨ e ∈ es := by
  induction es with
  | nil => exact Or.inl (List.mem_singleton.mp h)
  | cons e' es ih =>
    by_cases hk : e'.1 = k
    · rw [setEntry, if_pos hk] at h
      exact (List.mem_cons.mp h).imp_right (List.mem_cons_of_mem _)
    · rw [setEntry, if_neg hk] at h
      rcases List.mem_cons.mp h with rfl | h
      · exact Or.inr (List.mem_cons_self ..)
      · exact (ih h).imp_right (List.mem_cons_of_mem _)

/-- Setting commutes with a change of the values. -/
theorem setEntry_map (f : V → W) (k : K) (v : V) (es : List (K × V)) :
    setEntry k (f v) (es.map fun e => (e.1, f e.2)) =
      (setEntry k v es).map fun e => (e.1, f e.2) := by
  induction es with
  | nil => rfl
  | cons e es ih => by_cases h : e.1 = k <;> simp [setEntry, h, ih]

namespace OrderedMap

/-- Overwrite a key in its place, or add it at the end. -/
def set (m : OrderedMap K V) (k : K) (v : V) : OrderedMap K V where
  entries := setEntry k v m.entries
  nodup := by
    rw [setEntry_keys]
    split
    · exact m.nodup
    · rename_i hk
      refine List.nodup_append'.mpr ⟨m.nodup, List.nodup_singleton k, ?_⟩
      rwa [List.disjoint_singleton]

/-- Build a map from values that carry their keys. -/
def ofValues (key : V → K) (vs : List V) : OrderedMap K V :=
  vs.foldl (fun m v => m.set (key v) v) empty

theorem keys_set (m : OrderedMap K V) (k : K) (v : V) :
    (m.set k v).keys = if k ∈ m.keys then m.keys else m.keys ++ [k] := setEntry_keys k v m.entries

@[simp] theorem mapValues_set (f : V → W) (m : OrderedMap K V) (k : K) (v : V) :
    (m.set k v).mapValues f = (m.mapValues f).set k (f v) :=
  ext (setEntry_map f k v m.entries).symm

/-- A new key's value comes last. -/
theorem values_set {m : OrderedMap K V} {k : K} {v : V} (h : k ∉ m.keys) :
    (m.set k v).values = m.values ++ [v] := by
  have hentries : (m.set k v).entries = m.entries ++ [(k, v)] := setEntry_of_not_mem h
  rw [values, hentries, List.map_append, List.map_singleton, values]

theorem Keyed.set {key : V → K} {m : OrderedMap K V} (h : m.Keyed key) (v : V) :
    (m.set (key v) v).Keyed key := by
  intro e he
  rcases mem_of_mem_setEntry he with rfl | he
  · rfl
  · exact h e he

/-- A map whose values carry their keys can be rebuilt from the values alone. -/
theorem ofValues_values {key : V → K} {m : OrderedMap K V} (h : m.Keyed key) :
    ofValues key m.values = m := by
  -- the entries so far are already rebuilt
  have hfold (es : List (K × V)) : ∀ (m₀ : OrderedMap K V),
      ((m₀.entries ++ es).map Prod.fst).Nodup → (∀ e ∈ es, key e.2 = e.1) →
      ((es.map Prod.snd).foldl (fun m v => m.set (key v) v) m₀).entries = m₀.entries ++ es := by
    induction es with
    | nil => simp
    | cons e es ih =>
      intro m₀ hn hkey
      have hk : key e.2 = e.1 := hkey e (List.mem_cons_self ..)
      have hout : e.1 ∉ m₀.entries.map Prod.fst := by
        rw [List.map_append, List.map_cons, List.nodup_middle, List.nodup_cons,
          List.mem_append, not_or] at hn
        exact hn.1.1
      have hset : (m₀.set (key e.2) e.2).entries = m₀.entries ++ [e] := by
        rw [hk]
        exact setEntry_of_not_mem hout
      have hrest := ih (m₀.set (key e.2) e.2)
        (by rwa [hset, List.append_assoc, List.singleton_append])
        fun e' he' => hkey e' (List.mem_cons_of_mem _ he')
      rw [List.map_cons, List.foldl_cons, hrest, hset, List.append_assoc, List.singleton_append]
  exact ext (hfold m.entries empty m.nodup h)

/-! ## A plain map beside the list of its keys -/

/-- A plain map and a list of keys stand for an ordered map. -/
structure Represents (map : PlainMap K V) (ord : List K) (m : OrderedMap K V) : Prop where
  ord_eq : ord = m.keys
  mem_iff : ∀ k, k ∈ map ↔ k ∈ m.keys
  lookup : ∀ e ∈ m.entries, map.lookup e.1 = some e.2

theorem represents_empty : Represents (∅ : PlainMap K V) [] (empty : OrderedMap K V) :=
  ⟨rfl, fun k => by simp [keys, empty], by simp [empty]⟩

/-- Inserting into the plain map, and listing a new key, is setting. -/
theorem Represents.set {map : PlainMap K V} {ord : List K} {m : OrderedMap K V}
    (h : Represents map ord m) (k : K) (v : V) :
    Represents (map.insert k v) (if k ∈ map then ord else ord ++ [k]) (m.set k v) := by
  refine ⟨?_, fun k' => ?_, fun e he => ?_⟩
  · rw [keys_set, h.ord_eq]
    simp only [h.mem_iff]
  · rw [AList.mem_insert, h.mem_iff, keys_set]
    split
    · rename_i hk
      exact or_iff_right_of_imp fun hkk => hkk ▸ hk
    · rw [List.mem_append, List.mem_singleton, or_comm]
  · by_cases hk : e.1 = k
    · have hv : e = (k, v) :=
        List.inj_on_of_nodup_map (m.set k v).nodup he (mem_setEntry_self k v m.entries) hk
      rw [hv]
      exact AList.lookup_insert map
    · rw [AList.lookup_insert_ne hk]
      rcases mem_of_mem_setEntry he with rfl | he
      · exact absurd rfl hk
      · exact h.lookup e he

/-- Looking the listed keys up gives the values in order. -/
theorem Represents.values {map : PlainMap K V} {ord : List K} {m : OrderedMap K V}
    (h : Represents map ord m) : ord.mapM (map.lookup ·) = some m.values := by
  have hlookup (es : List (K × V)) : (∀ e ∈ es, map.lookup e.1 = some e.2) →
      (es.map Prod.fst).mapM (map.lookup ·) = some (es.map Prod.snd) := by
    induction es with
    | nil => exact fun _ => rfl
    | cons e es ih =>
      intro hes
      rw [List.map_cons, List.mapM_cons, hes e (List.mem_cons_self ..),
        ih fun e' he' => hes e' (List.mem_cons_of_mem _ he')]
      rfl
  rw [h.ord_eq]
  exact hlookup m.entries h.lookup

/-- Both hold the same values. -/
theorem Represents.perm {map : PlainMap K V} {ord : List K} {m : OrderedMap K V}
    (h : Represents map ord m) : (PlainMap.values map).Perm m.values := by
  have hentries : (map.entries.map fun e => (e.1, e.2)).Perm m.entries := by
    refine (List.perm_ext_iff_of_nodup ?_ (m.nodup.of_map _)).mpr fun e => ?_
    · refine List.Nodup.of_map Prod.fst ?_
      rw [List.map_map]
      exact map.nodupKeys
    · have hmem : e ∈ map.entries.map (fun e => (e.1, e.2)) ↔ map.lookup e.1 = some e.2 := by
        rw [List.mem_map, ← Option.mem_def, AList.mem_lookup_iff]
        exact ⟨fun ⟨_, hs, he⟩ => he ▸ hs, fun hs => ⟨_, hs, rfl⟩⟩
      refine hmem.trans ⟨fun hlookup => ?_, h.lookup e⟩
      have hkey : e.1 ∈ map := AList.lookup_isSome.mp (Option.isSome_of_eq_some hlookup)
      obtain ⟨e', he', hfst⟩ := List.mem_map.mp ((h.mem_iff e.1).mp hkey)
      have hsnd := h.lookup e' he'
      rw [hfst, hlookup] at hsnd
      rwa [Prod.ext hfst (Option.some.inj hsnd).symm] at he'
  have hvalues := hentries.map Prod.snd
  rwa [List.map_map] at hvalues

end OrderedMap

end Broom.Core
