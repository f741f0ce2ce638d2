import DecisionDiagram.Proofs.Order.Values
import Mathlib.Data.List.Perm.Basic

/-!
# Lists of pairs as assignments

In a list of named values the last pair with a name counts.  A search from the end finds
it, and so does a map that was filled with the pairs in their order: `Source` lists the
forms in which pairs are handed over, and they all answer alike.  If the names are
distinct then the order of the pairs does not matter; if not, then all pairs but the last
one for each name can be left out.
-/

namespace DecisionDiagram

namespace Assignment

variable {pairs pairs' : List (String × Bool)} {name : String} {value : Bool}

/-- Only names that do not occur have no value. -/
theorem lastValue_eq_none_iff : lastValue pairs name = none ↔ name ∉ pairs.map Prod.fst := by
  induction pairs with
  | nil => simp
  | cons pair pairs ih =>
    rw [lastValue_cons, Option.or_eq_none_iff, ih, List.map_cons, List.mem_cons, not_or, and_comm]
    simp [eq_comm]

/-- The value that counts is found first by a search from the end. -/
theorem lastValue_eq_find? (pairs : List (String × Bool)) (name : String) :
    lastValue pairs name =
      (pairs.reverse.find? fun pair => pair.1 = name).map Prod.snd := by
  induction pairs using List.reverseRecOn with
  | nil => rfl
  | append_singleton pairs pair ih =>
    rw [lastValue_append_singleton, List.reverse_concat, List.find?_cons, ih]
    split <;> simp_all

/-! ### The order of the pairs -/

/-- If the names are distinct then every pair counts. -/
theorem lastValue_eq_some_iff (h : (pairs.map Prod.fst).Nodup) :
    lastValue pairs name = some value ↔ (name, value) ∈ pairs := by
  induction pairs with
  | nil => simp
  | cons pair pairs ih =>
    obtain ⟨hfirst, hrest⟩ := List.nodup_cons.1 h
    rw [lastValue_cons, List.mem_cons]
    by_cases hname : pair.1 = name
    · subst hname
      have hnone := lastValue_eq_none_iff.2 hfirst
      have hmem : (pair.1, value) ∉ pairs := fun hmem => hfirst (List.mem_map.2 ⟨_, hmem, rfl⟩)
      simp [hnone, hmem, Prod.ext_iff, eq_comm]
    · have hne : (name, value) ≠ pair := by
        rintro rfl
        exact hname rfl
      simp [hname, hne, ih hrest]

theorem lastValue_perm (h : pairs.Perm pairs') (hnodup : (pairs.map Prod.fst).Nodup) :
    lastValue pairs = lastValue pairs' := by
  have hnodup' : (pairs'.map Prod.fst).Nodup := (h.map Prod.fst).nodup_iff.1 hnodup
  ext name value
  rw [lastValue_eq_some_iff hnodup, lastValue_eq_some_iff hnodup', h.mem_iff]

/-! ### The pairs that count -/

/-- The last pair for each name; a pair is left out if its name occurs again. -/
def lastPairs : List (String × Bool) → List (String × Bool)
  | [] => []
  | pair :: pairs =>
    if pair.1 ∈ pairs.map Prod.fst then lastPairs pairs else pair :: lastPairs pairs

theorem sublist_lastPairs (pairs : List (String × Bool)) : (lastPairs pairs).Sublist pairs := by
  induction pairs with
  | nil => exact .slnil
  | cons pair pairs ih =>
    rw [lastPairs]
    split
    · exact ih.cons pair
    · exact ih.cons_cons pair

theorem nodup_lastPairs (pairs : List (String × Bool)) :
    ((lastPairs pairs).map Prod.fst).Nodup := by
  induction pairs with
  | nil => simp [lastPairs]
  | cons pair pairs ih =>
    rw [lastPairs]
    split
    · exact ih
    · next hnew =>
      rw [List.map_cons, List.nodup_cons]
      exact ⟨fun hmem => hnew (((sublist_lastPairs pairs).map Prod.fst).subset hmem), ih⟩

/-- Nothing is lost with the pairs that are left out. -/
theorem lastValue_lastPairs (pairs : List (String × Bool)) :
    lastValue (lastPairs pairs) = lastValue pairs := by
  ext1 name
  induction pairs with
  | nil => rfl
  | cons pair pairs ih =>
    rw [lastPairs, lastValue_cons]
    split
    · next hagain =>
      by_cases hname : pair.1 = name
      · subst hname
        have hsome := mt lastValue_eq_none_iff.1 (not_not.2 hagain)
        obtain ⟨value, hvalue⟩ := Option.ne_none_iff_exists'.1 hsome
        simp [ih, hvalue]
      · simp [ih, hname]
    · rw [lastValue_cons, ih]

/-! ### Forms of named pairs -/

/-- The forms in which named pairs are handed over as an assignment. -/
inductive Source
  /-- A list. -/
  | slice (pairs : List (String × Bool))
  /-- An array of fixed length. -/
  | fixed {length : Nat} (pairs : Vector (String × Bool) length)
  /-- An array of any length. -/
  | growable (pairs : Array (String × Bool))
  /-- A map by hash. -/
  | hashMap (map : Std.HashMap String Bool)
  /-- A map by order. -/
  | treeMap (map : Std.TreeMap String Bool)
  /-- A reference to an assignment answers as the assignment does. -/
  | reference (source : Source)

/-- The value that a source gives to a name. -/
def Source.answer : Source → String → Option Bool
  | slice pairs => valueOf pairs
  | fixed pairs => valueOf pairs.toArray
  | growable pairs => valueOf pairs
  | hashMap map => valueOf map
  | treeMap map => valueOf map
  | reference source => source.answer

instance : Assignment Source where
  valueOf := Source.answer

/-- The source was made from the pairs, in their order. -/
inductive Source.Holds (pairs : List (String × Bool)) : Source → Prop
  | slice : Holds pairs (.slice pairs)
  | fixed : Holds pairs (.fixed ⟨pairs.toArray, rfl⟩)
  | growable : Holds pairs (.growable pairs.toArray)
  | hashMap : Holds pairs (.hashMap (pairs.foldl (fun map pair => map.insert pair.1 pair.2) ∅))
  | treeMap : Holds pairs (.treeMap (pairs.foldl (fun map pair => map.insert pair.1 pair.2) ∅))
  | reference {source : Source} : Holds pairs source → Holds pairs (.reference source)

theorem valueOf_hashMap (pairs : List (String × Bool)) (name : String) :
    valueOf (pairs.foldl (fun map pair => map.insert pair.1 pair.2)
      (∅ : Std.HashMap String Bool)) name = lastValue pairs name := by
  induction pairs using List.reverseRecOn with
  | nil => exact Std.HashMap.getElem?_empty
  | append_singleton pairs pair ih =>
    rw [List.foldl_concat, lastValue_append_singleton, ← ih]
    simp [valueOf, Std.HashMap.getElem?_insert]

theorem valueOf_treeMap (pairs : List (String × Bool)) (name : String) :
    valueOf (pairs.foldl (fun map pair => map.insert pair.1 pair.2)
      (∅ : Std.TreeMap String Bool)) name = lastValue pairs name := by
  induction pairs using List.reverseRecOn with
  | nil => exact Std.TreeMap.getElem?_emptyc
  | append_singleton pairs pair ih =>
    rw [List.foldl_concat, lastValue_append_singleton, ← ih]
    simp [valueOf, Std.TreeMap.getElem?_insert]

/-- All forms of some pairs give the last value for each name. -/
theorem Source.Holds.valueOf_eq {source : Source} (h : source.Holds pairs) :
    valueOf source = lastValue pairs := by
  ext1 name
  induction h with
  | slice => rfl
  | fixed => exact valueOf_toArray pairs name
  | growable => exact valueOf_toArray pairs name
  | hashMap => exact valueOf_hashMap pairs name
  | treeMap => exact valueOf_treeMap pairs name
  | reference _ ih => exact ih

end Assignment

end DecisionDiagram
