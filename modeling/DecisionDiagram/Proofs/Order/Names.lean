import DecisionDiagram.Proofs.Order.Values
import Mathlib.Data.List.Nodup

/-!
# Orders of given names

A list of names is read one name at a time, and the position of each is entered in a map.
If the names are distinct and not too many then the result is an order that has exactly
these names: names and positions are inverse to each other, and either of the two tells
the list.  Otherwise the list is refused.  If it is not too long then the name reported
is the first that stands there earlier, too.
-/

namespace DecisionDiagram

namespace VarOrder

variable {o p : VarOrder} {names : List String} {name : String} {i : Nat}

/-! ### Names and positions -/

/-- A name stands where the map finds it, and nowhere else. -/
theorem getElem?_names_iff :
    o.names[i]? = some name ↔ ∃ x, o.lookup? name = some x ∧ x.toIndex = i := by
  constructor
  · intro h
    have hlt := (Array.getElem?_eq_some_iff.1 h).1
    have hsize := o.size_le
    simp only [maxVariables] at hsize
    have hx : (Variable.atIndex i).toIndex = i := Variable.toIndex_atIndex (by omega)
    exact ⟨.atIndex i, lookup?_eq_some_iff.2 (by rwa [hx]), hx⟩
  · rintro ⟨x, hx, rfl⟩
    exact lookup?_eq_some_iff.1 hx

/-- The names of an order are distinct. -/
theorem nodup_names (o : VarOrder) : o.names.toList.Nodup := by
  rw [List.nodup_iff_getElem?_ne_getElem?]
  intro i j hij hj heq
  have hname := List.getElem?_eq_getElem hj
  rw [hname] at heq
  simp only [Array.getElem?_toList] at heq hname
  obtain ⟨x, hx, rfl⟩ := getElem?_names_iff.1 heq
  obtain ⟨y, hy, rfl⟩ := getElem?_names_iff.1 hname
  rw [hx, Option.some.injEq] at hy
  simp [hy] at hij

/-- An order is determined by its map of positions. -/
theorem ext_positions (h : o.positions = p.positions) : o = p := by
  apply ext_names
  apply Array.ext_getElem?
  intro i
  ext name
  simp only [getElem?_names_iff, lookup?, h]

/-! ### Reading names -/

/-- Reading goes on to the last name if they are all distinct, and otherwise to the first
that has been read before. -/
theorem pushAll_cases (h : o.names.size + names.length ≤ maxVariables) :
    ((o.names.toList ++ names).Nodup ∧
      ∃ p, o.pushAll names h = .ok p ∧ p.names.toList = o.names.toList ++ names) ∨
    ∃ before name after, o.names.toList ++ names = before ++ name :: after ∧ before.Nodup ∧
      name ∈ before ∧ o.pushAll names h = .error (.duplicateVariable name) := by
  induction names generalizing o with
  | nil => exact .inl ⟨by simpa using o.nodup_names, o, rfl, by simp⟩
  | cons name names ih =>
    rw [pushAll]
    split
    · next v hv =>
      have hmem : name ∈ o.names.toList := by
        simpa using Array.mem_of_getElem? (lookup?_eq_some_iff.1 hv)
      exact .inr ⟨o.names.toList, name, names, rfl, o.nodup_names, hmem, rfl⟩
    · next hnone =>
      have hroom : o.names.size < maxVariables := by
        rw [List.length_cons] at h
        omega
      -- What has been read and what is still to be read make up the same list throughout.
      have hlist : (o.push name hnone hroom).names.toList ++ names =
          o.names.toList ++ name :: names := by
        simp [push]
      rw [← hlist]
      apply ih

theorem ofNames_cases (h : names.length ≤ maxVariables) :
    (names.Nodup ∧ ∃ o, ofNames names = .ok o ∧ o.names.toList = names) ∨
    ∃ before name after, names = before ++ name :: after ∧ before.Nodup ∧ name ∈ before ∧
      ofNames names = .error (.duplicateVariable name) := by
  rw [ofNames, dif_pos h]
  simpa [empty] using pushAll_cases (o := empty) (by simpa [empty] using h)

theorem exists_ofNames (h : names.length ≤ maxVariables) (hnodup : names.Nodup) :
    ∃ o, ofNames names = .ok o ∧ o.names.toList = names := by
  rcases ofNames_cases h with ⟨-, ho⟩ | ⟨before, name, after, rfl, -, hmem, -⟩
  · exact ho
  · rw [List.nodup_append] at hnodup
    exact absurd rfl (hnodup.2.2 name hmem name List.mem_cons_self)

theorem ofNames_of_maxVariables_lt (h : maxVariables < names.length) :
    ofNames names = .error (.tooManyVariables names.length maxVariables) :=
  dif_neg (Nat.not_le_of_lt h)

/-- Only distinct names that are not too many make an order, and it has these names. -/
theorem names_of_ofNames (ho : ofNames names = .ok o) :
    names.length ≤ maxVariables ∧ names.Nodup ∧ o.names.toList = names := by
  by_cases h : names.length ≤ maxVariables
  · rcases ofNames_cases h with ⟨hnodup, p, hp, hnames⟩ | ⟨_, _, _, -, -, -, herror⟩
    · obtain rfl := Except.ok.inj (ho.symm.trans hp)
      exact ⟨h, hnodup, hnames⟩
    · rw [ho] at herror
      cases herror
  · rw [ofNames_of_maxVariables_lt (Nat.lt_of_not_le h)] at ho
    cases ho

/-- Two lists that are read successfully make one order exactly if they are equal. -/
theorem eq_iff_of_ofNames {names' : List String} (ho : ofNames names = .ok o)
    (hp : ofNames names' = .ok p) : o = p ↔ names = names' := by
  constructor
  · rintro rfl
    rw [← (names_of_ofNames ho).2.2, ← (names_of_ofNames hp).2.2]
  · rintro rfl
    exact Except.ok.inj (ho.symm.trans hp)

/-! ### As many names as are asked for -/

/-- As many different names as are asked for: a letter repeated more and more often. -/
def unaryNames (n : Nat) : List String :=
  (List.range n).map fun i => .ofList (List.replicate i 'x')

@[simp] theorem length_unaryNames (n : Nat) : (unaryNames n).length = n := by simp [unaryNames]

theorem nodup_unaryNames (n : Nat) : (unaryNames n).Nodup := by
  refine List.Nodup.map_on (fun i _ j _ h => ?_) List.nodup_range
  have hlist := congrArg List.length (String.ofList_injective h)
  rwa [List.length_replicate, List.length_replicate] at hlist

theorem exists_ofNames_unaryNames {n : Nat} (hn : n ≤ maxVariables) :
    ∃ o, ofNames (unaryNames n) = .ok o ∧ o.numVars.toNat = n := by
  obtain ⟨o, ho, hnames⟩ := exists_ofNames (by rwa [length_unaryNames])
    (nodup_unaryNames n)
  refine ⟨o, ho, ?_⟩
  rw [toNat_numVars, ← Array.length_toList, hnames, length_unaryNames]

/-! ### What becomes of a list of names -/

/-- Each name is found at its true position, and there it is read again. -/
theorem lookup?_of_ofNames (ho : ofNames names = .ok o) (hname : name ∈ names) :
    ∃ x, o.lookup? name = some x ∧ x.toIndex = names.idxOf name ∧ o.nameOf x = .ok name := by
  have hstands : o.names[names.idxOf name]? = some name := by
    rw [← Array.getElem?_toList, (names_of_ofNames ho).2.2]
    exact List.getElem?_idxOf hname
  obtain ⟨x, hx, hindex⟩ := getElem?_names_iff.1 hstands
  exact ⟨x, hx, hindex, readAt_eq_ok_iff.2 (lookup?_eq_some_iff.1 hx)⟩

/-- Each variable of an order has a name, and is found under it. -/
theorem exists_nameOf {x : Variable} (hx : x.index < o.numVars) :
    ∃ name, o.nameOf x = .ok name ∧ o.lookup? name = some x := by
  obtain ⟨name, hname⟩ := exists_name hx
  exact ⟨name, readAt_eq_ok_iff.2 hname, lookup?_eq_some_iff.2 hname⟩

/-- In a list of distinct names none stands at an earlier position, too. -/
theorem not_mem_take_of_nodup (h : names.Nodup) (hi : names[i]? = some name) :
    name ∉ names.take i := by
  intro hmem
  have hfront := h.sublist (List.take_sublist (i + 1) names)
  rw [List.take_add_one, hi, Option.toList_some, List.nodup_append] at hfront
  exact hfront.2.2 name hmem name (by simp) rfl

/-- A list of at most 65534 distinct names makes an order with these names. Each name is
found at its true position, and the name there is the one that was looked up; each
variable of the order has a name under which it is found; no other name is found. Two
such orders are equal, and so are their maps, exactly if the lists are. A list that is too
long is refused with its length, and any other with the name at the first position whose
name stands there earlier, too. -/
theorem ofNames_bijection (names : List String) :
    ((∃ o, ofNames names = .ok o) ↔ names.length ≤ 65534 ∧ names.Nodup) ∧
    (∀ o, ofNames names = .ok o →
      o.names.toList = names ∧ o.numVars.toNat = names.length ∧
      (∀ name ∈ names, ∃ x, o.lookup? name = some x ∧ x.toIndex = names.idxOf name ∧
        o.nameOf x = .ok name) ∧
      (∀ x : Variable, x.index < o.numVars →
        ∃ name, o.nameOf x = .ok name ∧ o.lookup? name = some x) ∧
      (∀ name, name ∉ names → o.lookup? name = none) ∧
      ∀ names' p, ofNames names' = .ok p →
        (o = p ↔ names = names') ∧ (o.positions = p.positions ↔ names = names')) ∧
    (65534 < names.length → ofNames names = .error (.tooManyVariables names.length 65534)) ∧
    (names.length ≤ 65534 → ¬names.Nodup → ∃ (i : Nat) (name : String),
      ofNames names = .error (.duplicateVariable name) ∧
      names[i]? = some name ∧ name ∈ names.take i ∧
      ∀ j name', j < i → names[j]? = some name' → name' ∉ names.take j) := by
  refine ⟨⟨?_, ?_⟩, ?_, ofNames_of_maxVariables_lt, ?_⟩
  · rintro ⟨o, ho⟩
    obtain ⟨hlength, hnodup, -⟩ := names_of_ofNames ho
    exact ⟨hlength, hnodup⟩
  · rintro ⟨hlength, hnodup⟩
    obtain ⟨o, ho, -⟩ := exists_ofNames hlength hnodup
    exact ⟨o, ho⟩
  · intro o ho
    obtain ⟨-, -, hnames⟩ := names_of_ofNames ho
    refine ⟨hnames, ?_, fun name => lookup?_of_ofNames ho, fun x => exists_nameOf, ?_, ?_⟩
    · rw [toNat_numVars, ← hnames, Array.length_toList]
    · intro name hname
      rw [lookup?_eq_none_iff, ← Array.mem_toList_iff, hnames]
      exact hname
    · intro names' p hp
      have hiff := eq_iff_of_ofNames ho hp
      exact ⟨hiff, fun h => hiff.1 (ext_positions h), fun h => congrArg positions (hiff.2 h)⟩
  · intro hlength hrepeat
    rcases ofNames_cases hlength with ⟨hnodup, -⟩ | ⟨before, name, after, rfl, hbefore, hmem, he⟩
    · exact absurd hnodup hrepeat
    · refine ⟨before.length, name, he, by simp, by simpa using hmem, ?_⟩
      intro j name' hj hname'
      rw [List.getElem?_append_left hj] at hname'
      rw [List.take_append_of_le_length (Nat.le_of_lt hj)]
      exact not_mem_take_of_nodup hbefore hname'

/-- The first of the repeated names is reported, not the one that stands first, and the
number of names is reported before any repetition. -/
theorem ofNames_bijection_samples :
    (∃ o x, ofNames ["a", "b"] = .ok o ∧ o.lookup? "b" = some x ∧ x.toIndex = 1 ∧
      o.nameOf x = .ok "b" ∧ o.lookup? "c" = none) ∧
    ofNames ["a", "b", "c", "b", "a"] = .error (.duplicateVariable "b") ∧
    ofNames (List.replicate 65535 "a") = .error (.tooManyVariables 65535 65534) := by
  refine ⟨?_, ?_, ?_⟩
  · obtain ⟨hiff, hok, -⟩ := ofNames_bijection ["a", "b"]
    obtain ⟨o, ho⟩ := hiff.2 (by decide)
    obtain ⟨-, -, hfound, -, hother, -⟩ := hok o ho
    obtain ⟨x, hx, hindex, hname⟩ := hfound "b" (by decide)
    exact ⟨o, x, ho, hx, hindex, hname, hother "c" (by decide)⟩
  · obtain ⟨-, -, -, hrepeat⟩ := ofNames_bijection ["a", "b", "c", "b", "a"]
    obtain ⟨i, name, he, hi, hmem, hfirst⟩ := hrepeat (by decide) (by decide)
    rw [he]
    match i with
    | 0 | 1 | 2 => revert hmem; cases hi; decide
    | 3 => cases hi; rfl
    | 4 => exact absurd (hfirst 3 "b" (by decide) rfl) (by decide)
    | i + 5 => cases hi
  · obtain ⟨-, -, hlong, -⟩ := ofNames_bijection (List.replicate 65535 "a")
    rw [List.length_replicate] at hlong
    exact hlong (by decide)

end VarOrder

end DecisionDiagram
