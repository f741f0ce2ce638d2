import DecisionDiagram.Dot.Label

/-!
# Reading labels

The two passes that escape a name amount to a single one, which treats each character by
itself.  Hence what a label holds can be read back, whatever text comes after its closing
quote.  So a label determines both the name and where it ends, even if the name imitates
what usually follows a label.
-/

namespace DecisionDiagram

namespace Dot

variable {c : Char} {name name' text rest rest' : List Char}

/-- A character of a name as it stands in the label, behind a backslash if it is a backslash
or a quote itself. -/
def guarded (c : Char) : List Char := if c = '\\' ∨ c = '"' then ['\\', c] else [c]

/-- The two passes are a single one, as the second finds no quote among the characters that
the first has put in. -/
theorem escapeChars_eq_flatMap (name : List Char) : escapeChars name = name.flatMap guarded := by
  have hpasses (c : Char) :
      substitute '"' ['\\', '"'] (if c = '\\' then ['\\', '\\'] else [c]) = guarded c := by
    by_cases hback : c = '\\'
    · subst hback
      rfl
    · by_cases hquote : c = '"'
      · subst hquote
        rfl
      · simp [substitute, guarded, hback, hquote]
  calc escapeChars name
      = name.flatMap fun c =>
          substitute '"' ['\\', '"'] (if c = '\\' then ['\\', '\\'] else [c]) :=
        List.flatMap_assoc
    _ = name.flatMap guarded := by rw [funext hpasses]

/-- Any character but a backslash and a quote stands for itself. -/
theorem readLabel_cons (hback : c ≠ '\\') (hquote : c ≠ '"') :
    readLabel (c :: rest) = (readLabel rest).map fun (name, rest) => (c :: name, rest) := by
  rw [readLabel.eq_def]
  split
  · next h => cases h
  · next h => cases h; exact absurd rfl hback
  · next h => cases h; exact absurd rfl hback
  · next h => cases h; rw [if_neg hquote]

/-- Each character is read back as it was. -/
theorem readLabel_guarded (c : Char) (rest : List Char) :
    readLabel (guarded c ++ rest) =
      (readLabel rest).map fun (name, rest) => (c :: name, rest) := by
  unfold guarded
  split
  · rw [List.cons_append, List.singleton_append, readLabel]
  · next h =>
    obtain ⟨hback, hquote⟩ := not_or.1 h
    rw [List.singleton_append, readLabel_cons hback hquote]

theorem readLabel_escapeChars (name rest : List Char) :
    readLabel (escapeChars name ++ '"' :: rest) = some (name, rest) := by
  rw [escapeChars_eq_flatMap]
  induction name with
  | nil => rfl
  | cons c name ih =>
    rw [List.flatMap_cons, List.append_assoc, readLabel_guarded, ih]
    rfl

/-- Where two texts begin with a label and agree, the names and what follows agree. -/
theorem label_cancel
    (h : escapeChars name ++ '"' :: rest = escapeChars name' ++ '"' :: rest') :
    name = name' ∧ rest = rest' := by
  have hread := congrArg readLabel h
  rw [readLabel_escapeChars, readLabel_escapeChars] at hread
  exact Prod.mk.inj (Option.some.inj hread)

/-- A label that has ended is not read on. -/
theorem readLabel_append (h : readLabel text = some (name, rest)) (more : List Char) :
    readLabel (text ++ more) = some (name, rest ++ more) := by
  fun_induction readLabel text generalizing name with
  | case1 => cases h
  | case2 => cases h
  | case3 c text ih =>
    obtain ⟨⟨name, rest⟩, hread, heq⟩ := Option.map_eq_some_iff.1 h
    obtain ⟨rfl, rfl⟩ := Prod.mk.inj heq
    rw [List.cons_append, List.cons_append, readLabel, ih hread]
    rfl
  | case4 text =>
    cases h
    rfl
  | case5 c text hlone hback hquote ih =>
    obtain ⟨⟨name, rest⟩, hread, heq⟩ := Option.map_eq_some_iff.1 h
    obtain ⟨rfl, rfl⟩ := Prod.mk.inj heq
    have hslash : c ≠ '\\' := by
      intro hc
      cases text with
      | nil => exact hlone hc rfl
      | cons d text => exact hback d text hc rfl
    rw [List.cons_append, readLabel_cons hslash hquote, ih hread]
    rfl

/-- Before its closing quote a label does not end. -/
theorem readLabel_take_escapeChars (name : List Char) (k : Nat) :
    readLabel ((escapeChars name).take k) = none := by
  cases hread : readLabel ((escapeChars name).take k) with
  | none => rfl
  | some label =>
    -- The whole label would be read the same way, and its closing quote left behind.
    have hwhole := readLabel_append hread ((escapeChars name).drop k ++ ['"'])
    rw [← List.append_assoc, List.take_append_drop, readLabel_escapeChars] at hwhole
    simp at hwhole

/-- A label is read in one way only. Whatever text follows, the reading ends right behind the
closing quote, and no earlier, and gives the name back; for the characters before that quote are
those of a single pass, which puts a backslash before each backslash and each quote. -/
theorem escape_unambiguous (name rest : String) :
    readLabel (escape name ++ "\"" ++ rest).toList = some (name.toList, rest.toList) ∧
      (∀ k, readLabel ((escape name).toList.take k) = none) ∧
      (escape name).toList = name.toList.flatMap guarded := by
  have hescape : (escape name).toList = escapeChars name.toList := String.toList_ofList
  refine ⟨?_, fun k => ?_, ?_⟩
  · rw [String.toList_append, String.toList_append, hescape, List.append_assoc]
    exact readLabel_escapeChars name.toList rest.toList
  · rw [hescape]
    exact readLabel_take_escapeChars name.toList k
  · rw [hescape]
    exact escapeChars_eq_flatMap name.toList

/-- A backslash at the end of a name does not take in the closing quote. -/
example : readLabel (escape "\"\\" ++ "\"];").toList = some (['"', '\\'], "];".toList) := by
  decide

end Dot

end DecisionDiagram
