import Mathlib.Data.List.Basic

/-!
# Decimal numbers in a text

A number that is written in a text can be told from what surrounds it: it goes on up to the
first character that is no digit, and at the end of a text it begins after the last one.
-/

namespace DecisionDiagram

variable {m n : Nat} {c c' : Char} {s t : List Char}

theorem takeWhile_number (hc : c.isDigit = false) :
    (Nat.toDigits 10 n ++ c :: s).takeWhile Char.isDigit = Nat.toDigits 10 n := by
  rw [List.takeWhile_append_of_pos fun _ =>
      Nat.isDigit_of_mem_toDigits (by decide) (Nat.le_refl 10), List.takeWhile_cons, hc]
  exact List.append_nil _

/-- Different numbers are written differently. -/
theorem number_inj (h : Nat.toDigits 10 m = Nat.toDigits 10 n) : m = n := by
  have hvalue := congrArg (Nat.ofDigitChars 10 · 0) h
  simpa only [Nat.ofDigitChars_ten_toDigits] using hvalue

/-- A number ends at the first character that is no digit. -/
theorem number_cancel (hc : c.isDigit = false) (hc' : c'.isDigit = false)
    (h : Nat.toDigits 10 m ++ c :: s = Nat.toDigits 10 n ++ c' :: t) :
    m = n ∧ c :: s = c' :: t := by
  have hdigits := congrArg (List.takeWhile Char.isDigit) h
  rw [takeWhile_number hc, takeWhile_number hc'] at hdigits
  rw [hdigits] at h
  exact ⟨number_inj hdigits, List.append_cancel_left h⟩

/-- A number at the end of a text begins after the last character that is no digit. -/
theorem number_cancel_right (hc : c.isDigit = false)
    (h : s ++ c :: Nat.toDigits 10 m = t ++ c :: Nat.toDigits 10 n) : s = t ∧ m = n := by
  have hdigits : ∀ k, ∀ a ∈ (Nat.toDigits 10 k).reverse, a.isDigit := fun k a ha =>
    Nat.isDigit_of_mem_toDigits (by decide) (Nat.le_refl 10) (List.mem_reverse.1 ha)
  have hreverse := congrArg List.reverse h
  simp only [List.reverse_append, List.reverse_cons, List.append_assoc, List.singleton_append]
    at hreverse
  have hlast := congrArg (List.takeWhile Char.isDigit) hreverse
  rw [List.takeWhile_append_of_pos (hdigits m), List.takeWhile_append_of_pos (hdigits n),
    List.takeWhile_cons, List.takeWhile_cons, hc] at hlast
  have hmn := number_inj (List.reverse_inj.1 (by simpa using hlast))
  subst hmn
  exact ⟨List.append_cancel_right h, rfl⟩

/-- A number begins with a digit. -/
theorem number_ne (hc : c.isDigit = false) : Nat.toDigits 10 n ++ s ≠ c :: t := by
  intro h
  obtain ⟨first, rest, hdigits⟩ :=
    List.exists_cons_of_ne_nil (Nat.toDigits_ne_nil (n := n) (b := 10))
  have hfirst : first.isDigit := Nat.isDigit_of_mem_toDigits (by decide) (Nat.le_refl 10)
    (hdigits ▸ List.mem_cons_self)
  rw [hdigits, List.cons_append] at h
  obtain rfl := (List.cons.inj h).1
  rw [hc] at hfirst
  cases hfirst

end DecisionDiagram
