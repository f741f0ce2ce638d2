import DecisionDiagram.Proofs.Cover.Requests
import DecisionDiagram.Proofs.Order.Translation

/-!
# Named values in another order

Named values often come out of a map, in whatever order it has them.  The order does not
show in the cube that is made of them, whatever cells were written on the way, and so not in
a cover that is filled with such cubes.  With repeated names the cube is that of the last
pair for each name.  Only in the report of a name that is not in the order the first one
counts.
-/

namespace DecisionDiagram

open Assignment (lastPairs)

/-- The requests are equal up to the order in which values of distinct names are given. -/
inductive Request.Reordered : Request → Request → Prop
  /-- The pairs are given in another order. -/
  | allow {pairs pairs' : List (String × Bool)} (output : Bool) :
    pairs.Perm pairs' → (pairs.map Prod.fst).Nodup →
    Reordered (.allow pairs output) (.allow pairs' output)
  /-- The request is the same. -/
  | same (request : Request) : Reordered request request

namespace Cover

variable {c c' : Cover} {request request' : Request} {requests requests' : List Request}

/-- A request succeeds in every order of its pairs, or in none, and with the same cover. -/
theorem perform_reordered (h : request.Reordered request') :
    c.perform request = .ok c' ↔ c.perform request' = .ok c' := by
  cases h with
  | allow output hperm hnodup =>
    cases output with
    | false => rfl
    | true =>
      have hcube : ∀ cube, c.order.cubeOf _ = .ok cube ↔ c.order.cubeOf _ = .ok cube := fun cube =>
        VarOrder.cubeOf_eq_ok_congr (Assignment.lastValue_perm hperm hnodup)
      simp only [perform, allow_true_eq_ok_iff, hcube]
  | same => rfl

/-- Requests that differ only in the order of their pairs lead to the same cover. -/
theorem serve_reordered (h : List.Forall₂ Request.Reordered requests requests') (c : Cover) :
    (c.serve requests).1 = (c.serve requests').1 := by
  induction h generalizing c with
  | nil => rfl
  | @cons request request' requests requests' hrequest _ ih =>
    cases hperform : c.perform request with
    | ok c' =>
      have hperform' := (perform_reordered hrequest).1 hperform
      rw [serve_cons_ok hperform, serve_cons_ok hperform']
      exact ih c'
    | error failure =>
      cases hperform' : c.perform request' with
      | ok c' =>
        rw [(perform_reordered hrequest).2 hperform'] at hperform
        cases hperform
      | error failure' =>
        rw [serve_cons_error hperform, serve_cons_error hperform']
        exact ih c

/-- If the names are distinct then pairs have the same cube in every order, or in none, and
requests that differ in such orders only lead from every cover to the same cover. In any
case the last pairs for each name have the same cube as all pairs. If there is none then
the first name that is not in the order is reported. -/
theorem cubeOf_reordered (o : VarOrder) (pairs : List (String × Bool)) :
    (∀ pairs', pairs.Perm pairs' → (pairs.map Prod.fst).Nodup →
      ∀ cube, o.cubeOf pairs = .ok cube ↔ o.cubeOf pairs' = .ok cube) ∧
    (∀ (c : Cover) (requests requests' : List Request),
      List.Forall₂ Request.Reordered requests requests' →
      (c.serve requests).1 = (c.serve requests').1) ∧
    ((lastPairs pairs).Sublist pairs ∧ ((lastPairs pairs).map Prod.fst).Nodup ∧
      ∀ cube, o.cubeOf pairs = .ok cube ↔ o.cubeOf (lastPairs pairs) = .ok cube) ∧
    ∀ e, o.cubeOf pairs = .error e ↔ ∃ before name value after,
      pairs = before ++ (name, value) :: after ∧ (∀ pair ∈ before, pair.1 ∈ o.names) ∧
      name ∉ o.names ∧ e = .unknownVariable name := by
  refine ⟨?_, fun c _ _ h => serve_reordered h c, ⟨?_, ?_, ?_⟩,
    fun e => VarOrder.cubeOf_eq_error_iff⟩
  · intro pairs' hperm hnodup cube
    exact VarOrder.cubeOf_eq_ok_congr (Assignment.lastValue_perm hperm hnodup)
  · exact Assignment.sublist_lastPairs pairs
  · exact Assignment.nodup_lastPairs pairs
  · intro cube
    exact VarOrder.cubeOf_eq_ok_congr (Assignment.lastValue_lastPairs pairs).symm

theorem cubeOf_reordered_two :
    ∃ cube, (sample true).order.cubeOf [("b", true), ("a", false)] = .ok cube ∧
      (sample true).order.cubeOf [("a", false), ("b", true)] = .ok cube ∧
      (sample true).order.cubeOf [("b", false), ("a", false), ("b", true)] = .ok cube ∧
      ((sample true).serve [.allow [("b", true), ("a", false)] true]).1 =
        ((sample true).serve [.allow [("a", false), ("b", true)] true]).1 ∧
      (sample true).order.cubeOf [("b", false), ("z", true), ("y", true)] =
        .error (.unknownVariable "z") := by
  have happly := cubeOf_reordered (sample true).order
  have hnames : (sample true).order.names = #["a", "b"] := rfl
  have hswap : [("b", true), ("a", false)].Perm [("a", false), ("b", true)] := .swap _ _ _
  have hknown : ∀ pair ∈ [("b", true), ("a", false)], pair.1 ∈ (sample true).order.names := by
    simp [hnames]
  obtain ⟨cube, hcube⟩ := VarOrder.exists_cubeOf_iff.2 hknown
  obtain ⟨hperm, hserve, -⟩ := happly [("b", true), ("a", false)]
  have hcube' := (hperm _ hswap (by decide) cube).1 hcube
  refine ⟨cube, hcube, hcube', ?_, ?_, ?_⟩
  · obtain ⟨-, -, ⟨-, -, hlast⟩, -⟩ := happly [("b", false), ("a", false), ("b", true)]
    exact (hlast cube).2 hcube'
  · exact hserve _ _ _ (.cons (.allow true hswap (by decide)) .nil)
  · obtain ⟨-, -, -, herror⟩ := happly [("b", false), ("z", true), ("y", true)]
    rw [herror]
    exact ⟨[("b", false)], "z", true, [("y", true)], rfl, by simp [hnames], by simp [hnames], rfl⟩

end Cover

end DecisionDiagram
