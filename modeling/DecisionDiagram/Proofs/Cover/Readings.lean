import DecisionDiagram.Proofs.Assignment.Pairs
import DecisionDiagram.Proofs.Cover.Requests
import DecisionDiagram.Proofs.Diagram.Partial

/-!
# Two readings of named values

A list of named values is read when a cover is filled, pair by pair and forwards, and when
a diagram is evaluated, name by name and backwards or through a map.  Both find the same
value for each name of the order.  So what has been declared true never turns out to be
false: under the very values of a declaration a diagram is true, or it asks for a name that
has no value there.
-/

namespace DecisionDiagram

namespace Cover

open Assignment (valueOf lastValue Source)

variable {c c' : Cover} {cube : Cube} {pairs : List (String × Bool)} {o : VarOrder}

/-- The value to which a variable is fixed is the value of its name, in whatever form the
values are. -/
theorem get?_cubeOf_eq_valueOf {source : Source} {name : String} {x : Variable}
    (hcube : o.cubeOf pairs = .ok cube) (hx : o.lookup? name = some x)
    (hsource : source.Holds pairs) : cube.get? x = valueOf source name := by
  rw [VarOrder.get?_cubeOf hcube, VarOrder.lookup?_eq_some_iff.1 hx, Option.bind_some,
    hsource.valueOf_eq]

/-- A declaration for `true` puts its cube into the cover, and it stays there. -/
theorem mem_cubes_serve_of_allow (hallow : c.allow pairs true = .ok c') (requests : List Request) :
    ∃ cube, c.order.cubeOf pairs = .ok cube ∧ (c'.serve requests).1.order = c.order ∧
      cube ∈ (c'.serve requests).1.cubes := by
  obtain ⟨cube, hcube, hadd⟩ := allow_true_eq_ok_iff.1 hallow
  obtain ⟨hwithin, rfl⟩ := add_eq_ok_iff.1 hadd
  refine ⟨cube, hcube, order_serve _ _, mem_cubes_serve.2 (.inl ?_)⟩
  simp [push]

/-- With names that are all in the order a declaration for `true` succeeds. -/
theorem exists_allow (hpairs : ∀ pair ∈ pairs, pair.1 ∈ c.order.names) :
    ∃ c', c.allow pairs true = .ok c' := by
  obtain ⟨cube, hcube⟩ := VarOrder.exists_cubeOf_iff.2 hpairs
  exact ⟨_, allow_true_eq_ok_iff.2 ⟨cube, hcube, add_cubeOf hcube⟩⟩

section Evaluation

variable {α : Type u} [Assignment α] {a : α}

/-- Under values that agree with a cube of named values no result is `false`. -/
theorem eq_true_of_evalNamed (hcube : c.order.cubeOf pairs = .ok cube) (hmem : cube ∈ c.cubes)
    (ha : valueOf a = lastValue pairs) (hsize : c.diagram.size ≤ 4294967296) {b : Bool}
    (heval : c.diagram.evalNamed a = .ok b) : b = true := by
  -- The names that were not asked for may have any value.
  let total : String → Option Bool := fun name => some ((valueOf a name).getD false)
  have hext : Assignment.Extends a total := by
    intro name value hvalue
    simp [total, valueOf, hvalue]
  have htotal := c.grounded_diagram.evalNamed_of_extends heval hext
  have hall : ∀ name ∈ c.order.names, (valueOf total name).isSome := fun _ _ => rfl
  have hpoint := (c.valid_diagram hsize).evalNamed_eq hall
  obtain rfl := Except.ok.inj (htotal.symm.trans hpoint)
  rw [valueAt_diagram c hsize]
  refine ⟨cube, hmem, (agreesFrom_point_iff hcube hall).2 fun name value hvalue => ?_⟩
  exact hext name value (ha ▸ hvalue)

end Evaluation

/-- If all names of a list of pairs are in the order then its cube has for each name of the
order the value that the list has for it, as a search from the end finds it and as every
form of the list gives it. And once the list has been declared true, the diagram of the
cover, whatever else was or will be in it, does not evaluate to `false` under the list: it
is `true`, or reports a name that is not in the list. -/
theorem readings_agree (o : VarOrder) (pairs : List (String × Bool))
    (hpairs : ∀ pair ∈ pairs, pair.1 ∈ o.names) :
    ∃ cube, o.cubeOf pairs = .ok cube ∧
      (∀ name ∈ o.names, ∃ x, o.lookup? name = some x ∧
        cube.get? x = (pairs.reverse.find? fun pair => pair.1 = name).map Prod.snd ∧
        ∀ source : Source, source.Holds pairs → cube.get? x = valueOf source name) ∧
      ∀ c : Cover, c.order = o → ∃ c', c.allow pairs true = .ok c' ∧
        ∀ requests, ∃ d, (c'.serve requests).1.compile = .ok d ∧ (d.size ≤ 4294967296 →
          ∀ source : Source, source.Holds pairs →
            d.evalNamed source = .ok true ∨
            ∃ name ∈ o.names, name ∉ pairs.map Prod.fst ∧
              d.evalNamed source = .error (.input (.missingVariable name))) := by
  obtain ⟨cube, hcube⟩ := VarOrder.exists_cubeOf_iff.2 hpairs
  refine ⟨cube, hcube, ?_, ?_⟩
  · intro name hname
    obtain ⟨x, hx⟩ := VarOrder.exists_getElem?_of_mem hname
    rw [← VarOrder.lookup?_eq_some_iff] at hx
    refine ⟨x, hx, ?_, fun source => get?_cubeOf_eq_valueOf hcube hx⟩
    rw [← Assignment.lastValue_eq_find?]
    exact get?_cubeOf_eq_valueOf hcube hx .slice
  · rintro c rfl
    obtain ⟨c', hallow⟩ := exists_allow hpairs
    refine ⟨c', hallow, fun requests => ⟨_, compile_eq _, fun hsize source hsource => ?_⟩⟩
    obtain ⟨cube', hcube', horder, hmem⟩ := mem_cubes_serve_of_allow hallow requests
    rw [← horder] at hcube'
    cases heval : (c'.serve requests).1.diagram.evalNamed source with
    | ok b =>
      left
      rw [eq_true_of_evalNamed hcube' hmem hsource.valueOf_eq hsize heval]
    | error e =>
      right
      obtain ⟨-, -, x, name, -, hname, hnone, rfl⟩ := (grounded_diagram _).exists_stuck heval
      rw [hsource.valueOf_eq, Assignment.lastValue_eq_none_iff] at hnone
      refine ⟨name, ?_, hnone, rfl⟩
      rw [← horder]
      exact Array.mem_of_getElem? hname

theorem readings_agree_repeated :
    ∃ cube x, (sample true).order.cubeOf [("b", false), ("a", true), ("b", true)] = .ok cube ∧
      (sample true).order.lookup? "b" = some x ∧ cube.get? x = some true ∧
      ∃ c d, (sample true).allow [("b", false), ("a", true), ("b", true)] true = .ok c ∧
        c.compile = .ok d ∧
        d.evalNamed (Source.slice [("b", false), ("a", true), ("b", true)]) = .ok true := by
  have hnames : (sample true).order.names = #["a", "b"] := rfl
  obtain ⟨cube, hcube, hread, heval⟩ := readings_agree (sample true).order
    [("b", false), ("a", true), ("b", true)] (by simp [hnames])
  obtain ⟨x, hx, hget, -⟩ := hread "b" (by simp [hnames])
  obtain ⟨c, hc, hlater⟩ := heval (sample true) rfl
  obtain ⟨d, hd, hresult⟩ := hlater []
  have hperform : (sample true).perform (.allow _ true) = .ok c := hc
  have horder : c.order = (sample true).order := (perform_eq_ok hperform).1
  have hsize : d.size ≤ 4294967296 := by
    refine Nat.le_trans (size_compile_le hd) ?_
    rw [serve, horder]
    decide
  refine ⟨cube, x, hcube, hx, hget, c, d, hc, hd, ?_⟩
  rcases hresult hsize _ .slice with htrue | ⟨name, hmem, hmissing, -⟩
  · exact htrue
  · simp only [hnames, List.mem_toArray, List.mem_cons, List.not_mem_nil, or_false] at hmem
    rcases hmem with rfl | rfl
    · exact absurd (by decide) hmissing
    · exact absurd (by decide) hmissing

end Cover

end DecisionDiagram
