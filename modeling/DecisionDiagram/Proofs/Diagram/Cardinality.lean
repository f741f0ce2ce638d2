import DecisionDiagram.Proofs.Diagram.Count
import DecisionDiagram.Proofs.Number.Binary64
import DecisionDiagram.Proofs.Tree.Reach

/-!
# The count in binary64

The pass in binary64 computes with exact numbers as long as the count stays within the
range of exact natural numbers, with one exception.  The weight of a link is a power of two,
which is infinite if the link skips more than 1023 variables.  A link to a node that can be
satisfied does not skip so many then; but one to the terminal `0` may, and zero times
infinity is not a number.  Whatever is added to it later, the result is not a number either,
and it is reported as infinite.
-/

namespace DecisionDiagram

namespace Diagram

open Binary64

variable {d : Diagram} {id id' : NodeId} {node : Node} {b : Bool} {f : NodeId → Float}
  {g : NodeId → Nat}

/-- From the node one gets to a decision node that is linked to the terminal `0` over more
than 1023 variables. -/
def DropsFar (d : Diagram) (id : NodeId) : Prop :=
  ∃ (id' : NodeId) (node : Node) (b : Bool), d.Reaches id id' ∧ 2 ≤ id'.toIndex ∧
    d.nodes[id'.toIndex]? = some node ∧ node.child b = .zero ∧
    node.var.toIndex + 1024 < d.numVars.toNat

/-! ### Far drops -/

/-- Nothing else can be reached from a terminal. -/
theorem Valid.eq_of_reaches_ofBool (hd : d.Valid) (h : d.Reaches (.ofBool b) id) :
    id = .ofBool b := by
  induction h with
  | refl => rfl
  | tail _ hlink ih =>
    obtain ⟨node, c, hn, rfl⟩ := hlink
    subst ih
    exact hd.child_ofBool hn c

theorem Valid.not_dropsFar_ofBool (hd : d.Valid) : ¬d.DropsFar (.ofBool b) := by
  rintro ⟨id, node, c, hreach, h2, -⟩
  rw [hd.eq_of_reaches_ofBool hreach] at h2
  exact NodeId.not_two_le_ofBool b h2

theorem dropsFar_node_iff (h2 : 2 ≤ id.toIndex) (hn : d.nodes[id.toIndex]? = some node) :
    d.DropsFar id ↔ ∃ b, node.child b = .zero ∧ node.var.toIndex + 1024 < d.numVars.toNat ∨
      d.DropsFar (node.child b) := by
  constructor
  · rintro ⟨id', node', b, hreach, h2', hn', hfar⟩
    rcases Relation.ReflTransGen.cases_head hreach with rfl | ⟨child, hlink, hreach'⟩
    · obtain rfl := Option.some.inj (hn.symm.trans hn')
      exact ⟨b, .inl hfar⟩
    · obtain ⟨node₁, c, hn₁, rfl⟩ := hlink
      obtain rfl := Option.some.inj (hn.symm.trans hn₁)
      exact ⟨c, .inr ⟨id', node', b, hreach', h2', hn', hfar⟩⟩
  · rintro ⟨b, hfar | ⟨id', node', c, hreach, hrest⟩⟩
    · exact ⟨id, node, b, .refl, h2, hn, hfar⟩
    · exact ⟨id', node', c, .head ⟨node, b, hn, rfl⟩ hreach, hrest⟩

/-- With few variables no link skips so many. -/
theorem not_dropsFar_of_le (h : d.numVars.toNat ≤ 1024) : ¬d.DropsFar id := by
  rintro ⟨id', node, b, -, -, -, -, hfar⟩
  omega

/-! ### What contributes what -/

theorem weight_eq_nan (h : d.sideWeight f id (node.child b) = Float.nan) :
    d.weight f id node = Float.nan := by
  cases b with
  | false =>
    rw [weight_eq, h]
    exact nan_add _
  | true =>
    rw [weight_eq, h]
    exact add_nan _

/-- A far drop makes every number above it meaningless. -/
theorem Counted.eq_nan (hd : d.Valid) (hf : d.Counted d.size f) (hid : id.toIndex < d.size)
    (h : d.DropsFar id) : f id = Float.nan := by
  induction id, hid using hd.induct with
  | terminal b _ => exact absurd h hd.not_dropsFar_ofBool
  | decision id node hid h2 hn ih =>
    obtain ⟨b, hb⟩ := (dropsFar_node_iff h2 hn).1 h
    have hside : d.sideWeight f id (node.child b) = Float.nan := by
      rcases hb with ⟨hzero, hfar⟩ | hchild
      · have hskip : 1023 < d.skipped id .zero := by
          rw [skipped, level_of_node hn, hd.grounded.level_zero]
          omega
        rw [hzero, sideWeight, hf.zero_eq]
        exact nat_zero_mul_of_lt hskip
      · rw [sideWeight, ih b (hd.child_lt_size h2 hn b) hchild]
        exact nan_mul _
    rw [hf.node_eq id node h2 hid hn]
    exact weight_eq_nan hside

/-- Only the terminal `0` is counted as zero. -/
theorem Counted.pos (hd : d.Valid) (hg : d.Counted d.size g) (hid : id.toIndex < d.size)
    (hne : id ≠ .zero) : 0 < g id := by
  induction id, hid using hd.induct with
  | terminal b _ =>
    cases b with
    | false => exact absurd rfl hne
    | true => exact Nat.lt_of_lt_of_eq Nat.one_pos hg.one_eq.symm
  | decision id node hid h2 hn ih =>
    -- The children are different, so one of them is not the terminal `0`.
    obtain ⟨b, hb⟩ : ∃ b, node.child b ≠ .zero := by
      by_contra hnone
      have hzero : ∀ b, node.child b = .zero := by simpa using hnone
      exact (hd.fits _ _ h2 hn).low_ne_high ((hzero false).trans (hzero true).symm)
    have hside : 0 < d.sideWeight g id (node.child b) :=
      Nat.mul_pos (ih b (hd.child_lt_size h2 hn b) hb) (Nat.two_pow_pos _)
    rw [hg.node_eq id node h2 hid hn]
    cases b with
    | false => exact Nat.add_pos_left hside _
    | true => exact Nat.add_pos_right _ hside

/-- What a link contributes is exact if it is in the range and the link does not drop far. -/
theorem sideWeight_eq_nat {child : NodeId} (hle : d.sideWeight g id child ≤ 2 ^ 53)
    (hpos : child ≠ .zero → 0 < g child) (hzero : g .zero = 0)
    (hnear : child = .zero → d.skipped id .zero ≤ 1023)
    (h : g child ≤ 2 ^ 53 → f child = nat (g child)) :
    d.sideWeight f id child = nat (d.sideWeight g id child) := by
  have hpow := Nat.two_pow_pos (d.skipped id child)
  have hmul : g child * 2 ^ d.skipped id child ≤ 2 ^ 53 := hle
  have hchild := h (Nat.le_trans (Nat.le_mul_of_pos_right _ hpow) hmul)
  rw [sideWeight, hchild]
  by_cases hc : child = .zero
  · subst hc
    have hweight : d.sideWeight g id .zero = 0 := by
      rw [sideWeight, hzero]
      exact Nat.zero_mul _
    rw [hweight, hzero]
    exact nat_zero_mul (hnear rfl)
  · exact nat_mul hmul (hpos hc)

/-- Without far drops below a node its number is exact, as long as it is in the range. -/
theorem Counted.eq_nat (hd : d.Valid) (hf : d.Counted d.size f) (hg : d.Counted d.size g)
    (hid : id.toIndex < d.size) (hle : g id ≤ 2 ^ 53) (h : ¬d.DropsFar id) :
    f id = nat (g id) := by
  induction id, hid using hd.induct with
  | terminal b _ =>
    cases b with
    | false => exact (hf.zero_eq.trans nat_zero).trans (congrArg nat hg.zero_eq.symm)
    | true => exact (hf.one_eq.trans nat_one).trans (congrArg nat hg.one_eq.symm)
  | decision id node hid h2 hn ih =>
    have hsum : g id = d.sideWeight g id (node.child false) + d.sideWeight g id (node.child true) :=
      hg.node_eq id node h2 hid hn
    rw [dropsFar_node_iff h2 hn] at h
    have hside : ∀ b, d.sideWeight g id (node.child b) ≤ 2 ^ 53 →
        d.sideWeight f id (node.child b) = nat (d.sideWeight g id (node.child b)) := by
      intro b hle
      have hchild := hd.child_lt_size h2 hn b
      refine sideWeight_eq_nat hle (hg.pos hd hchild) hg.zero_eq (fun hb => ?_) fun hle => ?_
      · have hnear : ¬node.var.toIndex + 1024 < d.numVars.toNat :=
          fun hfar => h ⟨b, .inl ⟨hb, hfar⟩⟩
        rw [skipped, level_of_node hn, hd.grounded.level_zero]
        omega
      · exact ih b hchild hle fun hdrop => h ⟨b, .inr hdrop⟩
    rw [hf.node_eq id node h2 hid hn, weight_eq, hside false (by omega), hside true (by omega),
      hsum]
    exact nat_add (by omega)

/-! ### The reported count -/

theorem settle_nan (x : Float) : Counting.settle (Counting.mul Float.nan x) = Float.inf := by
  have hnan : Counting.mul Float.nan x = Float.nan := nan_mul x
  rw [hnan]
  decide

theorem settle_nat {m : Nat} (hm : m ≤ 2 ^ 53) : Counting.settle (nat m) = nat m := by
  have hnan : ¬(nat m).isNaN := by
    rw [isNaN_nat hm]
    exact Bool.false_ne_true
  exact if_neg hnan

/-- With a far drop below the root the count is reported as infinite. -/
theorem Valid.cardinality_of_dropsFar (hd : d.Valid) (h : d.DropsFar d.root) :
    d.cardinality = .ok Float.inf := by
  obtain ⟨f, hf, htally⟩ := hd.tally_eq Float
  have hfalse : ¬d.isFalse := by
    intro hfalse
    have hroot : d.root = .ofBool false := of_decide_eq_true hfalse
    exact hd.not_dropsFar_ofBool (hroot ▸ h)
  rw [cardinality, htally, if_neg hfalse, hf.eq_nan hd hd.root_lt h, settle_nan]

/-- Without a far drop below the root the reported count is exact if it is in the range. -/
theorem Valid.cardinality_of_not_dropsFar (hd : d.Valid) {m : Nat} (hcount : d.count = .ok m)
    (hm : m ≤ 2 ^ 53) (h : ¬d.DropsFar d.root) : d.cardinality = .ok (nat m) := by
  obtain ⟨f, hf, htally⟩ := hd.tally_eq Float
  obtain ⟨g, hg, htally'⟩ := hd.tally_eq Nat
  rw [count, htally'] at hcount
  rw [cardinality, htally]
  by_cases hfalse : d.isFalse
  · rw [if_pos hfalse] at hcount ⊢
    obtain rfl := Except.ok.inj hcount
    exact congrArg _ nat_zero
  · rw [if_neg hfalse] at hcount ⊢
    have hroot : d.root ≠ .zero := fun hroot => hfalse (decide_eq_true hroot)
    obtain rfl : g d.root * 2 ^ d.level d.root = m := Except.ok.inj hcount
    have hle : g d.root ≤ 2 ^ 53 :=
      Nat.le_trans (Nat.le_mul_of_pos_right _ (Nat.two_pow_pos _)) hm
    rw [hf.eq_nat hd hg hd.root_lt hle h]
    refine congrArg _ ((congrArg _ ?_).trans (settle_nat hm))
    exact nat_mul hm (hg.pos hd hd.root_lt hroot)

/-- In a table of at most `2 ^ 32` entries, unless a link drops far below the root, a count of
up to `2 ^ 53` satisfying valuations is reported exactly; otherwise the count is reported as
infinite, however small it is. With up to 1024 variables no link drops far. A table that passes
the check has no more entries; of a compiled one it is assumed. -/
theorem Obtained.cardinality_models (h : d.Obtained)
    (hsize : ∀ c : Cover, c.compile = .ok d → d.size ≤ 4294967296) :
    d.models.Finite ∧
      (d.models.ncard ≤ 2 ^ 53 → ¬d.DropsFar d.root →
        d.cardinality = .ok (Float.ofNat d.models.ncard) ∧
          (Float.ofNat d.models.ncard).isFinite ∧
          value? (Float.ofNat d.models.ncard) = some (d.models.ncard : ℚ)) ∧
      (d.DropsFar d.root → d.cardinality = .ok Float.inf) ∧
      (d.numVars.toNat ≤ 1024 → ¬d.DropsFar d.root) := by
  have hd := h.valid hsize
  refine ⟨hd.grounded.yields_models.1, fun hm hnear => ?_, hd.cardinality_of_dropsFar,
    not_dropsFar_of_le⟩
  rw [ofNat_eq hm]
  exact ⟨hd.cardinality_of_not_dropsFar hd.count_eq_ncard hm hnear, isFinite_nat hm, value?_nat hm⟩

theorem cardinality_models_either : either.cardinality = .ok (Float.ofNat 3) := by
  obtain ⟨-, hexact, -, hnear⟩ := Obtained.cardinality_models obtained_either fun _ _ => by decide
  have hd : either.Valid := obtained_either.valid fun _ _ => by decide
  have hcard : either.models.ncard = 3 :=
    Except.ok.inj (hd.count_eq_ncard.symm.trans (show either.count = .ok 3 by decide))
  rw [← hcard]
  exact (hexact (by rw [hcard]; decide) (hnear (by decide))).1

end Diagram

end DecisionDiagram
