import DecisionDiagram.Cover.Pool
import DecisionDiagram.Proofs.Diagram.Value

/-!
# Sound pools

A pool is sound over an order if its table is a valid diagram so far and, with
sharing, its map finds a node exactly where the table holds it.  `intern` keeps a
pool sound as long as its ids can tell the positions apart, only adds to the table,
and delivers a node whose function decides between the functions of its two sides.
-/

namespace DecisionDiagram

namespace Diagram

variable {d : Diagram} {node : Node}

theorem Fits.extend {d' : Diagram} {i : Nat} (h : d.Fits i node) (ho : d'.order = d.order)
    (hsize : i ≤ d.size) (hext : Extends d.nodes d'.nodes) : d'.Fits i node where
  var_lt := by rw [numVars, ho]; exact h.var_lt
  low_ne_high := h.low_ne_high
  child_lt := h.child_lt
  var_lt_child b child hchild := by
    have hlt : (node.child b).toIndex < d.nodes.size := by
      have := h.child_lt b
      simp only [size] at hsize
      omega
    refine h.var_lt_child b child ?_
    rw [Array.getElem?_eq_getElem hlt, ← hchild]
    exact (hext _ _ (Array.getElem?_eq_getElem hlt)).symm

/-- One more node that fits makes a longer valid table. -/
theorem Valid.push (hd : d.Valid) (fit : d.Fits d.size node) (hsize : d.size < 4294967296) :
    ({ d with nodes := d.nodes.push node } : Diagram).Valid := by
  have hext := Extends.push d.nodes node
  constructor
  · simp only [size, Array.size_push] at *
    omega
  · exact hext _ _ hd.zero_eq
  · exact hext _ _ hd.one_eq
  · have := hd.root_lt
    simp only [size, Array.size_push] at *
    omega
  · intro i node' hi hn
    rw [Array.getElem?_push] at hn
    split at hn
    · rename_i hlast
      subst hlast
      cases hn
      exact fit.extend rfl (Nat.le_refl _) hext
    · have hlt := (Array.getElem?_eq_some_iff.1 hn).1
      exact (hd.fits i node' hi hn).extend rfl (Nat.le_of_lt hlt) hext

end Diagram

theorem NodeId.one_ne_zero : NodeId.one ≠ .zero := by decide

namespace Pool

variable {o : VarOrder} {p : Pool} {node node' : Node} {low high id root : NodeId} {x : Variable}
  {σ : Point}

/-! ### The operations seen through the table and the map -/

@[simp] theorem nodes_log (e : Event) : (p.log e).nodes = p.nodes := rfl
@[simp] theorem ids_log (e : Event) : (p.log e).ids = p.ids := rfl
@[simp] theorem find?_log (e : Event) : (p.log e).find? node = p.find? node := rfl
@[simp] theorem fst_push : (p.push node).1 = .ofIndex p.nodes.size := rfl
@[simp] theorem nodes_push : (p.push node).2.nodes = p.nodes.push node := rfl
@[simp] theorem isSome_ids_push : (p.push node).2.ids.isSome = p.ids.isSome := by simp [push]

theorem find?_eq_none_of_ids (h : p.ids = none) : p.find? node = none := by simp [find?, h]

theorem isSome_ids_of_find? (h : p.find? node = some id) : p.ids.isSome := by
  cases hids : p.ids with
  | some ids => rfl
  | none => rw [find?_eq_none_of_ids hids] at h; cases h

theorem find?_push (h : p.ids.isSome) :
    (p.push node).2.find? node' =
      if node = node' then some (.ofIndex p.nodes.size) else p.find? node' := by
  obtain ⟨ids, hids⟩ := Option.isSome_iff_exists.1 h
  simp [find?, push, hids, Std.HashMap.getElem?_insert]

theorem intern_self (p : Pool) (x : Variable) (id : NodeId) :
    p.intern x id id = (id, p.log (.redundant x id)) := by simp [intern]

theorem intern_of_find?_eq_some (hne : low ≠ high) (h : p.find? ⟨x, low, high⟩ = some id) :
    p.intern x low high = (id, p.log (.reused ⟨x, low, high⟩ id)) := by simp [intern, hne, h]

theorem intern_of_find?_eq_none (hne : low ≠ high) (h : p.find? ⟨x, low, high⟩ = none) :
    p.intern x low high = p.push ⟨x, low, high⟩ := by simp [intern, hne, h]

/-- What a request for a node can come to: the child on both sides, a node that is
there, or a new node. -/
theorem intern_cases (p : Pool) (x : Variable) (low high : NodeId) :
    (low = high ∧ p.intern x low high = (low, p.log (.redundant x low))) ∨
    (low ≠ high ∧ ∃ id, p.find? ⟨x, low, high⟩ = some id ∧
      p.intern x low high = (id, p.log (.reused ⟨x, low, high⟩ id))) ∨
    (low ≠ high ∧ p.find? ⟨x, low, high⟩ = none ∧
      p.intern x low high = p.push ⟨x, low, high⟩) := by
  by_cases heq : low = high
  · subst heq
    exact .inl ⟨rfl, p.intern_self x low⟩
  · cases hf : p.find? ⟨x, low, high⟩ with
    | some id => exact .inr (.inl ⟨heq, id, rfl, intern_of_find?_eq_some heq hf⟩)
    | none => exact .inr (.inr ⟨heq, rfl, intern_of_find?_eq_none heq hf⟩)

theorem extends_intern (p : Pool) (x : Variable) (low high : NodeId) :
    Extends p.nodes (p.intern x low high).2.nodes := by
  rcases p.intern_cases x low high with ⟨-, h⟩ | ⟨-, id, -, h⟩ | ⟨-, -, h⟩ <;> rw [h]
  · exact .refl _
  · exact .refl _
  · exact .push _ _

@[simp] theorem isSome_ids_intern : (p.intern x low high).2.ids.isSome = p.ids.isSome := by
  rcases p.intern_cases x low high with ⟨-, h⟩ | ⟨-, id, -, h⟩ | ⟨-, -, h⟩ <;> rw [h]
  · rfl
  · rfl
  · exact isSome_ids_push

theorem size_intern_le (p : Pool) (x : Variable) (low high : NodeId) :
    (p.intern x low high).2.nodes.size ≤ p.nodes.size + 1 := by
  rcases p.intern_cases x low high with ⟨-, h⟩ | ⟨-, id, -, h⟩ | ⟨-, -, h⟩ <;> rw [h] <;> simp

/-! ### Soundness -/

/-- The table of a pool as a diagram over an order. -/
def diagram (p : Pool) (o : VarOrder) (root : NodeId) : Diagram := ⟨o, p.nodes, root⟩

@[simp] theorem nodes_diagram : (p.diagram o root).nodes = p.nodes := rfl
@[simp] theorem order_diagram : (p.diagram o root).order = o := rfl
@[simp] theorem numVars_diagram : (p.diagram o root).numVars = o.numVars := rfl
@[simp] theorem size_diagram : (p.diagram o root).size = p.nodes.size := rfl

/-- A pool that is a valid diagram so far, with a map that mirrors its table. -/
structure Sound (o : VarOrder) (p : Pool) : Prop where
  /-- The table is that of a diagram. -/
  valid : (p.diagram o .zero).Valid
  /-- With sharing, a node is found exactly where the table holds it. -/
  find?_iff : p.ids.isSome → ∀ (node : Node) (id : NodeId),
    p.find? node = some id ↔ p.nodes[id.toIndex]? = some node

/-- A node that stands in the table and comes at position `k` of the order or later. -/
def Stands (p : Pool) (k : Nat) (id : NodeId) : Prop :=
  ∃ node, p.nodes[id.toIndex]? = some node ∧ k ≤ node.var.toIndex

theorem Stands.lt_size {k : Nat} (h : p.Stands k id) : id.toIndex < p.nodes.size := by
  obtain ⟨node, hn, -⟩ := h
  exact (Array.getElem?_eq_some_iff.1 hn).1

theorem Stands.extend {q : Pool} {k : Nat} (h : p.Stands k id) (hext : Extends p.nodes q.nodes) :
    q.Stands k id := by
  obtain ⟨node, hn, hk⟩ := h
  exact ⟨node, hext _ _ hn, hk⟩

theorem Stands.mono {k j : Nat} (h : p.Stands k id) (hj : j ≤ k) : p.Stands j id := by
  obtain ⟨node, hn, hk⟩ := h
  exact ⟨node, hn, Nat.le_trans hj hk⟩

/-- Two nodes that stand after a variable make a node for it that fits. -/
theorem Stands.fits (hlow : p.Stands (x.toIndex + 1) low) (hhigh : p.Stands (x.toIndex + 1) high)
    (hx : x.toIndex < o.numVars.toNat) (hne : low ≠ high) :
    (p.diagram o .zero).Fits p.nodes.size ⟨x, low, high⟩ where
  var_lt := UInt16.lt_iff_toNat_lt.2 hx
  low_ne_high := hne
  child_lt b := by
    cases b with
    | false => exact hlow.lt_size
    | true => exact hhigh.lt_size
  var_lt_child b child hchild := by
    have hstands : p.Stands (x.toIndex + 1) (Node.child ⟨x, low, high⟩ b) := by
      cases b with
      | false => exact hlow
      | true => exact hhigh
    obtain ⟨child', hchild', hlt⟩ := hstands
    obtain rfl : child' = child := Option.some.inj (hchild'.symm.trans hchild)
    exact Variable.lt_iff.2 hlt

@[simp] theorem size_start (n : UInt16) (sharing : Bool) : (start n sharing).nodes.size = 2 := rfl

theorem ids_start_eq_none {sharing : Bool} (h : sharing = false) (n : UInt16) :
    (start n sharing).ids = none := by
  rw [h]
  rfl

theorem nodes_start_iff (n : UInt16) (sharing : Bool) :
    (start n sharing).nodes[id.toIndex]? = some node ↔
      id = .zero ∧ node = .zero n ∨ id = .one ∧ node = .one n := by
  cases hb : id.toBool? with
  | some b =>
    obtain rfl := NodeId.toBool?_eq_some_iff.1 hb
    cases b with
    | false => simp [start, show NodeId.ofBool false = .zero from rfl, eq_comm, NodeId.one_ne_zero]
    | true => simp [start, show NodeId.ofBool true = .one from rfl, eq_comm, NodeId.one_ne_zero]
  | none =>
    have hnone : (start n sharing).nodes[id.toIndex]? = none :=
      Array.getElem?_eq_none (NodeId.toBool?_eq_none_iff.1 hb)
    rw [hnone]
    constructor
    · intro h
      cases h
    · rintro (⟨rfl, -⟩ | ⟨rfl, -⟩) <;> cases hb

/-- The terminals are found where they stand. -/
theorem find?_start (n : UInt16) :
    (start n true).find? node = some id ↔ (start n true).nodes[id.toIndex]? = some node := by
  have hne : Node.one n ≠ .zero n := by
    intro h
    cases congrArg Node.low h
  rw [nodes_start_iff]
  simp only [find?, start, if_true, Option.bind_some, Std.HashMap.getElem?_insert,
    Std.HashMap.getElem?_empty, beq_iff_eq]
  by_cases hone : Node.one n = node
  · subst hone
    simp [hne, eq_comm]
  · by_cases hzero : Node.zero n = node
    · subst hzero
      simp [hne, hne.symm, eq_comm]
    · simp [hone, hzero, Ne.symm hone, Ne.symm hzero]

theorem sound_start (o : VarOrder) (sharing : Bool) : (start o.numVars sharing).Sound o where
  valid := Diagram.valid_constant o false
  find?_iff hs node id := by
    cases sharing with
    | false => simp [start] at hs
    | true => exact find?_start _

namespace Sound

theorem log (hp : p.Sound o) (e : Event) : (p.log e).Sound o := ⟨hp.valid, hp.find?_iff⟩

theorem stands_ofBool (hp : p.Sound o) {k : Nat} (hk : k ≤ o.numVars.toNat) (b : Bool) :
    p.Stands k (.ofBool b) := by
  have hn : p.nodes[(NodeId.ofBool b).toIndex]? = some _ :=
    Array.getElem?_eq_getElem (hp.valid.ofBool_lt b)
  refine ⟨_, hn, ?_⟩
  rw [hp.valid.var_ofBool b hn]
  exact hk

theorem push (hp : p.Sound o) (fit : (p.diagram o .zero).Fits p.nodes.size node)
    (hnew : p.find? node = none) (hsize : p.nodes.size < 4294967296) :
    (p.push node).2.Sound o where
  valid := hp.valid.push fit hsize
  find?_iff hs node' id := by
    rw [isSome_ids_push] at hs
    rw [find?_push hs, nodes_push, Array.getElem?_push]
    have hold := hp.find?_iff hs
    have hlast : NodeId.ofIndex p.nodes.size = id ↔ id.toIndex = p.nodes.size := by
      rw [← NodeId.toIndex_inj, NodeId.toIndex_ofIndex hsize, eq_comm]
    by_cases hnode : node = node'
    · subst hnode
      have hne : p.nodes[id.toIndex]? ≠ some node := by
        rw [Ne, ← hold, hnew]
        simp
      by_cases hid : id.toIndex = p.nodes.size <;> simp [hlast, hid, hne]
    · by_cases hid : id.toIndex = p.nodes.size
      · have hnone : p.find? node' ≠ some id := by
          rw [Ne, hold, hid]
          simp
        simp [hnode, hid, hnone]
      · simp [hnode, hid, hold]

/-- If its sides differ, a requested node stands in the table. -/
theorem getElem?_intern (hp : p.Sound o) (hne : low ≠ high)
    (hsize : (p.intern x low high).2.nodes.size ≤ 4294967296) :
    (p.intern x low high).2.nodes[(p.intern x low high).1.toIndex]? = some ⟨x, low, high⟩ := by
  rcases p.intern_cases x low high with ⟨heq, -⟩ | ⟨-, id, hf, h⟩ | ⟨-, -, h⟩
  · exact absurd heq hne
  · rw [h]
    exact (hp.find?_iff (isSome_ids_of_find? hf) _ _).1 hf
  · rw [h] at hsize ⊢
    rw [nodes_push, Array.size_push] at hsize
    rw [fst_push, nodes_push, NodeId.toIndex_ofIndex (by omega), Array.getElem?_push_size]

/-- A requested node decides between the functions of its two sides. -/
theorem valueAt_intern (hp : p.Sound o) (hx : x.toIndex < o.numVars.toNat)
    (hlow : p.Stands (x.toIndex + 1) low) (hhigh : p.Stands (x.toIndex + 1) high)
    (hq : (p.intern x low high).2.Sound o) :
    ((p.intern x low high).2.diagram o .zero).valueAt σ (p.intern x low high).1 =
      if σ x then (p.diagram o .zero).valueAt σ high else (p.diagram o .zero).valueAt σ low := by
  by_cases hne : low = high
  · subst hne
    rw [ite_self, intern_self]
    rfl
  · have hn := hp.getElem?_intern (x := x) hne hq.valid.size_le
    have h2 := hq.valid.two_le_of_var_lt hn (UInt16.lt_iff_toNat_lt.2 hx)
    rw [hq.valid.valueAt_node h2 hn]
    cases σ x with
    | false => exact hp.valid.valueAt_extend (extends_intern _ _ _ _) hlow.lt_size
    | true => exact hp.valid.valueAt_extend (extends_intern _ _ _ _) hhigh.lt_size

end Sound

/-- What is known when a part of a construction that asks for variables from position
`k` on has turned one pool into another and delivered an id. -/
structure Delivers (o : VarOrder) (k : Nat) (p : Pool) (id : NodeId) (q : Pool) : Prop where
  /-- The pool is sound again. -/
  sound : q.Sound o
  /-- Nothing was taken away. -/
  keeps : Extends p.nodes q.nodes
  /-- The id is in the table. -/
  stands : q.Stands k id
  /-- New nodes test variables of the range. -/
  later : ∀ (i : Nat) (node : Node), p.nodes.size ≤ i → q.nodes[i]? = some node →
    k ≤ node.var.toIndex

theorem Delivers.of_nodes_eq {k : Nat} {q : Pool} (hq : q.Sound o) (h : q.nodes = p.nodes)
    (hstands : q.Stands k id) : Delivers o k p id q := by
  refine ⟨hq, h ▸ .refl _, hstands, ?_⟩
  intro i node hi hn
  have := (Array.getElem?_eq_some_iff.1 hn).1
  rw [h] at this
  omega

theorem Delivers.mono {k j : Nat} {q : Pool} (h : Delivers o k p id q) (hj : j ≤ k) :
    Delivers o j p id q :=
  ⟨h.sound, h.keeps, h.stands.mono hj, fun i node hi hn => Nat.le_trans hj (h.later i node hi hn)⟩

/-- One part of a construction after another. -/
theorem Delivers.trans {k : Nat} {q r : Pool} {id' : NodeId} (h : Delivers o k p id q)
    (h' : Delivers o k q id' r) : Delivers o k p id' r := by
  refine ⟨h'.sound, h.keeps.trans h'.keeps, h'.stands, ?_⟩
  intro i node hi hn
  by_cases hlt : i < q.nodes.size
  · have hq := Array.getElem?_eq_getElem hlt
    obtain rfl : q.nodes[i] = node := Option.some.inj ((h'.keeps i _ hq).symm.trans hn)
    exact h.later i _ hi hq
  · exact h'.later i node (Nat.le_of_not_lt hlt) hn

theorem Sound.intern (hp : p.Sound o) (hx : x.toIndex < o.numVars.toNat)
    (hlow : p.Stands (x.toIndex + 1) low) (hhigh : p.Stands (x.toIndex + 1) high)
    (hsize : (p.intern x low high).2.nodes.size ≤ 4294967296) :
    Delivers o x.toIndex p (p.intern x low high).1 (p.intern x low high).2 := by
  rcases p.intern_cases x low high with ⟨-, h⟩ | ⟨-, id, hf, h⟩ | ⟨hne, hf, h⟩
  · rw [h]
    exact .of_nodes_eq (hp.log _) rfl (hlow.mono (Nat.le_succ _))
  · rw [h]
    have hn := (hp.find?_iff (isSome_ids_of_find? hf) _ _).1 hf
    exact .of_nodes_eq (hp.log _) rfl ⟨_, hn, Nat.le_refl _⟩
  · rw [h] at hsize ⊢
    have hlt : p.nodes.size < 4294967296 := by
      rw [nodes_push, Array.size_push] at hsize
      omega
    refine ⟨hp.push (hlow.fits hhigh hx hne) hf hlt, .push _ _, ?_, ?_⟩
    · exact ⟨⟨x, low, high⟩, h ▸ hp.getElem?_intern hne (h ▸ hsize), Nat.le_refl _⟩
    · intro i node hi hn
      rw [nodes_push, Array.getElem?_push] at hn
      split at hn
      · cases hn
        exact Nat.le_refl _
      · have := (Array.getElem?_eq_some_iff.1 hn).1
        omega

end Pool

end DecisionDiagram
