-- SUMMARY: Radix trees with addressed nodes: lookup, update, and the bags of addresses and values they hold.
import Xv6.Base.Total
import Mathlib.Algebra.Order.Group.Multiset
import Mathlib.Algebra.BigOperators.Fin
import Mathlib.Algebra.BigOperators.Intervals

/-!
# Radix trees

A tree of height `l` is absent, or it is a node with `w` slots for trees of height `l - 1`;
at height 0 the slots are for values. Every node has an address. The digits of a key in
base `w` say which way to go.
-/

namespace Radix

variable {w : Nat} {α : Type} {l k k' : Nat}

/-- Trees of height `l`. -/
inductive Trie (w : Nat) (α : Type) : Nat → Type
  | nil {l : Nat} : Trie w α l
  | leaf (addr : Nat) (slot : Fin w → Option α) : Trie w α 0
  | node {l : Nat} (addr : Nat) (slot : Fin w → Trie w α l) : Trie w α (l + 1)

/-! ## What a tree holds -/

namespace Trie

/-- The address of the node at the top. -/
def addr : {l : Nat} → Trie w α l → Nat
  | _, .nil => 0
  | _, .leaf a _ => a
  | _, .node a _ => a

/-- A node with the address `a` and nothing in it. -/
def empty (w : Nat) (α : Type) (a : Nat) : (l : Nat) → Trie w α l
  | 0 => .leaf a fun _ => none
  | _ + 1 => .node a fun _ => .nil

def isNil : {l : Nat} → Trie w α l → Bool
  | _, .nil => true
  | _, .leaf _ _ => false
  | _, .node _ _ => false

theorem isNil_iff {t : Trie w α l} : t.isNil = true ↔ t = nil := by
  cases t with
  | nil => exact iff_of_true rfl rfl
  | leaf a slot => exact iff_of_false Bool.false_ne_true (by rintro ⟨⟩)
  | node a slot => exact iff_of_false Bool.false_ne_true (by rintro ⟨⟩)

theorem empty_ne_nil {a : Nat} : empty w α a l ≠ nil := by
  rw [Ne, ← isNil_iff]
  cases l <;> exact Bool.false_ne_true

theorem addr_empty {a : Nat} : (empty w α a l).addr = a := by
  cases l <;> rfl

/-- The addresses of the nodes. -/
def nodes : {l : Nat} → Trie w α l → Multiset Nat
  | _, .nil => 0
  | _, .leaf a _ => {a}
  | _, .node a slot => {a} + ∑ i, (slot i).nodes

/-- The values in a slot. -/
def values : Option α → Multiset α
  | none => 0
  | some x => {x}

/-- The values in the slots. -/
def leaves : {l : Nat} → Trie w α l → Multiset α
  | _, .nil => 0
  | _, .leaf _ slot => ∑ i, values (slot i)
  | _, .node _ slot => ∑ i, (slot i).leaves

@[simp] theorem nodes_nil : (nil : Trie w α l).nodes = 0 := rfl

@[simp] theorem nodes_leaf {a : Nat} {slot : Fin w → Option α} : (leaf a slot).nodes = {a} := rfl

theorem nodes_node_sum {a : Nat} {slot : Fin w → Trie w α l} :
    (node a slot).nodes = {a} + ∑ i, (slot i).nodes := rfl

@[simp] theorem values_none : values (none : Option α) = 0 := rfl

@[simp] theorem values_some {x : α} : values (some x) = {x} := rfl

@[simp] theorem leaves_nil : (nil : Trie w α l).leaves = 0 := rfl

theorem leaves_leaf {a : Nat} {slot : Fin w → Option α} :
    (leaf a slot).leaves = ∑ i, values (slot i) := rfl

theorem leaves_node {a : Nat} {slot : Fin w → Trie w α l} :
    (node a slot).leaves = ∑ i, (slot i).leaves := rfl

@[simp] theorem nodes_empty {a : Nat} : (empty w α a l).nodes = {a} := by
  cases l with
  | zero => rfl
  | succ l => exact (congrArg _ Finset.sum_const_zero).trans (add_zero _)

@[simp] theorem leaves_empty {a : Nat} : (empty w α a l).leaves = 0 := by
  cases l <;> exact Finset.sum_const_zero

section
variable {a : Nat} {slot : Fin w → Trie w α l} {i : Fin w} {c : Trie w α l}

theorem leaves_node_update (hc : c.leaves = (slot i).leaves) :
    (node a (Function.update slot i c)).leaves = (node a slot).leaves := by
  have hsum := Sys.sum_update slot leaves i c
  rw [hc] at hsum
  exact add_right_cancel hsum

theorem nodes_node_update :
    (node a (Function.update slot i c)).nodes + (slot i).nodes
      = (node a slot).nodes + c.nodes := by
  rw [nodes_node_sum, nodes_node_sum, add_assoc, Sys.sum_update slot nodes i c, ← add_assoc]

theorem leaf_eq_none {slot : Fin w → Option α} (h : (leaf a slot).leaves = 0) (i : Fin w) :
    slot i = none := by
  rw [leaves_leaf, Finset.sum_eq_zero_iff] at h
  have hi := h i (Finset.mem_univ i)
  cases hs : slot i with
  | none => rfl
  | some x =>
    rw [hs, values_some] at hi
    exact absurd hi (Multiset.singleton_ne_zero x)

theorem leaves_slot_eq_zero (h : (node a slot).leaves = 0) (i : Fin w) : (slot i).leaves = 0 := by
  rw [leaves_node, Finset.sum_eq_zero_iff] at h
  exact h i (Finset.mem_univ i)

/-- The nodes, in the order of the slots. -/
theorem nodes_node :
    (node a slot).nodes = {a} + ((List.finRange w).map fun i => (slot i).nodes).sum := by
  rw [nodes_node_sum, Fin.sum_univ_def]

theorem mem_nodes_of_slot {x : Nat} (h : x ∈ (slot i).nodes) : x ∈ (node a slot).nodes := by
  rw [nodes_node_sum, Multiset.mem_add, Multiset.mem_sum]
  exact .inr ⟨i, Finset.mem_univ i, h⟩

theorem addr_mem {t : Trie w α l} (h : t ≠ nil) : t.addr ∈ t.nodes := by
  cases t with
  | nil => exact absurd rfl h
  | leaf a slot => exact Multiset.mem_singleton_self a
  | node a slot => exact Multiset.mem_add.mpr (.inl (Multiset.mem_singleton_self a))

/-- The address of a node and those below one of its slots are different nodes of it. -/
theorem cons_slot_le (i : Fin w) : {a} + (slot i).nodes ≤ (node a slot).nodes := by
  rw [nodes_node_sum, ← Finset.add_sum_erase _ _ (Finset.mem_univ i), ← add_assoc]
  exact Multiset.le_add_right _ _

theorem slot_add_slot_le {i j : Fin w} (h : j ≠ i) :
    (slot i).nodes + (slot j).nodes ≤ (node a slot).nodes := by
  have hj : j ∈ Finset.univ.erase i := Finset.mem_erase.mpr ⟨h, Finset.mem_univ j⟩
  rw [nodes_node_sum, ← Finset.add_sum_erase _ _ (Finset.mem_univ i), ← Finset.add_sum_erase _ _ hj,
    ← add_assoc ((slot i).nodes)]
  exact (Multiset.le_add_right _ _).trans (Multiset.le_add_left _ _)

/-! Different nodes have different addresses. -/

theorem ne_of_mem_slot {x : Nat} (hnd : (node a slot).nodes.Nodup) (hx : x ∈ (slot i).nodes) : x ≠ a := by
  have hle := Multiset.nodup_of_le (cons_slot_le (a := a) i) hnd
  rintro rfl
  exact Multiset.disjoint_left.mp (Multiset.nodup_add.mp hle).2.2 (Multiset.mem_singleton_self x) hx

theorem notMem_slot {x : Nat} {j : Fin w} (hnd : (node a slot).nodes.Nodup) (hji : j ≠ i)
    (hx : x ∈ (slot i).nodes) : x ∉ (slot j).nodes := by
  have hle := Multiset.nodup_of_le (slot_add_slot_le (a := a) hji) hnd
  exact Multiset.disjoint_left.mp (Multiset.nodup_add.mp hle).2.2 hx

theorem slot_nodup (hnd : (node a slot).nodes.Nodup) (i : Fin w) : (slot i).nodes.Nodup :=
  (Multiset.nodup_add.mp (Multiset.nodup_of_le (cons_slot_le (a := a) i) hnd)).2.1

theorem mem_nodes_update {x : Nat} (h : x ∈ (node a (Function.update slot i c)).nodes) :
    x ∈ (node a slot).nodes ∨ x ∈ c.nodes := by
  rw [← Multiset.mem_add, ← nodes_node_update, Multiset.mem_add]
  exact .inl h

/-- The nodes are still there when a subtree grows. -/
theorem mem_nodes_of_update {x : Nat} (hc : ∀ x ∈ (slot i).nodes, x ∈ c.nodes)
    (hx : x ∈ (node a slot).nodes) : x ∈ (node a (Function.update slot i c)).nodes := by
  have hmem : x ∈ (node a slot).nodes + c.nodes := Multiset.mem_add.mpr (.inl hx)
  rw [← nodes_node_update, Multiset.mem_add] at hmem
  obtain hx | hx := hmem
  · exact hx
  · exact mem_nodes_of_slot (i := i) (by rw [Function.update_self]; exact hc x hx)

end

/-! ## Other values in the same tree -/

section
variable {β : Type} {f : α → β}

/-- Apply `f` to the values. -/
def map (f : α → β) : {l : Nat} → Trie w α l → Trie w β l
  | _, .nil => .nil
  | _, .leaf a slot => .leaf a fun i => (slot i).map f
  | _, .node a slot => .node a fun i => (slot i).map f

@[simp] theorem addr_map {t : Trie w α l} : (t.map f).addr = t.addr := by
  cases t <;> rfl

theorem map_ne_nil {t : Trie w α l} (h : t ≠ nil) : t.map f ≠ nil := by
  cases t with
  | nil => exact absurd rfl h
  | leaf a slot => rintro ⟨⟩
  | node a slot => rintro ⟨⟩

theorem map_empty {a : Nat} : (empty w α a l).map f = empty w β a l := by
  cases l <;> rfl

/-- In a tree that holds nothing the values do not matter. -/
theorem map_map_of_leaves {g : β → α} (t : Trie w α l) (h : t.leaves = 0) : (t.map f).map g = t := by
  induction t with
  | nil => rfl
  | leaf a slot =>
    refine congrArg (leaf a) (funext fun i => ?_)
    simp [leaf_eq_none h i]
  | node a slot ih => exact congrArg (node a) (funext fun i => ih i (leaves_slot_eq_zero h i))

@[simp] theorem nodes_map (t : Trie w α l) : (t.map f).nodes = t.nodes := by
  induction t with
  | nil => rfl
  | leaf a slot => rfl
  | node a slot ih => simp only [map, nodes_node_sum, ih]

theorem map_node_update {a : Nat} {slot : Fin w → Trie w α l} {i : Fin w} {c : Trie w α l} :
    (node a (Function.update slot i c)).map f
      = node a (Function.update (fun j => (slot j).map f) i (c.map f)) :=
  congrArg (node a) (Function.comp_update (fun t : Trie w α l => t.map f) slot i c)

end

end Trie

/-! ## Keys -/

/-- A tree of height `l` cannot tell the keys apart. -/
def SameKey (w l k k' : Nat) : Prop := k % w ^ (l + 1) = k' % w ^ (l + 1)

instance : Decidable (SameKey w l k k') := inferInstanceAs (Decidable (_ = _))

/-- Keys below the capacity of the tree are the same only if they are equal. -/
theorem sameKey_of_lt (hk : k < w ^ (l + 1)) (hk' : k' < w ^ (l + 1)) :
    SameKey w l k k' ↔ k = k' := by
  rw [SameKey, Nat.mod_eq_of_lt hk, Nat.mod_eq_of_lt hk']

theorem sameKey_cons {i : Nat} : SameKey w l (k + i * w ^ (l + 1)) k := by
  rw [SameKey, Nat.add_mul_mod_self_right]

/-- The numbers below a product, by their leading digit. -/
theorem sum_range_mul {M : Type} [AddCommMonoid M] (f : Nat → M) (m n : Nat) :
    ∑ k ∈ Finset.range (n * m), f k = ∑ i ∈ Finset.range n, ∑ j ∈ Finset.range m, f (j + i * m) := by
  induction n with
  | zero => simp
  | succ n ih =>
    rw [Nat.succ_mul, Finset.sum_range_add, ih, Finset.sum_range_succ]
    simp only [Nat.add_comm]

variable [NeZero w]

/-- The digit of the key that is looked at in height `l`. -/
def digit (w : Nat) [NeZero w] (l k : Nat) : Fin w := Fin.ofNat w (k / w ^ l)

theorem digit_eq_iff : digit w l k = digit w l k' ↔ k / w ^ l % w = k' / w ^ l % w := by
  rw [digit, digit, Fin.ext_iff, Fin.val_ofNat, Fin.val_ofNat]

theorem digit_cons {i : Fin w} (hk : k < w ^ (l + 1)) :
    digit w (l + 1) (k + i.val * w ^ (l + 1)) = i := by
  have hw : 0 < w ^ (l + 1) := Nat.pow_pos (NeZero.pos w)
  rw [digit, Nat.add_mul_div_right _ _ hw, Nat.div_eq_of_lt hk, Nat.zero_add,
    Fin.ofNat_val_eq_self]

theorem sameKey_zero : SameKey w 0 k k' ↔ digit w 0 k = digit w 0 k' := by
  rw [digit_eq_iff, SameKey]
  simp

/-- Keys are the same when their first digit and the rest of them are. -/
theorem sameKey_succ :
    SameKey w (l + 1) k k' ↔ digit w (l + 1) k = digit w (l + 1) k' ∧ SameKey w l k k' := by
  have hw : 0 < w ^ (l + 1) := Nat.pow_pos (NeZero.pos w)
  rw [digit_eq_iff, SameKey, SameKey, pow_succ _ (l + 1), Nat.mod_mul, Nat.mod_mul]
  constructor
  · intro h
    have hlow : k % w ^ (l + 1) = k' % w ^ (l + 1) := by
      have hmod := congrArg (· % w ^ (l + 1)) h
      simpa using hmod
    refine ⟨?_, hlow⟩
    rw [hlow] at h
    exact Nat.eq_of_mul_eq_mul_left hw (Nat.add_left_cancel h)
  · rintro ⟨hhigh, hlow⟩
    rw [hhigh, hlow]

/-! ## Lookup and update -/

namespace Trie

/-- The slot for `k`: `none` if a node on the way to it is absent. -/
def find : {l : Nat} → Trie w α l → Nat → Option (Option α)
  | _, .nil, _ => none
  | _, .leaf _ slot, k => some (slot (digit w 0 k))
  | l + 1, .node _ slot, k => (slot (digit w (l + 1) k)).find k

/-- Fill or clear the slot for `k`, if it is there. -/
def put : {l : Nat} → Trie w α l → Nat → Option α → Trie w α l
  | _, .nil, _, _ => .nil
  | _, .leaf a slot, k, v => .leaf a (Function.update slot (digit w 0 k) v)
  | l + 1, .node a slot, k, v =>
    .node a (Function.update slot (digit w (l + 1) k) ((slot (digit w (l + 1) k)).put k v))

theorem find_leaf_eq {a : Nat} {slot : Fin w → Option α} :
    (leaf a slot).find k = some (slot (digit w 0 k)) := rfl

theorem find_node {a : Nat} {slot : Fin w → Trie w α l} :
    (node a slot).find k = (slot (digit w (l + 1) k)).find k := rfl

theorem put_leaf {a : Nat} {slot : Fin w → Option α} {v : Option α} :
    (leaf a slot).put k v = leaf a (Function.update slot (digit w 0 k) v) := rfl

theorem put_node {a : Nat} {slot : Fin w → Trie w α l} {v : Option α} :
    (node a slot).put k v
      = node a (Function.update slot (digit w (l + 1) k) ((slot (digit w (l + 1) k)).put k v)) := rfl

/-- The value for `k`. -/
def get (t : Trie w α l) (k : Nat) : Option α := (t.find k).join

@[simp] theorem get_nil : (nil : Trie w α l).get k = none := rfl

@[simp] theorem get_empty {a : Nat} : (empty w α a l).get k = none := by
  cases l <;> rfl

theorem put_ne_nil {t : Trie w α l} {v : Option α} (h : t ≠ nil) : t.put k v ≠ nil := by
  cases t with
  | nil => exact absurd rfl h
  | leaf a slot => rintro ⟨⟩
  | node a slot => rintro ⟨⟩

/-- Reading the slots after an update. -/
theorem find_put (t : Trie w α l) (v : Option α) (hk : t.find k ≠ none) :
    (t.put k v).find k' = if SameKey w l k k' then some v else t.find k' := by
  induction t with
  | nil => exact absurd rfl hk
  | leaf a slot =>
    simp only [put_leaf, find_leaf_eq, sameKey_zero]
    split
    · next h => rw [← h, Function.update_self]
    · next h => rw [Function.update_of_ne (Ne.symm h)]
  | @node l a slot ih =>
    simp only [put_node, find_node, sameKey_succ] at hk ⊢
    by_cases hd : digit w (l + 1) k = digit w (l + 1) k'
    · rw [← hd, Function.update_self, ih _ hk]
      simp
    · rw [Function.update_of_ne (Ne.symm hd)]
      simp [hd]

theorem get_put {t : Trie w α l} {v : Option α} (hk : t.find k ≠ none) :
    (t.put k v).get k' = if SameKey w l k k' then v else t.get k' := by
  rw [get, get, find_put t v hk]
  split <;> simp

/-- Keys below the capacity of the tree are told apart. -/
theorem get_put_of_lt {t : Trie w α l} {v : Option α} (hk : t.find k ≠ none) (hlt : k < w ^ (l + 1))
    (hlt' : k' < w ^ (l + 1)) : (t.put k v).get k' = if k' = k then v else t.get k' := by
  rw [get_put hk]
  simp only [sameKey_of_lt hlt hlt', eq_comm]

theorem nodes_put (t : Trie w α l) (v : Option α) : (t.put k v).nodes = t.nodes := by
  induction t with
  | nil => rfl
  | leaf a slot => rfl
  | @node l a slot ih =>
    have hsum := Sys.sum_update slot nodes (digit w (l + 1) k) ((slot (digit w (l + 1) k)).put k v)
    rw [ih] at hsum
    rw [put_node, nodes_node_sum, nodes_node_sum, add_right_cancel hsum]

/-- An update exchanges one value. -/
theorem leaves_put (t : Trie w α l) (v : Option α) (hk : t.find k ≠ none) :
    (t.put k v).leaves + values (t.get k) = t.leaves + values v := by
  induction t with
  | nil => exact absurd rfl hk
  | leaf a slot => exact Sys.sum_update slot values (digit w 0 k) v
  | @node l a slot ih =>
    have hsum := Sys.sum_update slot leaves (digit w (l + 1) k) ((slot (digit w (l + 1) k)).put k v)
    have hput := ih (digit w (l + 1) k) hk
    rw [put_node, leaves_node, leaves_node]
    change _ + values ((slot (digit w (l + 1) k)).get k) = _
    refine add_right_cancel (b := (slot (digit w (l + 1) k)).leaves) ?_
    calc _ = (∑ j, (Function.update slot (digit w (l + 1) k)
              ((slot (digit w (l + 1) k)).put k v) j).leaves + (slot (digit w (l + 1) k)).leaves)
              + values ((slot (digit w (l + 1) k)).get k) := by abel
      _ = ∑ j, (slot j).leaves + (((slot (digit w (l + 1) k)).put k v).leaves
              + values ((slot (digit w (l + 1) k)).get k)) := by rw [hsum]; abel
      _ = _ := by rw [hput]; abel

/-- Replacing a subtree by one with the same entries. -/
theorem get_node_update {a : Nat} {slot : Fin w → Trie w α l} {i : Fin w} {c : Trie w α l}
    (hc : ∀ v, c.get v = (slot i).get v) (v : Nat) :
    (node a (Function.update slot i c)).get v = (node a slot).get v := by
  have hc := hc v
  simp only [get, find_node] at hc ⊢
  by_cases hd : digit w (l + 1) v = i
  · rw [hd, Function.update_self, hc]
  · rw [Function.update_of_ne hd]

/-- The address of the node with the slot for `k`, if the nodes on the way to it are there. -/
def home : {l : Nat} → Trie w α l → Nat → Option Nat
  | _, .nil, _ => none
  | _, .leaf a _, _ => some a
  | l + 1, .node _ slot, k => (slot (digit w (l + 1) k)).home k

theorem home_nil : (nil : Trie w α l).home k = none := rfl

theorem home_node {a : Nat} {slot : Fin w → Trie w α l} :
    (node a slot).home k = (slot (digit w (l + 1) k)).home k := rfl

theorem home_eq_none {t : Trie w α l} : t.home k = none ↔ t.find k = none := by
  induction t with
  | nil => exact iff_of_true rfl rfl
  | leaf a slot => exact iff_of_false (Option.some_ne_none a) (Option.some_ne_none _)
  | @node l a slot ih => exact ih _

theorem find_ne_none {t : Trie w α l} {b : Nat} (h : t.home k = some b) : t.find k ≠ none := by
  intro hc
  rw [home_eq_none.mpr hc] at h
  cases h

theorem find_of_home {t : Trie w α l} {b : Nat} (h : t.home k = some b) : t.find k = some (t.get k) := by
  obtain ⟨x, hx⟩ := Option.ne_none_iff_exists'.mp (find_ne_none h)
  rw [get, hx, Option.join_some]

theorem home_mem {t : Trie w α l} {b : Nat} (h : t.home k = some b) : b ∈ t.nodes := by
  induction t with
  | nil => cases h
  | leaf a slot =>
    cases h
    exact addr_mem (by simp)
  | @node l a slot ih => exact mem_nodes_of_slot (ih _ h)

theorem addr_put {t : Trie w α l} {v : Option α} : (t.put k v).addr = t.addr := by
  cases t <;> rfl

theorem find_leaf {a : Nat} {slot : Fin w → Option α} : (leaf a slot).find k ≠ none :=
  Option.some_ne_none _

/-- Writing what is there changes nothing. -/
theorem put_get (t : Trie w α l) : t.put k (t.get k) = t := by
  induction t with
  | nil => rfl
  | leaf a slot => exact congrArg (leaf a) (Function.update_eq_self _ _)
  | @node l a slot ih =>
    have hslot : (slot (digit w (l + 1) k)).put k ((node a slot).get k) = slot (digit w (l + 1) k) := ih _
    rw [put_node, hslot, Function.update_eq_self]

/-! ## Values that can be found -/

section
variable {β : Type} {f : α → β}

@[simp] theorem home_map (t : Trie w α l) : (t.map f).home k = t.home k := by
  induction t with
  | nil => rfl
  | leaf a slot => rfl
  | @node l a slot ih => exact ih _

theorem get_map (t : Trie w α l) : (t.map f).get k = (t.get k).map f := by
  induction t with
  | nil => rfl
  | leaf a slot => rfl
  | @node l a slot ih => exact ih _

theorem put_map (t : Trie w α l) (v : Option α) : (t.put k v).map f = (t.map f).put k (v.map f) := by
  induction t with
  | nil => rfl
  | leaf a slot =>
    rw [put_leaf, map, map, put_leaf]
    exact congrArg (leaf a) (Function.comp_update (Option.map f) slot _ v)
  | @node l a slot ih => rw [put_node, map_node_update, ih, map, put_node]

end

/-- A value that can be found is held. -/
theorem leaves_of_get {t : Trie w α l} {x : α} (h : t.get k = some x) :
    (t.put k none).leaves + {x} = t.leaves := by
  have hk : t.find k ≠ none := by
    intro hnone
    rw [get, hnone] at h
    cases h
  have hput := leaves_put t none hk
  rwa [h, values_some, values_none, add_zero] at hput

theorem mem_leaves {t : Trie w α l} {x : α} (h : t.get k = some x) : x ∈ t.leaves := by
  rw [← leaves_of_get h]
  simp

/-- Only the digits of a key matter. -/
theorem get_congr (t : Trie w α l) (h : SameKey w l k k') : t.get k = t.get k' := by
  induction t with
  | nil => rfl
  | leaf a slot =>
    rw [sameKey_zero] at h
    rw [get, get, find_leaf_eq, find_leaf_eq, h]
  | @node l a slot ih =>
    obtain ⟨hd, hrest⟩ := sameKey_succ.mp h
    have hslot := ih (digit w (l + 1) k') hrest
    rw [get, get, find_node, find_node, hd]
    exact hslot

/-- A tree holds what can be found in it. -/
theorem leaves_eq_sum (t : Trie w α l) :
    t.leaves = ∑ k ∈ Finset.range (w ^ (l + 1)), values (t.get k) := by
  induction t with
  | nil => exact Finset.sum_const_zero.symm
  | leaf a slot =>
    rw [leaves_leaf, zero_add, pow_one, Finset.sum_range]
    refine Finset.sum_congr rfl fun i _ => ?_
    simp only [get, find_leaf_eq, digit, pow_zero, Nat.div_one, Fin.ofNat_val_eq_self]
    rfl
  | @node l a slot ih =>
    rw [leaves_node, pow_succ' _ (l + 1), sum_range_mul, Finset.sum_range]
    refine Finset.sum_congr rfl fun i _ => ?_
    rw [ih i]
    refine Finset.sum_congr rfl fun k hk => ?_
    have hdigit := digit_cons (i := i) (Finset.mem_range.mp hk)
    have hget : (node a slot).get (k + i.val * w ^ (l + 1)) = (slot i).get k := by
      rw [← get_congr (slot i) (sameKey_cons (k := k) (i := i.val))]
      rw [get, get, find_node, hdigit]
    rw [hget]

/-- A tree in which nothing can be found holds nothing. -/
theorem leaves_eq_zero (t : Trie w α l) (h : ∀ k < w ^ (l + 1), t.get k = none) : t.leaves = 0 := by
  rw [leaves_eq_sum]
  refine Finset.sum_eq_zero fun k hk => ?_
  rw [h k (Finset.mem_range.mp hk), values_none]

-- Unfolding one of these writes out a sum with `w` terms.
attribute [irreducible] nodes leaves

end Trie

end Radix
