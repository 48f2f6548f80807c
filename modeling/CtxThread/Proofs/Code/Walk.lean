import CtxThread.Code.Tree
import Mathlib.Algebra.Order.Group.Nat
import Mathlib.Data.List.Basic

/-!
# The walk over a tree

The walk keeps a stack of sites and stops after as many steps as the tree has nodes. Here it is
shown to be the recursive pre-order: a site, then the walks of its children one after the other.

## Main statements

- `Tree.induction`: a property that passes from the children of a node to the node
- `Site.walk_eq`, `Tree.walk_eq`: the walk by recursion
- `Site.length_walk`: every node is visited once
-/

namespace CtxThread.Code

namespace Tree

/-- A tree has one node more than its children have. -/
theorem size_eq (t : Tree) : t.size = 1 + sizes t.children := by
  obtain ⟨kind, role, start, stop, bytes, children⟩ := t
  rw [size]

theorem sizes_append (as bs : List Tree) : sizes (as ++ bs) = sizes as + sizes bs := by
  induction as with
  | nil => simp only [List.nil_append, sizes, Nat.zero_add]
  | cons a as ih => simp only [List.cons_append, sizes, ih, Nat.add_assoc]

theorem size_le_sizes {ts : List Tree} {t : Tree} (ht : t ∈ ts) : t.size ≤ sizes ts := by
  obtain ⟨before, after, rfl⟩ := List.append_of_mem ht
  rw [sizes_append, sizes]
  omega

/-- A child has fewer nodes than its parent. -/
theorem size_lt_of_mem_children {t c : Tree} (hc : c ∈ t.children) : c.size < t.size := by
  have hle := size_le_sizes hc
  rw [size_eq t]
  omega

/-- What holds of a node whenever it holds of its children holds of every tree. -/
theorem induction {P : Tree → Prop} (node : ∀ t, (∀ c ∈ t.children, P c) → P t) (t : Tree) :
    P t := by
  generalize hn : t.size = n
  induction n using Nat.strongRecOn generalizing t with
  | ind n ih =>
    apply node
    intro c hc
    exact ih c.size (hn ▸ size_lt_of_mem_children hc) c rfl

end Tree

namespace Site

@[simp] theorem root_node (t : Tree) : (root t).node = t := rfl

@[simp] theorem root_around (t : Tree) : (root t).around = [] := rfl

@[simp] theorem enter_node (s : Site) (t : Tree) : (s.enter t).node = t := rfl

@[simp] theorem enter_around (s : Site) (t : Tree) :
    (s.enter t).around = s.node :: s.around := rfl

/-- The number of sites below a stack, those of the stack included. -/
def load (stack : List Site) : Nat := Tree.sizes (stack.map (·.node))

theorem load_children (s : Site) : load s.children + 1 = s.node.size := by
  have hnodes : s.children.map (·.node) = s.node.children := by
    rw [children, List.map_map]
    exact List.map_id' s.node.children
  rw [load, hnodes, Tree.size_eq, Nat.add_comm]

theorem load_append (a b : List Site) : load (a ++ b) = load a + load b := by
  rw [load, List.map_append, Tree.sizes_append]
  rfl

/-- A walk visits its site and then empties the stack of the children. -/
theorem walk_eq_visit (s : Site) : s.walk = s :: visit (load s.children) s.children := by
  rw [walk, ← load_children]
  change s :: visit (load s.children) (s.children ++ []) = _
  rw [List.append_nil]

/-- With enough fuel, emptying a stack is walking from each of its sites in turn. -/
theorem visit_eq_flatMap (fuel : Nat) (stack : List Site) (h : load stack ≤ fuel) :
    visit fuel stack = stack.flatMap walk := by
  induction fuel using Nat.strongRecOn generalizing stack with
  | ind fuel ih =>
    cases stack with
    | nil => cases fuel <;> rfl
    | cons s stack =>
      have hs := load_children s
      have hload : load (s :: stack) = s.node.size + load stack := rfl
      obtain ⟨n, rfl⟩ : ∃ n, fuel = n + 1 := ⟨fuel - 1, by omega⟩
      have hrest : visit n (s.children ++ stack) = (s.children ++ stack).flatMap walk :=
        ih n (by omega) _ (by rw [load_append]; omega)
      have hown : visit (load s.children) s.children = s.children.flatMap walk :=
        ih (load s.children) (by omega) s.children le_rfl
      change s :: visit n (s.children ++ stack) = _
      rw [hrest, List.flatMap_cons, walk_eq_visit, hown, List.flatMap_append, List.cons_append]

/-- A walk visits a site and then walks its children in order. -/
theorem walk_eq (s : Site) : s.walk = s :: s.children.flatMap walk := by
  rw [walk_eq_visit, visit_eq_flatMap _ _ le_rfl]

/-- A walk starts with its own site. -/
theorem mem_walk_self (s : Site) : s ∈ s.walk := by
  rw [walk_eq]
  exact List.mem_cons_self

/-- What holds of a site whenever it holds of the sites of its children holds of every site. -/
theorem induction {P : Site → Prop} (node : ∀ s, (∀ c ∈ s.children, P c) → P s) (s : Site) :
    P s := by
  obtain ⟨t, around⟩ := s
  induction t using Tree.induction generalizing around with
  | node t ih =>
    apply node
    intro c hc
    obtain ⟨d, hd, rfl⟩ := List.mem_map.mp hc
    exact ih d hd _

/-- A walk visits as many sites as there are nodes. -/
theorem length_walk (s : Site) : s.walk.length = s.node.size := by
  induction s using Site.induction with
  | node s ih =>
    have hstack : ∀ stack : List Site, (∀ c ∈ stack, c.walk.length = c.node.size) →
        (stack.flatMap walk).length = load stack := by
      intro stack hstack
      induction stack with
      | nil => rfl
      | cons c stack ih =>
        rw [List.flatMap_cons, List.length_append, hstack c List.mem_cons_self,
          ih fun d hd => hstack d (List.mem_cons_of_mem c hd)]
        rfl
    rw [walk_eq, List.length_cons, hstack s.children ih, load_children]

/-- A walk that visits a site visits everything below it. -/
theorem mem_walk_trans {a b c : Site} (hb : b ∈ a.walk) (hc : c ∈ b.walk) : c ∈ a.walk := by
  induction a using Site.induction with
  | node a ih =>
    rw [walk_eq] at hb
    rcases List.mem_cons.mp hb with rfl | hb
    · exact hc
    · obtain ⟨d, hd, hbd⟩ := List.mem_flatMap.mp hb
      rw [walk_eq]
      exact List.mem_cons_of_mem _ (List.mem_flatMap.mpr ⟨d, hd, ih d hd hbd⟩)

/-- A walk that visits a site visits its children. -/
theorem mem_walk_of_mem_children {a b c : Site} (hb : b ∈ a.walk) (hc : c ∈ b.children) :
    c ∈ a.walk := by
  apply mem_walk_trans hb
  rw [walk_eq]
  exact List.mem_cons_of_mem _ (List.mem_flatMap.mpr ⟨c, hc, mem_walk_self c⟩)

/-- The nodes of a walk do not depend on what is around its start. -/
theorem map_node_walk (s : Site) : s.walk.map (·.node) = s.node.walk := by
  obtain ⟨t, around⟩ := s
  rw [Tree.walk]
  suffices h : ∀ around', (Site.walk ⟨t, around⟩).map (·.node) =
      (Site.walk ⟨t, around'⟩).map (·.node) from h []
  induction t using Tree.induction generalizing around with
  | node t ih =>
    intro around'
    rw [walk_eq, walk_eq ⟨t, around'⟩]
    simp only [children, List.map_cons, List.flatMap_map, List.map_flatMap, List.cons.injEq,
      true_and]
    apply List.flatMap_congr
    intro c hc
    exact ih c hc _ _

end Site

namespace Tree

/-- The walk over a tree visits its node and then walks over its children in order. -/
theorem walk_eq (t : Tree) : t.walk = t :: t.children.flatMap walk := by
  rw [walk, Site.walk_eq, List.map_cons, List.map_flatMap]
  simp only [Site.root_node, Site.children, List.flatMap_map, List.cons.injEq, true_and]
  apply List.flatMap_congr
  intro c _
  exact Site.map_node_walk _

/-- The walk over a tree starts with its node. -/
theorem mem_walk_self (t : Tree) : t ∈ t.walk := by
  rw [walk_eq]
  exact List.mem_cons_self

/-- What a walk visits is the node itself or visited by the walk over a child. -/
theorem mem_walk_iff {t n : Tree} : n ∈ t.walk ↔ n = t ∨ ∃ c ∈ t.children, n ∈ c.walk := by
  rw [walk_eq, List.mem_cons, List.mem_flatMap]

/-- A walk that visits a node visits everything below it. -/
theorem mem_walk_trans {a b c : Tree} (hb : b ∈ a.walk) (hc : c ∈ b.walk) : c ∈ a.walk := by
  induction a using Tree.induction with
  | node a ih =>
    rcases mem_walk_iff.mp hb with rfl | ⟨d, hd, hbd⟩
    · exact hc
    · exact mem_walk_iff.mpr (.inr ⟨d, hd, ih d hd hbd⟩)

/-- The node of a site that a walk visits is visited by the walk over the tree. -/
theorem node_mem_walk {t : Tree} {s : Site} (hs : s ∈ (Site.root t).walk) : s.node ∈ t.walk :=
  List.mem_map_of_mem hs

end Tree

end CtxThread.Code
