import CtxThread.Code.Outline
import CtxThread.Proofs.Code.Walk
import Mathlib.Data.List.Forall2

/-!
# Trees without positions

Where the nodes of a tree stand does not matter for what they are: what is read off a tree is the
same when all positions are left out, up to the positions of the nodes that are read off.

## Main definitions

- `Tree.bare`: the tree without positions
- an instance by which equality of trees is decided

## Main statements

- `Tree.child?_bare`, `Tree.walk_bare` and others: what is read off a tree without positions
- `Site.forall₂_listItems`, `Site.forall₂_varSpecs`: a relation of sites that their children are in
  too holds of the members of their lists
-/

namespace CtxThread.Code

namespace Tree

/-! ## Equality of trees -/

mutual

/-- The trees are equal. -/
def isEqual : Tree → Tree → Bool
  | ⟨kind, role, start, stop, bytes, children⟩, ⟨kind', role', start', stop', bytes', children'⟩ =>
    kind = kind' && role = role' && start = start' && stop = stop' && bytes = bytes' &&
      areEqual children children'

/-- The lists of trees are equal. -/
def areEqual : List Tree → List Tree → Bool
  | [], [] => true
  | t :: ts, t' :: ts' => isEqual t t' && areEqual ts ts'
  | _, _ => false

end

mutual

theorem isEqual_iff : ∀ t t' : Tree, isEqual t t' = true ↔ t = t'
  | ⟨kind, role, start, stop, bytes, children⟩,
      ⟨kind', role', start', stop', bytes', children'⟩ => by
    have hchildren := areEqual_iff children children'
    simp only [isEqual, Bool.and_eq_true, decide_eq_true_eq, hchildren, Tree.mk.injEq, and_assoc]

theorem areEqual_iff : ∀ ts ts' : List Tree, areEqual ts ts' = true ↔ ts = ts'
  | [], [] => by simp [areEqual]
  | [], t' :: ts' => by simp [areEqual]
  | t :: ts, [] => by simp [areEqual]
  | t :: ts, t' :: ts' => by
    have ht := isEqual_iff t t'
    have hts := areEqual_iff ts ts'
    simp only [areEqual, Bool.and_eq_true, ht, hts, List.cons.injEq]

end

instance : DecidableEq Tree := fun t t' => decidable_of_iff _ (isEqual_iff t t')

/-! ## Leaving out positions -/

mutual

/-- The tree without positions. -/
def bare : Tree → Tree
  | ⟨kind, role, _, _, bytes, children⟩ => ⟨kind, role, 0, 0, bytes, bares children⟩

/-- The trees without positions. -/
def bares : List Tree → List Tree
  | [] => []
  | t :: ts => bare t :: bares ts

end

theorem bares_eq_map (ts : List Tree) : bares ts = ts.map bare := by
  induction ts with
  | nil => rfl
  | cons t ts ih => rw [bares, ih, List.map_cons]

variable (t : Tree)

@[simp] theorem kind_bare : t.bare.kind = t.kind := by cases t; rfl

@[simp] theorem role_bare : t.bare.role = t.role := by cases t; rfl

@[simp] theorem bytes_bare : t.bare.bytes = t.bytes := by cases t; rfl

@[simp] theorem children_bare : t.bare.children = t.children.map bare := by
  cases t with
  | mk => exact bares_eq_map _

@[simp] theorem text_bare : t.bare.text = t.text := by simp [text]

@[simp] theorem isItem_bare : t.bare.isItem = t.isItem := by simp [isItem]

@[simp] theorem items_bare : t.bare.items = t.items.map bare := by
  simp [items, List.filter_map, Function.comp_def]

@[simp] theorem firstItem?_bare : t.bare.firstItem? = t.firstItem?.map bare := by
  simp only [firstItem?, children_bare, List.find?_map, Function.comp_def, isItem_bare]

@[simp] theorem childrenIn_bare (r : Role) : t.bare.childrenIn r = (t.childrenIn r).map bare := by
  simp [childrenIn, List.filter_map, Function.comp_def]

@[simp] theorem child?_bare (r : Role) : t.bare.child? r = (t.child? r).map bare := by
  simp only [child?, children_bare, List.find?_map, Function.comp_def, role_bare]

@[simp] theorem names_bare : t.bare.names = t.names := by
  simp [names, Function.comp_def]

@[simp] theorem nameText?_bare : t.bare.nameText? = t.nameText? := by
  simp [nameText?, Function.comp_def]

@[simp] theorem paramDecls_bare : t.bare.paramDecls = t.paramDecls.map bare := by
  simp [paramDecls, List.filter_map, Function.comp_def]

@[simp] theorem arguments_bare : t.bare.arguments = t.arguments.map bare := by
  cases h : t.child? .arguments with
  | none => simp [arguments, h]
  | some list => simp [arguments, h]

@[simp] theorem structFields_bare : t.bare.structFields = t.structFields.map bare := by
  simp [structFields, List.filter_map, List.map_flatMap, List.flatMap_map, Function.comp_def]

/-- A tree without positions has as many nodes. -/
@[simp] theorem size_bare : t.bare.size = t.size := by
  induction t using Tree.induction with
  | node t ih =>
    rw [size_eq, size_eq, children_bare]
    generalize t.children = ts at ih
    induction ts with
    | nil => rfl
    | cons c ts ihts =>
      have hrest := ihts fun d hd => ih d (List.mem_cons_of_mem c hd)
      rw [List.map_cons, sizes, sizes, ih c List.mem_cons_self]
      omega

@[simp] theorem receiverBase?_bare (depth : Nat) :
    receiverBase? depth t.bare = receiverBase? depth t := by
  induction depth generalizing t with
  | zero => rfl
  | succ depth ih =>
    have hitem : t.bare.firstItem?.bind (receiverBase? depth) =
        t.firstItem?.bind (receiverBase? depth) := by
      rw [firstItem?_bare, Option.bind_map]
      exact congrArg _ (funext ih)
    rw [receiverBase?, receiverBase?, kind_bare, hitem]
    by_cases hgeneric : t.kind = .genericType
    · simp only [hgeneric, child?_bare, Option.bind_map, Function.comp_def, kind_bare, text_bare,
        reduceIte]
    · simp [hgeneric]

@[simp] theorem receiverName?_bare : t.bare.receiverName? = t.receiverName? := by
  simp only [receiverName?, child?_bare, Option.bind_map, Function.comp_def, paramDecls_bare,
    List.head?_map, receiverBase?_bare, size_bare]

/-- A walk over a tree without positions visits the nodes without their positions. -/
@[simp] theorem walk_bare : t.bare.walk = t.walk.map bare := by
  induction t using Tree.induction with
  | node t ih =>
    rw [walk_eq, walk_eq t, children_bare, List.map_cons, List.flatMap_map, List.map_flatMap]
    congr 1
    exact List.flatMap_congr ih

@[simp] theorem allOfKind_bare (k : Kind) : t.bare.allOfKind k = (t.allOfKind k).map bare := by
  simp [allOfKind, List.filter_map, Function.comp_def]

/-- Trees that may be missing and differ in positions only. -/
theorem rel_of_map_bare {t t' : Option Tree} (h : t.map bare = t'.map bare) :
    Option.Rel (fun c c' => c.bare = c'.bare) t t' := by
  cases t with
  | none =>
    rw [Option.map_eq_none_iff.mp h.symm]
    exact .none
  | some c =>
    obtain ⟨c', rfl, hc⟩ := Option.map_eq_some_iff.mp h.symm
    exact .some hc.symm

/-- Lists of trees that differ in positions only. -/
theorem forall₂_bare_iff {ts ts' : List Tree} :
    List.Forall₂ (fun c c' => c.bare = c'.bare) ts ts' ↔ ts.map bare = ts'.map bare := by
  rw [← List.forall₂_eq_eq_eq, List.forall₂_map_left_iff, List.forall₂_map_right_iff]

/-- The children of two trees that differ in positions only do so too. -/
theorem forall₂_children {t t' : Tree} (h : t.bare = t'.bare) :
    List.Forall₂ (fun c c' => c.bare = c'.bare) t.children t'.children := by
  rw [forall₂_bare_iff, ← children_bare, h, children_bare]

/-- The same parts of two trees that differ in positions only do so too. -/
theorem rel_child? {t t' : Tree} (h : t.bare = t'.bare) (r : Role) :
    Option.Rel (fun c c' => c.bare = c'.bare) (t.child? r) (t'.child? r) := by
  have hmap : (t.child? r).map bare = (t'.child? r).map bare := by
    rw [← child?_bare, h, child?_bare]
  exact rel_of_map_bare hmap

end Tree

/-! ## Lists of sites -/

namespace Site

variable {R : Site → Site → Prop} {s s' : Site}

theorem forall₂_filter {p : Tree → Bool} (hbare : ∀ s s', R s s' → s.node.bare = s'.node.bare)
    (hp : ∀ t : Tree, p t.bare = p t) {l l' : List Site} (h : List.Forall₂ R l l') :
    List.Forall₂ R (l.filter fun s => p s.node) (l'.filter fun s => p s.node) := by
  refine List.rel_filter ?_ h
  intro a b hab
  change p a.node = true ↔ p b.node = true
  rw [← hp a.node, hbare a b hab, hp]

variable (hbare : ∀ s s', R s s' → s.node.bare = s'.node.bare)
  (hchildren : ∀ s s', R s s' → List.Forall₂ R s.children s'.children)

include hbare hchildren

/-- The members of two lists are in a relation if the lists and all their children are. -/
theorem forall₂_listItems (h : R s s') : List.Forall₂ R s.listItems s'.listItems := by
  have hkind : s.node.kind = s'.node.kind := by
    rw [← Tree.kind_bare, hbare s s' h, Tree.kind_bare]
  rw [listItems, listItems, hkind]
  by_cases hlist : s'.node.kind = .expressionList
  · rw [if_pos hlist, if_pos hlist]
    exact forall₂_filter hbare Tree.isItem_bare (hchildren s s' h)
  · rw [if_neg hlist, if_neg hlist]
    exact .cons h .nil

/-- The specs of two declarations of variables are in a relation if the declarations and all their
children are. -/
theorem forall₂_varSpecs (h : R s s') : List.Forall₂ R s.varSpecs s'.varSpecs := by
  refine List.rel_flatMap (hchildren s s' h) ?_
  intro c c' hc
  have hkind : c.node.kind = c'.node.kind := by
    rw [← Tree.kind_bare, hbare c c' hc, Tree.kind_bare]
  dsimp only
  rw [hkind]
  by_cases hspec : c'.node.kind = .varSpec
  · rw [if_pos hspec, if_pos hspec]
    exact .cons hc .nil
  · rw [if_neg hspec, if_neg hspec]
    by_cases hlist : c'.node.kind = .varSpecList
    · rw [if_pos hlist, if_pos hlist]
      refine forall₂_filter (p := fun t => t.kind = .varSpec) hbare ?_ (hchildren c c' hc)
      simp
    · rw [if_neg hlist, if_neg hlist]
      exact .nil

end Site

/-- The sites of the children of two trees that differ in positions only do so too. -/
theorem Site.forall₂_children {s s' : Site} (h : s.node.bare = s'.node.bare) :
    List.Forall₂ (fun c c' => c.node.bare = c'.node.bare) s.children s'.children := by
  rw [children, children, List.forall₂_map_left_iff, List.forall₂_map_right_iff]
  exact Tree.forall₂_children h

/-- The names in a list of expressions do not depend on positions. -/
theorem Site.exprNames_congr {s s' : Site} (h : s.node.bare = s'.node.bare) :
    s.exprNames = s'.exprNames := by
  have hitems : List.Forall₂ (fun c c' => c.node.bare = c'.node.bare) s.listItems s'.listItems :=
    forall₂_listItems (fun _ _ h => h) (fun _ _ h => forall₂_children h) h
  rw [exprNames, exprNames, ← List.forall₂_eq_eq_eq, List.forall₂_map_left_iff,
    List.forall₂_map_right_iff]
  refine hitems.imp ?_
  intro a b hab
  rw [← Tree.kind_bare, ← Tree.text_bare, hab, Tree.kind_bare, Tree.text_bare]

/-- The names that a declaration of variables declares do not depend on positions. -/
theorem Site.specNames_congr {s s' : Site} (h : s.node.bare = s'.node.bare) :
    s.varSpecs.flatMap (·.node.names) = s'.varSpecs.flatMap (·.node.names) := by
  have hspecs : List.Forall₂ (fun c c' => c.node.bare = c'.node.bare) s.varSpecs s'.varSpecs :=
    forall₂_varSpecs (fun _ _ h => h) (fun _ _ h => forall₂_children h) h
  rw [← List.forall₂_eq_eq_eq]
  refine List.rel_flatMap hspecs ?_
  intro a b hab
  rw [List.forall₂_eq_eq_eq]
  change a.node.names = b.node.names
  rw [← Tree.names_bare, hab, Tree.names_bare]

end CtxThread.Code
