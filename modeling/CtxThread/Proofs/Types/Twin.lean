import CtxThread.Proofs.Code.Bare
import CtxThread.Proofs.Types.Scope

/-!
# Twins

Two packages have the same files, but for one file that is exchanged for another. The other file
tells the rest of the package the same: it has the same imports, types and variables, and functions
and methods of the same names, receivers and results. Then every node of the first package that
may be asked about from other files has a twin in the second one: a node of a file that both have
is its own twin, and a node within a declaration of variables has the node at the same place in the
same declaration. Twins differ in positions only.

## Main definitions

- `Code.Tree.Alike`, `SourceFile.Alike`: declarations and files that tell other files the same
- `Package.Exchanged`: two packages that differ in one file, where the files are alike
- `Package.Twin`: twins

## Main statements

- `Package.Exchanged.forall₂_declarations`: at the top of a file, what binds a name has a twin
- `Package.Twin.forall₂_children`: the children of twins are twins
- `Package.Twin.unique`: a node that is not empty has one twin
-/

namespace CtxThread

open Code (Tree Site Role Kind)

/-! ## Lists in a relation -/

section Lists

variable {α β : Type} {R : α → β → Prop} {l : List α} {l' : List β}

theorem forall₂_of_getElem? (hlength : l.length = l'.length)
    (h : ∀ (i : Nat) a b, l[i]? = some a → l'[i]? = some b → R a b) : List.Forall₂ R l l' := by
  refine List.forall₂_of_length_eq_of_get hlength ?_
  intro i hi hi'
  exact h i _ _ (List.getElem?_eq_getElem hi) (List.getElem?_eq_getElem hi')

theorem rel_map {γ δ : Type} {S : γ → δ → Prop} {f : α → γ} {g : β → δ} {a : Option α}
    {b : Option β} (h : Option.Rel R a b) (hfg : ∀ a b, R a b → S (f a) (g b)) :
    Option.Rel S (a.map f) (b.map g) := by
  cases h with
  | none => exact .none
  | some hab => exact .some (hfg _ _ hab)

theorem rel_getElem? (h : List.Forall₂ R l l') (i : Nat) : Option.Rel R l[i]? l'[i]? := by
  induction h generalizing i with
  | nil => exact .none
  | cons hab _ ih =>
    cases i with
    | zero => exact .some hab
    | succ i => exact ih i

theorem rel_of_getElem? (h : List.Forall₂ R l l') {i : Nat} {a : α} {b : β} (ha : l[i]? = some a)
    (hb : l'[i]? = some b) : R a b := by
  have hrel := rel_getElem? h i
  rw [ha, hb] at hrel
  cases hrel with
  | some hab => exact hab

theorem rel_find? {p : α → Bool} {q : β → Bool} (hpq : ∀ a b, R a b → p a = q b)
    (h : List.Forall₂ R l l') : Option.Rel R (l.find? p) (l'.find? q) := by
  induction h with
  | nil => exact .none
  | @cons a b _ _ hab _ ih =>
    rw [List.find?_cons, List.find?_cons, hpq a b hab]
    cases q b with
    | true => exact .some hab
    | false => exact ih

theorem any_eq_of_forall₂ {p : α → Bool} {q : β → Bool} (hpq : ∀ a b, R a b → p a = q b)
    (h : List.Forall₂ R l l') : l.any p = l'.any q := by
  induction h with
  | nil => rfl
  | cons hab _ ih => rw [List.any_cons, List.any_cons, hpq _ _ hab, ih]

theorem rel_lookup {κ : Type} [BEq κ] {l : List (κ × α)} {l' : List (κ × β)}
    (h : List.Forall₂ (fun e e' => e.1 = e'.1 ∧ R e.2 e'.2) l l') (k : κ) :
    Option.Rel R (l.lookup k) (l'.lookup k) := by
  induction h with
  | nil => exact .none
  | @cons e e' _ _ he _ ih =>
    obtain ⟨key, a⟩ := e
    obtain ⟨key', b⟩ := e'
    obtain ⟨rfl, hab⟩ := he
    rw [List.lookup_cons, List.lookup_cons]
    cases k == key with
    | true => exact .some hab
    | false => exact ih

end Lists

/-! ## Files that tell the same -/

namespace Code

/-- The kinds of declarations that other files can see, and of statements that declare variables. -/
def Kind.isTelling : Kind → Bool
  | .importDeclaration | .typeDeclaration | .varDeclaration | .shortVarDeclaration
  | .functionDeclaration | .methodDeclaration => true
  | _ => false

namespace Tree

/-- The declarations at the top of a file that other files can see. -/
def declarations (root : Tree) : List Tree := root.children.filter (·.kind.isTelling)

/-- Two declarations tell the same: they differ in positions only, or they declare a function or a
method of the same name, receiver and result. -/
def Alike (t t' : Tree) : Prop :=
  t.bare = t'.bare ∨ t.kind.isFuncDecl = true ∧ t.kind = t'.kind ∧
    ∀ r ∈ [Role.name, .receiver, .result], (t.child? r).map bare = (t'.child? r).map bare

instance : DecidableRel Alike := fun _ _ => inferInstanceAs (Decidable (_ ∨ _))

variable {t t' : Tree}

theorem Alike.refl (t : Tree) : t.Alike t := .inl rfl

theorem Alike.symm (h : t.Alike t') : t'.Alike t := by
  obtain h | ⟨hfunc, hkind, hparts⟩ := h
  · exact .inl h.symm
  · exact .inr ⟨hkind ▸ hfunc, hkind.symm, fun r hr => (hparts r hr).symm⟩

theorem Alike.kind (h : t.Alike t') : t.kind = t'.kind := by
  obtain h | ⟨_, hkind, _⟩ := h
  · rw [← kind_bare, h, kind_bare]
  · exact hkind

theorem Alike.bare (h : t.Alike t') (hkind : t.kind.isFuncDecl = false) : t.bare = t'.bare := by
  refine h.resolve_right fun hfunc => ?_
  rw [hkind] at hfunc
  cases hfunc.1

theorem Alike.child? (h : t.Alike t') {r : Role} (hr : r ∈ [Role.name, .receiver, .result]) :
    (t.child? r).map Tree.bare = (t'.child? r).map Tree.bare := by
  obtain h | ⟨_, _, hparts⟩ := h
  · rw [← child?_bare, h, child?_bare]
  · exact hparts r hr

end Tree

/-! ## What comes earlier -/

namespace Row

variable {lo hi : Nat} {ts : List Tree} {t : Tree} {j k : Nat}

/-- A tree that is not empty has one place in a row. -/
theorem eq_of_getElem? (h : Row lo ts hi) (hj : ts[j]? = some t) (hk : ts[k]? = some t)
    (hspan : t.start < t.stop) : j = k := by
  have hlt : ∀ {a b : Nat}, ts[a]? = some t → ts[b]? = some t → ¬ a < b := by
    intro a b ha hb hab
    obtain ⟨hal, ha⟩ := List.getElem?_eq_some_iff.mp ha
    obtain ⟨hbl, hb⟩ := List.getElem?_eq_some_iff.mp hb
    have := List.pairwise_iff_getElem.mp h.pairwise a b hal hbl hab
    rw [ha, hb] at this
    omega
  have := hlt hj hk
  have := hlt hk hj
  omega

/-- The trees that start before a tree of a row are those in front of it, up to empty ones. -/
theorem filter_earlier (h : Row lo ts hi) (hj : ts[j]? = some t) {p : Tree → Bool}
    (hp : ∀ c ∈ ts, p c = true → c.start < c.stop) :
    (ts.filter fun c => c.start < t.start).filter p = (ts.take j).filter p := by
  obtain ⟨hlt, hget⟩ := List.getElem?_eq_some_iff.mp hj
  have hsplit : ts = ts.take j ++ t :: ts.drop (j + 1) := by
    rw [← hget, ← List.drop_eq_getElem_cons hlt, List.take_append_drop]
  have hpairwise := h.pairwise
  rw [hsplit, List.pairwise_append] at hpairwise
  obtain ⟨_, hlater, hearlier⟩ := hpairwise
  have hempty : (t :: ts.drop (j + 1)).filter (fun c => decide (c.start < t.start)) = [] := by
    refine List.filter_eq_nil_iff.mpr ?_
    intro c hc
    have hspan := (h.bounds_of_mem (List.mem_of_getElem? hj)).2.1
    rcases List.mem_cons.mp hc with rfl | hc
    · simp
    · have := List.rel_of_pairwise_cons hlater hc
      simp only [decide_eq_true_eq]
      omega
  have hfilter : ts.filter (fun c => decide (c.start < t.start)) =
      (ts.take j).filter fun c => decide (c.start < t.start) := by
    conv_lhs => rw [hsplit, List.filter_append, hempty, List.append_nil]
  rw [hfilter, List.filter_filter]
  refine List.filter_congr ?_
  intro c hc
  cases hpc : p c with
  | false => rfl
  | true =>
    have hspan := hp c (List.mem_of_mem_take hc) hpc
    have := hearlier c hc t List.mem_cons_self
    simp only [Bool.true_and, decide_eq_true_eq]
    omega

end Row

end Code

/-- Two files tell the other files of a package the same. -/
def SourceFile.Alike (f f' : SourceFile) : Prop :=
  List.Forall₂ Tree.Alike f.root.declarations f'.root.declarations

instance : DecidableRel SourceFile.Alike := fun _ _ =>
  decidable_of_iff (_ ∧ ∀ z ∈ List.zip _ _, Tree.Alike z.1 z.2) <|
    (and_congr_right fun _ => Prod.forall).trans List.forall₂_iff_zip.symm

theorem SourceFile.Alike.symm {f f' : SourceFile} (h : f.Alike f') : f'.Alike f :=
  List.Forall₂.flip (h.imp fun _ _ h => h.symm)

/-- The package `p'` is the package `p` with file number `n` exchanged for a file that tells the
same. All files are parsed texts. -/
structure Package.Exchanged (p p' : Package) (n : Nat) (g g' : SourceFile) : Prop where
  name : p'.name = p.name
  file : p.files[n]? = some g
  files : p'.files = p.files.set n g'
  alike : g.Alike g'
  parsed : ∀ f ∈ p.files, Code.parse? f.src = some f.root
  parsed' : ∀ f ∈ p'.files, Code.parse? f.src = some f.root

namespace Package

variable {p p' : Package} {n : Nat} {g g' : SourceFile}

namespace Exchanged

variable (h : p.Exchanged p' n g g')

include h

theorem file' : p'.files[n]? = some g' := by
  have hlt : n < p.files.length := (List.getElem?_eq_some_iff.mp h.file).1
  simp [h.files, hlt]

/-- The other files are the same. -/
theorem getElem?_of_ne {i : Nat} (hi : i ≠ n) : p'.files[i]? = p.files[i]? := by
  rw [h.files, List.getElem?_set_ne (Ne.symm hi)]

theorem symm : p'.Exchanged p n g' g where
  name := h.name.symm
  file := h.file'
  files := by
    obtain ⟨hlt, hget⟩ := List.getElem?_eq_some_iff.mp h.file
    rw [h.files, List.set_set, ← hget, List.set_getElem_self]
  alike := h.alike.symm
  parsed := h.parsed'
  parsed' := h.parsed

end Exchanged

/-! ## Twins -/

/-- Twins among the nodes of file number `i`. -/
inductive Twins (p : Package) (n : Nat) (g g' : SourceFile) (i : Nat) : Site → Site → Prop
  /-- A file that was not exchanged is its own twin. -/
  | root {t : Tree} (hi : i ≠ n) (hf : p.files[i]?.map (·.root) = some t) :
      Twins p n g g' i ⟨t, []⟩ ⟨t, []⟩
  /-- In the files that were exchanged, what declares variables has a twin in its own place. -/
  | top {k : Nat} {d d' : Tree} (hi : i = n) (hd : g.root.declarations[k]? = some d)
      (hd' : g'.root.declarations[k]? = some d')
      (hkind : d.kind = .varDeclaration ∨ d.kind = .shortVarDeclaration) (hbare : d.bare = d'.bare) :
      Twins p n g g' i ⟨d, [g.root]⟩ ⟨d', [g'.root]⟩
  /-- Children of twins in the same place are twins. -/
  | enter {k : Nat} {outer outer' t t' : Tree} {around around' : List Tree}
      (h : Twins p n g g' i ⟨outer, around⟩ ⟨outer', around'⟩) (ht : outer.children[k]? = some t)
      (ht' : outer'.children[k]? = some t') :
      Twins p n g g' i ⟨t, outer :: around⟩ ⟨t', outer' :: around'⟩

/-- Twins are nodes of files in the same place. -/
def Twin (p : Package) (n : Nat) (g g' : SourceFile) (r r' : Ref) : Prop :=
  r.file = r'.file ∧ p.Twins n g g' r.file r.site r'.site

namespace Twins

variable {i : Nat} {s s' : Site}

/-- Twins differ in positions only. -/
theorem bare (h : p.Twins n g g' i s s') : s.node.bare = s'.node.bare := by
  induction h with
  | root => rfl
  | top _ _ _ _ hbare => exact hbare
  | enter _ ht ht' ih =>
    exact rel_of_getElem? (Tree.forall₂_children ih) ht ht'

theorem forall₂_children (h : p.Twins n g g' i s s') :
    List.Forall₂ (p.Twins n g g' i) s.children s'.children := by
  rw [Site.children, Site.children, List.forall₂_map_left_iff, List.forall₂_map_right_iff]
  refine forall₂_of_getElem? (Tree.forall₂_children h.bare).length_eq ?_
  intro k t t' ht ht'
  exact .enter h ht ht'

/-- The nodes of a file that was not exchanged are their own twins. -/
theorem of_mem_walk (hi : i ≠ n) {f : SourceFile} (hf : p.files[i]? = some f)
    (hs : s ∈ (Site.root f.root).walk) : p.Twins n g g' i s s := by
  have hwalk : ∀ a : Site, p.Twins n g g' i a a → ∀ s ∈ a.walk, p.Twins n g g' i s s := by
    intro a
    induction a using Site.induction with
    | node a ih =>
      intro ha s hs
      rw [Site.walk_eq, List.mem_cons] at hs
      rcases hs with rfl | hs
      · exact ha
      · obtain ⟨c, hc, hs⟩ := List.mem_flatMap.mp hs
        obtain ⟨t, ht, rfl⟩ := List.mem_map.mp hc
        obtain ⟨k, hk⟩ := List.mem_iff_getElem?.mp ht
        exact ih _ hc (.enter ha hk hk) s hs
  exact hwalk _ (.root hi (by rw [hf]; rfl)) s hs

theorem mem_refs (h : p.Twins n g g' i s s') (hg : p.files[n]? = some g) :
    ⟨i, s⟩ ∈ (Env.ofPackage p).refs := by
  induction h with
  | root _ hf =>
    obtain ⟨f, hfile, rfl⟩ := Option.map_eq_some_iff.mp hf
    exact Env.mem_refs.mpr ⟨f, hfile, Site.mem_walk_self _⟩
  | top hi hd =>
    subst hi
    refine Env.mem_refs.mpr ⟨g, hg, ?_⟩
    exact Site.mem_walk_of_mem_children (Site.mem_walk_self _)
      (List.mem_map_of_mem (List.mem_filter.mp (List.mem_of_getElem? hd)).1)
  | enter _ ht _ ih => exact Env.mem_refs_enter ih (List.mem_of_getElem? ht)

end Twins

namespace Exchanged

variable (h : p.Exchanged p' n g g') {i : Nat} {s s' : Site}

include h

theorem twins_symm (hs : p.Twins n g g' i s s') : p'.Twins n g' g i s' s := by
  induction hs with
  | root hi hf => exact .root hi (by rw [h.getElem?_of_ne hi, hf])
  | top hi hd hd' hkind hbare =>
    refine .top hi hd' hd ?_ hbare.symm
    rwa [← Tree.kind_bare, ← hbare, Tree.kind_bare]
  | enter _ ht ht' ih => exact .enter ih ht' ht

theorem twin_symm {r r' : Ref} (hr : p.Twin n g g' r r') : p'.Twin n g' g r' r :=
  ⟨hr.1.symm, hr.1 ▸ h.twins_symm hr.2⟩

/-- Nodes within the same nodes, one of them not empty, have the same twin. -/
theorem twins_unique {a b b' : Site} (hb : p.Twins n g g' i a b) (hb' : p.Twins n g g' i a b')
    (hspan : a.node.start < a.node.stop) : b = b' := by
  have hlaid : ∀ {x y : Site}, p.Twins n g g' i x y →
      Code.Row x.node.start x.node.children x.node.stop := by
    intro x y hx
    obtain ⟨src, hlaid⟩ := Env.laid_of_mem_refs h.parsed (hx.mem_refs h.file)
    exact hlaid.row
  induction hb generalizing b' with
  | root hi hf =>
    cases hb' with
    | root => rfl
  | top hi hd hd' =>
    cases hb' with
    | top _ hk hk' =>
      have hroot := Code.parse?_laid (h.parsed g (List.mem_of_getElem? h.file))
      obtain rfl := (hroot.row.sublist List.filter_sublist).eq_of_getElem? hd hk hspan
      rw [hd'] at hk'
      rw [Option.some.inj hk']
    | enter hroot => cases hroot with | root hne => exact absurd hi hne
  | enter ha ht ht' ih =>
    cases hb' with
    | top hi => cases ha with | root hne => exact absurd hi hne
    | enter hb' hk hk' =>
      have hrow := hlaid ha
      have hbounds := hrow.bounds_of_mem (List.mem_of_getElem? ht)
      dsimp only at hspan hbounds
      cases ih hb' (by dsimp only; omega)
      obtain rfl := hrow.eq_of_getElem? ht hk hspan
      rw [ht'] at hk'
      rw [Option.some.inj hk']

/-- At the top of two files in the same place the same is told, and what binds a name has a twin. -/
theorem forall₂_declarations {f f' : SourceFile} (hf : p.files[i]? = some f)
    (hf' : p'.files[i]? = some f') :
    List.Forall₂ (fun d d' : Tree => d.Alike d' ∧
      (d.kind = .varDeclaration ∨ d.kind = .shortVarDeclaration →
        p.Twins n g g' i ⟨d, [f.root]⟩ ⟨d', [f'.root]⟩))
      f.root.declarations f'.root.declarations := by
  by_cases hi : i = n
  · subst hi
    rw [h.file] at hf
    rw [h.file'] at hf'
    cases hf
    cases hf'
    refine forall₂_of_getElem? h.alike.length_eq ?_
    intro k d d' hd hd'
    have halike : d.Alike d' := rel_of_getElem? h.alike hd hd'
    refine ⟨halike, fun hkind => .top rfl hd hd' hkind (halike.bare ?_)⟩
    rcases hkind with hkind | hkind
    · rw [hkind]
      rfl
    · rw [hkind]
      rfl
  · rw [h.getElem?_of_ne hi, hf] at hf'
    cases hf'
    refine List.forall₂_same.mpr ?_
    intro d hd
    obtain ⟨k, hk⟩ := List.mem_iff_getElem?.mp (List.mem_filter.mp hd).1
    exact ⟨.refl d, fun _ => .enter (.root hi (by rw [hf]; rfl)) hk hk⟩

end Exchanged

namespace Twin

variable {r r' : Ref}

theorem bare (h : p.Twin n g g' r r') : r.node.bare = r'.node.bare := h.2.bare

theorem kind (h : p.Twin n g g' r r') : r.node.kind = r'.node.kind := by
  rw [← Tree.kind_bare, h.bare, Tree.kind_bare]

theorem text (h : p.Twin n g g' r r') : r.node.text = r'.node.text := by
  rw [← Tree.text_bare, h.bare, Tree.text_bare]

theorem move (h : p.Twin n g g' r r') {s s' : Site} (hs : p.Twins n g g' r.file s s') :
    p.Twin n g g' (r.move s) (r'.move s') := ⟨h.1, hs⟩

/-- What is found among the children of twins are twins. -/
theorem rel_find? (h : p.Twin n g g' r r') {q : Tree → Bool} (hq : ∀ t : Tree, q t.bare = q t) :
    Option.Rel (p.Twin n g g') (((r.node.children.find? q).map r.site.enter).map r.move)
      (((r'.node.children.find? q).map r'.site.enter).map r'.move) := by
  have hchildren := h.2.forall₂_children
  rw [Site.children, Site.children, List.forall₂_map_left_iff,
    List.forall₂_map_right_iff] at hchildren
  have hfound := CtxThread.rel_find? (p := q) (q := q) (fun a b hab => by
    rw [← hq a, show a.bare = b.bare from hab.bare, hq]) hchildren
  rw [Option.map_map, Option.map_map]
  exact rel_map hfound fun _ _ hab => h.move hab

theorem child? (h : p.Twin n g g' r r') (role : Role) :
    Option.Rel (p.Twin n g g') (r.child? role) (r'.child? role) :=
  h.rel_find? fun t => by rw [Tree.role_bare]

theorem firstItem? (h : p.Twin n g g' r r') :
    Option.Rel (p.Twin n g g') r.firstItem? r'.firstItem? :=
  h.rel_find? Tree.isItem_bare

theorem specs (h : p.Twin n g g' r r') : List.Forall₂ (p.Twin n g g') r.specs r'.specs := by
  rw [Ref.specs, Ref.specs, List.forall₂_map_left_iff, List.forall₂_map_right_iff]
  refine (Site.forall₂_varSpecs (fun _ _ => Twins.bare) (fun _ _ => Twins.forall₂_children)
    h.2).imp ?_
  exact fun _ _ hs => h.move hs

end Twin

theorem rel_valueRefs {values values' : Option Ref}
    (h : Option.Rel (p.Twin n g g') values values') :
    List.Forall₂ (p.Twin n g g') (valueRefs values) (valueRefs values') := by
  cases h with
  | none => exact .nil
  | @some v v' hv =>
    change List.Forall₂ _ (v.site.listItems.map v.move) (v'.site.listItems.map v'.move)
    rw [List.forall₂_map_left_iff, List.forall₂_map_right_iff]
    refine (Site.forall₂_listItems (fun _ _ => Twins.bare) (fun _ _ => Twins.forall₂_children)
      hv.2).imp ?_
    exact fun _ _ hs => hv.move hs

end Package

end CtxThread
