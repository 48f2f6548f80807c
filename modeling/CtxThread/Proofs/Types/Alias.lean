import CtxThread.Proofs.Code.Nesting
import CtxThread.Proofs.Types.Circular
import CtxThread.Proofs.Types.Index
import CtxThread.Proofs.Types.Spelling

/-!
# Aliases of types

An alias is followed to its right side in the file that declares it, while it is marked as being
followed. A type that is written with pointers, parentheses and containers is made from one name at
most, so an alias leads to at most one other, and following it either ends or leads back to an alias
that is being followed.

## Main definitions

- `Code.Tree.MadeFrom`: the name that a written type is made from
- `Env.LeadsTo`: the right side of an alias is made from a name
- `Env.Resolves`: resolving a written type, step by step, with the aliases that are being followed
- `Env.AliasFree`: a type without names of aliases
- `Env.FollowsAliases`: what is made of aliases in a package

## Main statements

- `Env.resolves_iff`: every written type is resolved, and then the same aliases are being followed
- `Env.namedType_of_circular`: an alias that leads back to itself means nothing
- `Env.namedType_of_not_circular`: any other means what its right side means
- `Env.followsAliases_ofPackage`: all of it for a parsed package
-/

namespace CtxThread

open Code (Tree Site Table)

open Relation (TransGen ReflTransGen)

/-! ## Names in written types -/

/-- The name that a written type is made from: its own, or that of the target of a pointer, of the
type between parentheses, of the elements of a slice or an array, or of the values of a map. -/
inductive Code.Tree.MadeFrom : Tree → String → Prop
  | name {t : Tree} (h : t.kind = .typeIdentifier) : MadeFrom t t.text
  | inner {t c : Tree} {n : String} (h : t.kind = .pointerType ∨ t.kind = .parenthesizedType)
      (hc : t.firstItem? = some c) (hn : MadeFrom c n) : MadeFrom t n
  | element {t c : Tree} {n : String}
      (h : t.kind = .sliceType ∨ t.kind = .arrayType ∨ t.kind = .implicitLengthArrayType)
      (hc : t.child? .element = some c) (hn : MadeFrom c n) : MadeFrom t n
  | value {t c : Tree} {n : String} (h : t.kind = .mapType) (hc : t.child? .value = some c)
      (hn : MadeFrom c n) : MadeFrom t n

namespace TypeExpr

/-- The name that a type is made from, once it is read. -/
def base? : TypeExpr → Option String
  | .name n => some n
  | .pointer t => t.base?
  | .container _ t => t.base?
  | _ => none

/-- Reads a written type that may be missing. -/
def ofTree? (t : Option Tree) : TypeExpr := (t.map ofTree).getD .other

theorem ofItem_eq (ts : List Tree) : ofItem ts = ofTree? (ts.find? Tree.isItem) := by
  induction ts with
  | nil => rfl
  | cons t ts ih =>
    rw [ofItem, List.find?_cons]
    cases ht : t.isItem with
    | true => rfl
    | false => exact ih

theorem ofRole_eq (r : Code.Role) (ts : List Tree) :
    ofRole r ts = ofTree? (ts.find? fun t => t.role = some r) := by
  induction ts with
  | nil => rfl
  | cons t ts ih =>
    rw [ofRole, List.find?_cons]
    by_cases ht : t.role = some r
    · simp [ht, ofTree?]
    · simp [ht, ih]

/-- Reading a written type goes by its kind. -/
theorem ofTree_eq (t : Tree) : ofTree t =
    match t.kind with
    | .pointerType => .pointer (ofTree? t.firstItem?)
    | .parenthesizedType => ofTree? t.firstItem?
    | .qualifiedType =>
      match t.child? .package, t.child? .name with
      | some p, some n => .qualified p.text n.text
      | _, _ => .other
    | .sliceType => .container .slice (ofTree? (t.child? .element))
    | .arrayType => .container .array (ofTree? (t.child? .element))
    | .implicitLengthArrayType => .container .array (ofTree? (t.child? .element))
    | .mapType => .container .map (ofTree? (t.child? .value))
    | .typeIdentifier => .name t.text
    | _ => .other := by
  obtain ⟨kind, role, start, stop, bytes, children⟩ := t
  simp only [Tree.firstItem?, Tree.child?, ← ofItem_eq, ← ofRole_eq]
  split
  case h_3 =>
    rw [ofTree]
    rfl
  case h_9 => rw [ofTree] <;> assumption
  all_goals rw [ofTree]

theorem base?_ofTree?_eq_some {t : Option Tree} {n : String} :
    (ofTree? t).base? = some n ↔ ∃ c, t = some c ∧ (ofTree c).base? = some n := by
  cases t with
  | none => simp [ofTree?, base?]
  | some c => simp [ofTree?]

/-- Reading a written type keeps the name it is made from. -/
theorem base?_ofTree_eq_some {t : Tree} {n : String} :
    (ofTree t).base? = some n ↔ t.MadeFrom n := by
  constructor
  · intro h
    induction t using Tree.induction with
    | node t ih =>
      have hitem : (ofTree? t.firstItem?).base? = some n →
          ∃ c, t.firstItem? = some c ∧ c.MadeFrom n := by
        intro h
        obtain ⟨c, hc, h⟩ := base?_ofTree?_eq_some.mp h
        exact ⟨c, hc, ih c (List.mem_of_find?_eq_some hc) h⟩
      have hchild : ∀ r, (ofTree? (t.child? r)).base? = some n →
          ∃ c, t.child? r = some c ∧ c.MadeFrom n := by
        intro r h
        obtain ⟨c, hc, h⟩ := base?_ofTree?_eq_some.mp h
        exact ⟨c, hc, ih c (List.mem_of_find?_eq_some hc) h⟩
      rw [ofTree_eq] at h
      split at h
      · obtain ⟨c, hc, hn⟩ := hitem h
        exact .inner (.inl ‹_›) hc hn
      · obtain ⟨c, hc, hn⟩ := hitem h
        exact .inner (.inr ‹_›) hc hn
      · split at h <;> cases h
      · obtain ⟨c, hc, hn⟩ := hchild .element h
        exact .element (.inl ‹_›) hc hn
      · obtain ⟨c, hc, hn⟩ := hchild .element h
        exact .element (.inr (.inl ‹_›)) hc hn
      · obtain ⟨c, hc, hn⟩ := hchild .element h
        exact .element (.inr (.inr ‹_›)) hc hn
      · obtain ⟨c, hc, hn⟩ := hchild .value h
        exact .value ‹_› hc hn
      · cases h
        exact .name ‹_›
      · cases h
  · intro h
    induction h with
    | name h =>
      rw [ofTree_eq, h]
      rfl
    | inner h hc _ ih =>
      rcases h with h | h
      · rw [ofTree_eq, h, hc]
        exact ih
      · rw [ofTree_eq, h, hc]
        exact ih
    | element h hc _ ih =>
      rcases h with h | h | h
      · rw [ofTree_eq, h, hc]
        exact ih
      · rw [ofTree_eq, h, hc]
        exact ih
      · rw [ofTree_eq, h, hc]
        exact ih
    | value h hc _ ih =>
      rw [ofTree_eq, h, hc]
      exact ih

variable {byName byName' : String → Option Ty} {imported : String → Option String}

/-- The meaning of a written type depends on the meaning of the name it is made from only. -/
theorem resolve_congr {e : TypeExpr} (h : ∀ n, e.base? = some n → byName n = byName' n) :
    e.resolve byName imported = e.resolve byName' imported := by
  induction e with
  | name n => exact h n rfl
  | qualified pkg n => rfl
  | pointer e ih => rw [resolve, resolve, ih h]
  | container kind e ih => rw [resolve, resolve, ih h]
  | other => rfl

/-- A written type that is made from a name without a meaning has none. -/
theorem resolve_eq_none {e : TypeExpr} {n : String} (hn : e.base? = some n)
    (h : byName n = none) : e.resolve byName imported = none := by
  induction e with
  | name m =>
    cases hn
    exact h
  | qualified pkg m => cases hn
  | pointer e ih => rw [resolve, ih hn, Option.bind_none]
  | container kind e ih => rw [resolve, ih hn, Option.map_none]
  | other => cases hn

end TypeExpr

namespace Env

variable (env : Env)

/-- The alias `n` is declared with a right side that is made from the name `n'`. -/
def LeadsTo (n n' : String) : Prop :=
  ∃ r t, env.index.types.lookup n = some r ∧ r.node.kind = .typeAlias ∧
    r.node.child? .type = some t ∧ t.MadeFrom n'

/-- Resolving a written type in a file while some aliases are being followed: what it means, and
the aliases that are being followed afterwards. -/
inductive Resolves : List NodeId → Nat → TypeExpr → Option Ty → List NodeId → Prop
  | undeclared {A : List NodeId} {file : Nat} {n : String}
      (h : env.index.types.lookup n = none) : Resolves A file (.name n) none A
  | declared {A : List NodeId} {file : Nat} {n : String} {r : Ref}
      (h : env.index.types.lookup n = some r) (hkind : r.node.kind ≠ .typeAlias) :
      Resolves A file (.name n) (some (.named env.package n false)) A
  /-- An alias that is being followed means nothing meanwhile. -/
  | again {A : List NodeId} {file : Nat} {n : String} {r : Ref}
      (h : env.index.types.lookup n = some r) (hkind : r.node.kind = .typeAlias)
      (hid : r.id ∈ A) : Resolves A file (.name n) none A
  | bare {A : List NodeId} {file : Nat} {n : String} {r : Ref}
      (h : env.index.types.lookup n = some r) (hkind : r.node.kind = .typeAlias)
      (hid : r.id ∉ A) (ht : r.node.child? .type = none) : Resolves A file (.name n) none A
  /-- While the right side of an alias is resolved, the alias is being followed. -/
  | follow {A A' : List NodeId} {file : Nat} {n : String} {r : Ref} {t : Tree} {a : Option Ty}
      (h : env.index.types.lookup n = some r) (hkind : r.node.kind = .typeAlias)
      (hid : r.id ∉ A) (ht : r.node.child? .type = some t)
      (hr : Resolves (r.id :: A) r.file (.ofTree t) a A') :
      Resolves A file (.name n) a (A'.erase r.id)
  | qualified {A : List NodeId} {file : Nat} {pkg n : String} :
      Resolves A file (.qualified pkg n)
        ((env.importPath? file pkg).map fun path => .named path n false) A
  | pointer {A A' : List NodeId} {file : Nat} {e : TypeExpr} {a : Option Ty}
      (h : Resolves A file e a A') : Resolves A file (.pointer e) (a.bind Ty.address?) A'
  | container {A A' : List NodeId} {file : Nat} {e : TypeExpr} {a : Option Ty}
      (kind : Container) (h : Resolves A file e a A') :
      Resolves A file (.container kind e) (a.map (.container kind)) A'
  | other {A : List NodeId} {file : Nat} : Resolves A file .other none A

/-- A type in which no name is that of an alias of the package. -/
def AliasFree : Ty → Prop
  | .named pkg name _ =>
    pkg = env.package → ∀ r, env.index.types.lookup name = some r → r.node.kind ≠ .typeAlias
  | .container _ elem => AliasFree elem

variable {env : Env} {n n' : String}

/-! ## Following aliases -/

/-- What an alias means while the aliases `A` are being followed, in as many steps as may be
needed. -/
def followed (env : Env) (A : List NodeId) (n : String) : Option Ty :=
  env.followName (env.index.types.length + 1) A n

theorem unvisited_le (env : Env) (A : List NodeId) : env.unvisited A ≤ env.index.types.length :=
  List.countP_le_length

/-- One step: an alias that is not being followed yet is followed to its right side. -/
theorem followed_alias {A : List NodeId} {r : Ref} (h : env.index.types.lookup n = some r)
    (hkind : r.node.kind = .typeAlias) (hid : r.id ∉ A) :
    env.followed A n = (r.node.child? .type).bind fun t =>
      (TypeExpr.ofTree t).resolve (env.followed (r.id :: A)) (env.importPath? r.file) := by
  have hlt := unvisited_lt h hid
  have hle := env.unvisited_le A
  have hsteps : env.followName env.index.types.length (r.id :: A) =
      env.followed (r.id :: A) :=
    funext fun m => followName_eq (by omega) (by omega) m
  rw [followed, followName, h]
  simp only [hkind, if_true, List.contains_iff_mem, hid, if_false, hsteps]

theorem followed_again {A : List NodeId} {r : Ref} (h : env.index.types.lookup n = some r)
    (hkind : r.node.kind = .typeAlias) (hid : r.id ∈ A) : env.followed A n = none := by
  rw [followed, followName, h]
  simp only [hkind, if_true, List.contains_iff_mem, hid]

theorem followed_declared {A : List NodeId} {r : Ref} (h : env.index.types.lookup n = some r)
    (hkind : r.node.kind ≠ .typeAlias) :
    env.followed A n = some (.named env.package n false) := by
  rw [followed, followName, h]
  simp only [hkind, if_false]

theorem followed_undeclared {A : List NodeId} (h : env.index.types.lookup n = none) :
    env.followed A n = none := by
  rw [followed, followName, h]

/-- A name whose right side is resolved whenever it is followed is resolved. -/
theorem resolves_name {A : List NodeId} {file : Nat}
    (h : ∀ r, r.id ∉ A → env.index.types.lookup n = some r → ∀ e,
      env.Resolves (r.id :: A) r.file e
        (e.resolve (env.followed (r.id :: A)) (env.importPath? r.file)) (r.id :: A)) :
    env.Resolves A file (.name n) (env.followed A n) A := by
  cases hr : env.index.types.lookup n with
  | none =>
    rw [followed_undeclared hr]
    exact .undeclared hr
  | some r =>
    by_cases hkind : r.node.kind = .typeAlias
    · by_cases hid : r.id ∈ A
      · rw [followed_again hr hkind hid]
        exact .again hr hkind hid
      · rw [followed_alias hr hkind hid]
        cases ht : r.node.child? .type with
        | none => exact .bare hr hkind hid ht
        | some t =>
          have hfollow : env.Resolves A file (.name n) _ ((r.id :: A).erase r.id) :=
            .follow hr hkind hid ht (h r hid hr (.ofTree t))
          rw [List.erase_cons_head] at hfollow
          exact hfollow
    · rw [followed_declared hr hkind]
      exact .declared hr hkind

/-- Every written type is resolved after finitely many steps, whatever is being followed. -/
theorem exists_resolves (A : List NodeId) (file : Nat) (e : TypeExpr) :
    env.Resolves A file e (e.resolve (env.followed A) (env.importPath? file)) A := by
  -- the induction is on the aliases that are not being followed, and then on the written type
  induction hk : env.unvisited A using Nat.strongRecOn generalizing A file e with
  | ind k ih =>
    induction e with
    | name n =>
      apply resolves_name
      intro r hid hr e
      exact ih _ (hk ▸ unvisited_lt hr hid) (r.id :: A) r.file e rfl
    | qualified pkg n => exact .qualified
    | pointer e ihe => exact .pointer ihe
    | container kind e ihe => exact .container kind ihe
    | other => exact .other

/-- A written type is resolved in one way only, and then the same aliases are being followed. -/
theorem Resolves.eq {A A' : List NodeId} {file : Nat} {e : TypeExpr} {a : Option Ty}
    (h : env.Resolves A file e a A') :
    a = e.resolve (env.followed A) (env.importPath? file) ∧ A' = A := by
  induction h with
  | undeclared h => exact ⟨(followed_undeclared h).symm, rfl⟩
  | declared h hkind => exact ⟨(followed_declared h hkind).symm, rfl⟩
  | again h hkind hid => exact ⟨(followed_again h hkind hid).symm, rfl⟩
  | bare h hkind hid ht =>
    refine ⟨?_, rfl⟩
    rw [TypeExpr.resolve, followed_alias h hkind hid, ht, Option.bind_none]
  | follow h hkind hid ht _ ih =>
    obtain ⟨ha, rfl⟩ := ih
    refine ⟨?_, List.erase_cons_head ..⟩
    rw [TypeExpr.resolve, followed_alias h hkind hid, ht, Option.bind_some, ha]
  | qualified => exact ⟨rfl, rfl⟩
  | pointer _ ih =>
    obtain ⟨rfl, rfl⟩ := ih
    exact ⟨rfl, rfl⟩
  | container kind _ ih =>
    obtain ⟨rfl, rfl⟩ := ih
    exact ⟨rfl, rfl⟩
  | other => exact ⟨rfl, rfl⟩

theorem resolves_iff {A A' : List NodeId} {file : Nat} {e : TypeExpr} {a : Option Ty} :
    env.Resolves A file e a A' ↔
      a = e.resolve (env.followed A) (env.importPath? file) ∧ A' = A := by
  refine ⟨Resolves.eq, ?_⟩
  rintro ⟨rfl, rfl⟩
  exact exists_resolves _ file e

/-! ## Aliases that lead back to themselves -/

theorem leadsTo_iff : env.LeadsTo n n' ↔ ∃ r t, env.index.types.lookup n = some r ∧
    r.node.kind = .typeAlias ∧ r.node.child? .type = some t ∧
      (TypeExpr.ofTree t).base? = some n' := by
  simp only [LeadsTo, TypeExpr.base?_ofTree_eq_some]

/-- The name that an alias leads to. -/
def next? (env : Env) (n : String) : Option String :=
  ((env.index.types.lookup n).filter (·.node.kind = .typeAlias)).bind fun r =>
    (r.node.child? .type).bind fun t => (TypeExpr.ofTree t).base?

theorem leadsTo_iff_next? : env.LeadsTo n n' ↔ env.next? n = some n' := by
  simp [leadsTo_iff, next?, Option.bind_eq_some_iff, Option.filter_eq_some_iff, and_assoc]

instance : Decidable (env.LeadsTo n n') := decidable_of_iff _ leadsTo_iff_next?.symm

/-- An alias leads to one name at most. -/
theorem LeadsTo.unique {m : String} (h : env.LeadsTo n n') (h' : env.LeadsTo n m) : n' = m := by
  rw [leadsTo_iff_next?] at h h'
  exact Option.some.inj (h.symm.trans h')

/-- What an alias on a circle leads to is on the circle too. -/
theorem LeadsTo.circular (h : env.LeadsTo n n') (hn : TransGen env.LeadsTo n n) :
    TransGen env.LeadsTo n' n' := by
  obtain ⟨m, hm, hback⟩ := TransGen.head'_iff.mp hn
  rw [← h.unique hm] at hback
  exact .tail' hback h

/-- An alias that leads back to itself means nothing, however many steps are taken. -/
theorem followName_of_circular (hn : TransGen env.LeadsTo n n) (fuel : Nat) (A : List NodeId) :
    env.followName fuel A n = none := by
  induction fuel generalizing A n with
  | zero => rfl
  | succ fuel ih =>
    obtain ⟨m, hm, _⟩ := TransGen.head'_iff.mp hn
    obtain ⟨r, t, hr, hkind, ht, hbase⟩ := leadsTo_iff.mp hm
    rw [followName, hr]
    simp only [hkind, if_true, ht, Option.bind_some]
    split
    · rfl
    · exact TypeExpr.resolve_eq_none hbase (ih (hm.circular hn) _)

theorem namedType_of_circular (hn : TransGen env.LeadsTo n n) : env.namedType n = none :=
  followName_of_circular hn _ []

/-- The meaning of a name does not depend on aliases being followed that it does not lead to. -/
theorem followName_congr {A B : List NodeId} {j k : Nat} (hj : env.unvisited A < j)
    (hk : env.unvisited B < k)
    (h : ∀ m r, ReflTransGen env.LeadsTo n m → env.index.types.lookup m = some r →
      r.node.kind = .typeAlias → (r.id ∈ A ↔ r.id ∈ B)) :
    env.followName j A n = env.followName k B n := by
  induction j generalizing A B k n with
  | zero => omega
  | succ j ih =>
    obtain ⟨k, rfl⟩ : ∃ k', k = k' + 1 := ⟨k - 1, by omega⟩
    rw [followName, followName]
    cases hr : env.index.types.lookup n with
    | none => rfl
    | some r =>
      dsimp only
      by_cases hkind : r.node.kind = .typeAlias
      · have hsame := h n r .refl hr hkind
        by_cases hid : r.id ∈ A
        · simp [hkind, hid, hsame.mp hid]
        · have hid' : r.id ∉ B := fun hmem => hid (hsame.mpr hmem)
          simp only [hkind, if_true, List.contains_iff_mem, hid, hid', if_false]
          cases ht : r.node.child? .type with
          | none => rfl
          | some t =>
            have hltA := unvisited_lt hr hid
            have hltB := unvisited_lt hr hid'
            apply TypeExpr.resolve_congr
            intro n' hn'
            apply ih (by omega) (by omega)
            intro m r' hm hr' hkind'
            have hstep : env.LeadsTo n n' := leadsTo_iff.mpr ⟨r, t, hr, hkind, ht, hn'⟩
            rw [List.mem_cons, List.mem_cons, h m r' (.head hstep hm) hr' hkind']
      · simp [hkind]

/-- Aliases of different names are told apart while they are being followed. -/
def TellsAliases (env : Env) : Prop :=
  ∀ n n' r r', env.index.types.lookup n = some r → env.index.types.lookup n' = some r' →
    r.node.kind = .typeAlias → r.id = r'.id → n = n'

/-- An alias that does not lead back to itself means what its right side means in the file that
declares it. -/
theorem namedType_of_not_circular (htells : env.TellsAliases) {r : Ref}
    (hr : env.index.types.lookup n = some r) (hkind : r.node.kind = .typeAlias)
    (hn : ¬ TransGen env.LeadsTo n n) : env.namedType n = env.typeChild r := by
  change env.followed [] n = _
  rw [followed_alias hr hkind List.not_mem_nil, typeChild]
  cases ht : r.node.child? .type with
  | none => rfl
  | some t =>
    apply TypeExpr.resolve_congr
    intro n' hn'
    have hstep : env.LeadsTo n n' := leadsTo_iff.mpr ⟨r, t, hr, hkind, ht, hn'⟩
    have hleA := env.unvisited_le [r.id]
    have hleB := env.unvisited_le []
    apply followName_congr (by omega) (by omega)
    intro m r' hm hr' hkind'
    -- an alias that is told from `n` is not the one being followed
    have hne : r'.id ≠ r.id := by
      intro hid
      obtain rfl := htells n m r r' hr hr' hkind hid.symm
      exact hn (.head' hstep hm)
    simp [hne]

/-! ## Names in answered types -/

theorem AliasFree.of_address? {s s' : Spelling} (h : env.AliasFree (s.type env.package))
    (hs : s.address? = some s') : env.AliasFree (s'.type env.package) := by
  rcases s with ⟨name, pointer⟩ | ⟨path, name, pointer⟩ | ⟨kind, elem⟩
  · cases pointer with
    | false => cases hs; exact h
    | true => cases hs
  · cases pointer with
    | false => cases hs; exact h
    | true => cases hs
  · cases hs

/-- A written type is spelled without aliases, unless one is taken for an imported type. -/
theorem Spells.aliasFree (himports : ∀ file name, env.importPath? file name ≠ some env.package)
    {file : Nat} {e : TypeExpr} {s : Spelling} (hs : env.Spells file e s) :
    env.AliasFree (s.type env.package) := by
  induction hs with
  | declared h hkind =>
    intro _ r hr
    rw [h] at hr
    cases hr
    exact hkind
  | follow _ _ _ _ ih => exact ih
  | imported h =>
    intro hpkg
    exact absurd (hpkg ▸ h) (himports _ _)
  | pointer _ hs' ih => exact ih.of_address? hs'
  | container _ _ ih => exact ih

end Env

namespace Import

theorem snd_of_mem_bind {table : List (String × String)} {name path : String}
    {e : String × String} (he : e ∈ bind table name path) : e ∈ table ∨ e.2 = path := by
  unfold bind at he
  split at he
  · obtain ⟨old, hold, rfl⟩ := List.mem_map.mp he
    split
    · exact .inr rfl
    · exact .inl hold
  · obtain hold | hnew := List.mem_append.mp he
    · exact .inl hold
    · rw [List.mem_singleton.mp hnew]
      exact .inr rfl

end Import

/-- What a local name stands for is the path of an import. -/
theorem SourceFile.mem_importPaths {f : SourceFile} {name path : String}
    (h : f.importPath? name = some path) : path ∈ f.importPaths := by
  have htable : ∀ e ∈ f.imports, e.2 ∈ f.importPaths := by
    unfold SourceFile.imports
    refine List.foldlRecOn _ _ (fun e he => absurd he List.not_mem_nil) ?_
      (motive := fun table : List (String × String) => ∀ e ∈ table, e.2 ∈ f.importPaths)
    intro table htable spec hspec e he
    split at he
    · rename_i hpath
      obtain he | rfl := Import.snd_of_mem_bind he
      · exact htable e he
      · exact List.mem_filterMap.mpr ⟨spec, hspec, hpath⟩
    · exact htable e he
  exact htable _ (mem_of_lookup_eq_some h)

namespace Env

variable {env : Env}

/-! ## Aliases of a package -/

/-- What is made of the aliases of a package, whatever leads where. -/
structure FollowsAliases (env : Env) : Prop where
  /-- Every written type is resolved, in one way, and the aliases that are being followed are the
  same as before. -/
  returns : ∀ (A : List NodeId) (file : Nat) (t : Tree), ∃ a,
    env.Resolves A file (.ofTree t) a A ∧
      ∀ a' A', env.Resolves A file (.ofTree t) a' A' → a' = a ∧ A' = A
  /-- What it means is what it is resolved to. -/
  answer : ∀ (file : Nat) (t : Tree) (a : Option Ty),
    env.typeExpr file t = a ↔ env.Resolves [] file (.ofTree t) a []
  /-- Unless a file imports a path that is the name of the package, no type has a name of an alias
  in it. -/
  canonical : (∀ f ∈ env.files, env.package ∉ f.importPaths) →
    ∀ (file : Nat) (t : Tree) (ty : Ty), env.typeExpr file t = some ty → env.AliasFree ty
  /-- An alias that does not lead back to itself means what its right side means in the file that
  declares it. -/
  acyclic : ∀ (n : String) (r : Ref), env.index.types.lookup n = some r →
    r.node.kind = .typeAlias → ¬ TransGen env.LeadsTo n n →
      env.namedType n = (r.node.child? .type).bind (env.typeExpr r.file)
  /-- An alias that leads back to itself means nothing. -/
  circular : ∀ n : String, TransGen env.LeadsTo n n → env.namedType n = none

/-- In a parsed package aliases are followed to the end. -/
theorem followsAliases_ofPackage {p : Package}
    (hparsed : ∀ f ∈ p.files, Code.parse? f.src = some f.root) :
    (ofPackage p).FollowsAliases where
  returns := by
    intro A file t
    exact ⟨_, exists_resolves A file (.ofTree t), fun a' A' h => h.eq⟩
  answer := by
    intro file t a
    rw [resolves_iff, and_iff_left rfl]
    exact eq_comm
  canonical := by
    intro himports file t ty h
    obtain ⟨s, hs, rfl⟩ := exists_spells (e := .ofTree t) h
    refine hs.aliasFree ?_
    intro i name hpath
    obtain ⟨f, hf, hpath⟩ := Option.bind_eq_some_iff.mp hpath
    exact himports f (List.mem_of_getElem? hf) (SourceFile.mem_importPaths hpath)
  acyclic := by
    intro n r hr hkind hn
    refine namedType_of_not_circular ?_ hr hkind hn
    intro n n' r r' hr hr' hkind hid
    exact eq_of_alias_id_eq hparsed hr hr' hkind hid
  circular := fun n hn => namedType_of_circular hn

/-- A file with an alias of an alias, and one with a part of a circle. -/
def aliasesHere : Bytes := Bytes.ofString
  "package p\n\ntype Pool = (Handles)\n\ntype Loop = []*Back\n"

/-- The file that their right sides are made from. -/
def aliasesThere : Bytes := Bytes.ofString <|
  "package p\n\nimport \"database/sql\"\n\ntype Handles = [4]*sql.DB\n\n" ++
  "type Back = map[Pool]Loop\n"

/-- The alias of an alias means an array, and the circle means nothing, although the keys of its
map do. -/
theorem followsAliases_twoFiles :
    ∃ f g, SourceFile.read? ⟨"", ["a.go"]⟩ aliasesHere = some f ∧
      SourceFile.read? ⟨"", ["b.go"]⟩ aliasesThere = some g ∧
      (ofPackage ⟨"p", [f, g]⟩).FollowsAliases ∧
      (∀ f' ∈ [f, g], "p" ∉ f'.importPaths) ∧
      ¬ TransGen (ofPackage ⟨"p", [f, g]⟩).LeadsTo "Pool" "Pool" ∧
      (ofPackage ⟨"p", [f, g]⟩).namedType "Pool" =
        some (.container .array (.named "database/sql" "DB" true)) ∧
      TransGen (ofPackage ⟨"p", [f, g]⟩).LeadsTo "Loop" "Loop" ∧
      (ofPackage ⟨"p", [f, g]⟩).namedType "Loop" = none := by
  have h : ((SourceFile.read? ⟨"", ["a.go"]⟩ aliasesHere).bind fun f =>
      (SourceFile.read? ⟨"", ["b.go"]⟩ aliasesThere).map fun g =>
        decide ((∀ f' ∈ [f, g], "p" ∉ f'.importPaths) ∧
          (ofPackage ⟨"p", [f, g]⟩).namedType "Pool" =
            some (.container .array (.named "database/sql" "DB" true)) ∧
          (ofPackage ⟨"p", [f, g]⟩).LeadsTo "Loop" "Back" ∧
          (ofPackage ⟨"p", [f, g]⟩).LeadsTo "Back" "Loop")) = some true := by
    decide +kernel
  obtain ⟨f, hf, h⟩ := Option.bind_eq_some_iff.mp h
  obtain ⟨g, hg, h⟩ := Option.map_eq_some_iff.mp h
  obtain ⟨himports, hpool, hloop, hback⟩ := of_decide_eq_true h
  have hparsed : ∀ f' ∈ [f, g], Code.parse? f'.src = some f'.root := by
    obtain ⟨root, hroot, rfl⟩ := Option.map_eq_some_iff.mp hf
    obtain ⟨root', hroot', rfl⟩ := Option.map_eq_some_iff.mp hg
    simp [hroot, hroot']
  have hfollows := followsAliases_ofPackage (p := ⟨"p", [f, g]⟩) hparsed
  have hcircle := (TransGen.single hloop).tail hback
  refine ⟨f, g, hf, hg, hfollows, himports, ?_, hpool, hcircle, hfollows.circular _ hcircle⟩
  intro hcircular
  rw [hfollows.circular _ hcircular] at hpool
  cases hpool

end Env

end CtxThread
