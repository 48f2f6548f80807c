import CtxThread.Proofs.Types.Meaning

/-!
# How types are written

A type is known from a place where it is written. There it is spelled with a plain name, which is a
type of the package, or with a qualified one, which is a type of an imported package. Two types
spelled in these two ways are different, also if the package and the imported one go by the same
name.

## Main definitions

- `Spelling`: a type with the way its name is written
- `Env.Spells`: a written type is spelled so, all aliases followed

## Main statements

- `Env.exists_spells`: a written type that has a meaning is spelled in some way
- `Env.Spells.type_eq`: it means what it is spelled as
-/

namespace CtxThread

open Code (Tree)

/-- A type as it is written: with the name of a type that the package declares, or with that of a
type of an imported package. -/
inductive Spelling where
  | declared (name : String) (pointer : Bool)
  | imported (path name : String) (pointer : Bool)
  | container (kind : Container) (elem : Spelling)

namespace Spelling

/-- The type that is spelled so in the package `pkg`. -/
def type (pkg : String) : Spelling → Ty
  | .declared name pointer => .named pkg name pointer
  | .imported path name pointer => .named path name pointer
  | .container kind elem => .container kind (elem.type pkg)

/-- How the pointer to a named type is spelled. -/
def address? : Spelling → Option Spelling
  | .declared name false => some (.declared name true)
  | .imported path name false => some (.imported path name true)
  | _ => none

/-- How the elements of a container are spelled. -/
def elem? : Spelling → Option Spelling
  | .container _ elem => some elem
  | _ => none

/-- How a slice of a container is spelled. -/
def sliced? : Spelling → Option Spelling
  | .container .map _ => none
  | .container _ elem => some (.container .slice elem)
  | _ => none

variable (pkg : String) (s : Spelling)

theorem address?_type : (s.type pkg).address? = s.address?.map (type pkg) := by
  rcases s with ⟨name, pointer⟩ | ⟨path, name, pointer⟩ | ⟨kind, elem⟩
  · cases pointer <;> rfl
  · cases pointer <;> rfl
  · rfl

theorem elem?_type : (s.type pkg).elem? = s.elem?.map (type pkg) := by
  cases s <;> rfl

theorem sliced?_type : (s.type pkg).sliced? = s.sliced?.map (type pkg) := by
  rcases s with _ | _ | ⟨kind, elem⟩
  · rfl
  · rfl
  · cases kind <;> rfl

end Spelling

/-- Reads a type in the place of an argument, where it may look like an expression. -/
def TypeExpr.ofOperand (t : Tree) : TypeExpr :=
  match t.kind with
  | .identifier => .name t.text
  | .selectorExpression =>
    match t.child? .operand, t.child? .field with
    | some operand, some field =>
      if operand.kind = .identifier then .qualified operand.text field.text else .other
    | _, _ => .other
  | _ => .ofTree t

/-- The type of one result, as a declaration writes it. -/
def resultType? (decl : Ref) (i : Nat) : Option Tree :=
  (decl.node.child? .result).bind fun result =>
    if result.kind = .parameterList then
      (result.paramDecls.flatMap fun d =>
        List.replicate (max 1 (d.childrenIn .name).length) (d.child? .type))[i]?.join
    else if i = 0 then some result
    else none

namespace Env

variable (env : Env)

/-- The meaning of a type written in a file, once it is read. -/
def resolved (file : Nat) (e : TypeExpr) : Option Ty :=
  e.resolve env.namedType (env.importPath? file)

/-- The type of a field, as the struct type writes it, and the file it is in. -/
def fieldType? (type field : String) : Option (Nat × Tree) :=
  (env.index.types.lookup type).bind fun r =>
    (r.node.child? .type).bind fun struct =>
      if struct.kind = .structType then
        (struct.structFields.find? fun d => d.names.contains field).bind fun d =>
          (d.child? .type).map fun t => (r.file, t)
      else none

/-- A type written in a file is spelled so, once its aliases are followed. -/
inductive Spells : Nat → TypeExpr → Spelling → Prop
  | declared {file : Nat} {name : String} {r : Ref} (h : env.index.types.lookup name = some r)
      (hkind : r.node.kind ≠ .typeAlias) : Spells file (.name name) (.declared name false)
  | follow {file : Nat} {name : String} {r : Ref} {t : Tree} {s : Spelling}
      (h : env.index.types.lookup name = some r) (hkind : r.node.kind = .typeAlias)
      (ht : r.node.child? .type = some t) (hs : Spells r.file (.ofTree t) s) :
      Spells file (.name name) s
  | imported {file : Nat} {pkg name path : String} (h : env.importPath? file pkg = some path) :
      Spells file (.qualified pkg name) (.imported path name false)
  | pointer {file : Nat} {e : TypeExpr} {s s' : Spelling} (hs : Spells file e s)
      (hs' : s.address? = some s') : Spells file (.pointer e) s'
  | container {file : Nat} {e : TypeExpr} {s : Spelling} (kind : Container)
      (hs : Spells file e s) : Spells file (.container kind e) (.container kind s)

/-- Plain names in a spelling are those of types that the package declares, and qualified ones are
those of types of packages that its files import. -/
def Finds (env : Env) : Spelling → Prop
  | .declared name _ => (env.index.types.lookup name).isSome
  | .imported path _ _ => ∃ file name, env.importPath? file name = some path
  | .container _ elem => env.Finds elem

variable {env : Env} {file : Nat} {e : TypeExpr} {s s' : Spelling} {t : Ty}

/-! ## Meanings of written types -/

theorem typeOperand_eq (file : Nat) (t : Tree) :
    env.typeOperand file t = env.resolved file (.ofOperand t) := by
  by_cases hident : t.kind = .identifier
  · rw [typeOperand, TypeExpr.ofOperand, hident]
    rfl
  · by_cases hsel : t.kind = .selectorExpression
    · rw [typeOperand, TypeExpr.ofOperand, hsel]
      cases t.child? .operand with
      | none => rfl
      | some operand =>
        cases t.child? .field with
        | none => rfl
        | some field =>
          by_cases hkind : operand.kind = .identifier
          · simp only [if_pos hkind]
            rfl
          · simp only [if_neg hkind]
            rfl
    · have htype : env.typeOperand file t = env.typeExpr file t := by
        unfold typeOperand
        split
        · exact absurd ‹_› hident
        · exact absurd ‹_› hsel
        · rfl
      have hread : TypeExpr.ofOperand t = .ofTree t := by
        unfold TypeExpr.ofOperand
        split
        · exact absurd ‹_› hident
        · exact absurd ‹_› hsel
        · rfl
      rw [htype, hread]
      rfl

theorem fieldType_eq (type field : String) :
    env.fieldType type field =
      (env.fieldType? type field).bind fun t => env.typeExpr t.1 t.2 := by
  unfold fieldType fieldType?
  cases env.index.types.lookup type with
  | none => rfl
  | some r =>
    simp only [Option.bind_some]
    cases r.node.child? .type with
    | none => rfl
    | some struct =>
      simp only [Option.bind_some]
      split
      · cases struct.structFields.find? fun d => d.names.contains field with
        | none => rfl
        | some d =>
          simp only [Option.bind_some]
          cases d.child? .type with
          | none => rfl
          | some t => rfl
      · rfl

theorem declaredResult_eq (decl : Ref) (i : Nat) :
    env.declaredResult decl i = (resultType? decl i).bind (env.typeExpr decl.file) := by
  unfold declaredResult resultType?
  cases decl.node.child? .result with
  | none => rfl
  | some result =>
    simp only [Option.bind_some]
    split
    · rfl
    · split
      · rfl
      · rfl

/-- What a written type resolves to is spelled by it, if that is so of the names in it. -/
theorem exists_spells_of_resolve {byName : String → Option Ty}
    (hname : ∀ n t, byName n = some t → ∃ s, env.Spells file (.name n) s ∧ s.type env.package = t)
    (h : e.resolve byName (env.importPath? file) = some t) :
    ∃ s, env.Spells file e s ∧ s.type env.package = t := by
  induction e generalizing t with
  | name n => exact hname n t h
  | qualified pkg n =>
    obtain ⟨path, hpath, rfl⟩ := Option.map_eq_some_iff.mp h
    exact ⟨_, .imported hpath, rfl⟩
  | pointer e ih =>
    obtain ⟨t', ht', hptr⟩ := Option.bind_eq_some_iff.mp h
    obtain ⟨s, hs, rfl⟩ := ih ht'
    rw [Spelling.address?_type] at hptr
    obtain ⟨s', hs', rfl⟩ := Option.map_eq_some_iff.mp hptr
    exact ⟨s', .pointer hs hs', rfl⟩
  | container kind e ih =>
    obtain ⟨t', ht', rfl⟩ := Option.map_eq_some_iff.mp h
    obtain ⟨s, hs, rfl⟩ := ih ht'
    exact ⟨_, .container kind hs, rfl⟩
  | other => cases h

theorem exists_spells_of_followName (fuel : Nat) (visited : List NodeId) {name : String}
    (h : env.followName fuel visited name = some t) (file : Nat) :
    ∃ s, env.Spells file (.name name) s ∧ s.type env.package = t := by
  induction fuel generalizing visited name t file with
  | zero => cases h
  | succ fuel ih =>
    rw [followName] at h
    split at h
    · cases h
    · rename_i r hr
      split at h
      · rename_i hkind
        split at h
        · cases h
        · obtain ⟨body, hbody, h⟩ := Option.bind_eq_some_iff.mp h
          obtain ⟨s, hs, hst⟩ :=
            exists_spells_of_resolve (fun n t' h' => ih _ h' r.file) h
          exact ⟨s, .follow hr hkind hbody hs, hst⟩
      · rename_i hkind
        cases h
        exact ⟨_, .declared hr hkind, rfl⟩

/-- A written type that has a meaning is spelled so. -/
theorem exists_spells (h : env.resolved file e = some t) :
    ∃ s, env.Spells file e s ∧ s.type env.package = t :=
  exists_spells_of_resolve (fun _ _ h' => exists_spells_of_followName _ _ h' file) h

theorem Spells.unique (h : env.Spells file e s) (h' : env.Spells file e s') : s = s' := by
  induction h generalizing s' with
  | declared h hkind =>
    cases h' with
    | declared => rfl
    | follow h' hkind' =>
      rw [h] at h'
      cases h'
      exact absurd hkind' hkind
  | follow h hkind ht _ ih =>
    cases h' with
    | declared h' hkind' =>
      rw [h] at h'
      cases h'
      exact absurd hkind hkind'
    | follow h' _ ht' hs' =>
      rw [h] at h'
      cases h'
      rw [ht] at ht'
      cases ht'
      exact ih hs'
  | imported h =>
    cases h' with
    | imported h' =>
      rw [h] at h'
      cases h'
      rfl
  | pointer _ hptr ih =>
    cases h' with
    | pointer hs' hptr' =>
      rw [ih hs', hptr'] at hptr
      cases hptr
      rfl
  | container kind _ ih =>
    cases h' with
    | container _ hs' => rw [ih hs']

theorem Spells.type_eq (hs : env.Spells file e s) (h : env.resolved file e = some t) :
    s.type env.package = t := by
  obtain ⟨s', hs', rfl⟩ := exists_spells h
  rw [hs.unique hs']

theorem Finds.address? (h : env.Finds s) (hs : s.address? = some s') : env.Finds s' := by
  rcases s with ⟨name, pointer⟩ | ⟨path, name, pointer⟩ | ⟨kind, elem⟩
  · cases pointer with
    | false => cases hs; exact h
    | true => cases hs
  · cases pointer with
    | false => cases hs; exact h
    | true => cases hs
  · cases hs

theorem Finds.elem? (h : env.Finds s) (hs : s.elem? = some s') : env.Finds s' := by
  rcases s with _ | _ | ⟨kind, elem⟩
  · cases hs
  · cases hs
  · cases hs
    exact h

theorem Finds.sliced? (h : env.Finds s) (hs : s.sliced? = some s') : env.Finds s' := by
  rcases s with _ | _ | ⟨kind, elem⟩
  · cases hs
  · cases hs
  · cases kind with
    | slice => cases hs; exact h
    | array => cases hs; exact h
    | map => cases hs

theorem Spells.finds (hs : env.Spells file e s) : env.Finds s := by
  induction hs with
  | declared h _ => exact Option.isSome_iff_exists.mpr ⟨_, h⟩
  | follow _ _ _ _ ih => exact ih
  | imported h => exact ⟨_, _, h⟩
  | pointer _ hs' ih => exact ih.address? hs'
  | container _ _ ih => exact ih

end Env

/-! ## Known results -/

theorem mem_of_lookup_eq_some {α β : Type} [BEq α] [LawfulBEq α] {a : α} {b : β}
    {l : List (α × β)} (h : l.lookup a = some b) : (a, b) ∈ l := by
  obtain ⟨l₁, l₂, rfl, _⟩ := List.lookup_eq_some_iff.mp h
  exact List.mem_append_right _ List.mem_cons_self

/-- The known functions of a package have results of types of that package. -/
theorem exists_of_functionResult? {path member : String} {i : Nat} {t : Ty}
    (h : Known.functionResult? path member i = some t) : ∃ name, t = .named path name true := by
  obtain ⟨results, hlookup, h⟩ := Option.bind_eq_some_iff.mp h
  have htable : ∀ entry ∈ Known.functions, ∀ result ∈ entry.2, ∀ t ∈ result,
      ∃ name, t = .named entry.1.1 name true := by
    simp [Known.functions, Known.sql, Known.sqlx]
  have hresult := List.mem_of_getElem? (Option.join_eq_some_iff.mp h)
  exact htable _ (mem_of_lookup_eq_some hlookup) _ hresult t rfl

/-- The known methods of a type have results of types of the same package. -/
theorem exists_of_methodResult? {path type member : String} {i : Nat} {t : Ty}
    (h : Known.methodResult? path type member i = some t) : ∃ name, t = .named path name true := by
  obtain ⟨results, hlookup, h⟩ := Option.bind_eq_some_iff.mp h
  have htable : ∀ entry ∈ Known.methods, ∀ result ∈ entry.2, ∀ t ∈ result,
      ∃ name, t = .named entry.1.1 name true := by
    simp [Known.methods, Known.sql, Known.sqlx]
  have hresult := List.mem_of_getElem? (Option.join_eq_some_iff.mp h)
  exact htable _ (mem_of_lookup_eq_some hlookup) _ hresult t rfl

end CtxThread
