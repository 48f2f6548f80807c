import CtxThread.Proofs.Types.Origin

/-!
# Questions and their answers

A question has an answer if the questions it leads to have. For the type of an expression these are
the types of parts of it, of values bound to names, and one name or one call; for a name the calls
whose results it is bound to; for a call the name it goes by.

## Main definitions

- `Env.Closed`: the index refers to nodes of the package

## Main statements

- `Env.answers_lookupWith`, `Env.answers_callResultWith`, `Env.answers_typeOfWith`: what each
  question needs answers to
- `Env.runs_callResult_of_lookupWith`, `Env.runs_lookup_of_callResultWith`: what each answer has
  asked for
-/

namespace CtxThread

open Code (Tree Site)

open Resolving (Answers Runs answers_pure answers_foldlM)

namespace Env

variable {env : Env} {o : Oracle} {A : List NodeId} {name : String}

/-- The index refers to nodes of the package. -/
def Closed (env : Env) : Prop :=
  ∀ name decl, env.index.globals.lookup name = some decl → decl ∈ env.refs

theorem closed_ofPackage (p : Package) : (ofPackage p).Closed :=
  fun _ _ h => mem_refs_of_lookup_globals h

/-- The oracle answers questions about types. -/
def AnswersTypes (env : Env) (o : Oracle) (A : List NodeId) : Prop :=
  ∀ r ∈ env.refs, Answers A (o.typeOf r)

/-! ## Values -/

theorem mem_refs_of_mem_valueRefs {values : Option Ref} (hvalues : ∀ v ∈ values, v ∈ env.refs)
    {e : Ref} (he : e ∈ valueRefs values) : e ∈ env.refs := by
  cases values with
  | none => cases he
  | some v => exact mem_refs_of_mem_listItems (hvalues v rfl) he

theorem mem_callRefs_of_valueCall? {count : Nat} {values : Option Ref} {call : Ref}
    (hvalues : ∀ v ∈ values, v ∈ env.refs) (h : valueCall? count values = some call) :
    call ∈ env.callRefs := by
  obtain ⟨_, heq, hkind⟩ := valueCall?_eq_some h
  have hmem : call ∈ env.refs := mem_refs_of_mem_valueRefs hvalues (by rw [heq]; simp)
  exact List.mem_filter.mpr ⟨hmem, decide_eq_true hkind⟩

theorem answers_bindValues (htypes : env.AnswersTypes o A) {i count : Nat} {values : Option Ref}
    (hvalues : ∀ v ∈ values, v ∈ env.refs)
    (hcall : ∀ call ∈ valueCall? count values, Answers A (o.callResult call i)) :
    Answers A (o.bindValues i count values) := by
  have hmem := fun e => mem_refs_of_mem_valueRefs hvalues (e := e)
  cases h : valueCall? count values with
  | some call =>
    rw [Oracle.bindValues_of_call o h]
    exact (hcall call h).map _
  | none =>
    -- without such a call only types are asked for
    unfold valueCall? at h
    unfold Oracle.bindValues
    change ∀ e ∈ (values.map fun v => v.site.listItems.map v.move).getD [], _ at hmem
    unfold valueRefs at h
    generalize (values.map fun v => v.site.listItems.map v.move).getD [] = exprs at h hmem ⊢
    dsimp only
    split
    · split
      · rename_i e he
        exact (htypes e (hmem e (List.mem_of_getElem? he))).map _
      · exact answers_pure _
    · rename_i hlength
      rw [if_neg hlength] at h
      split
      · rename_i e
        dsimp only at h
        split
        · rename_i hkind
          rw [if_pos hkind] at h
          cases h
        · split
          · exact (htypes e (hmem e List.mem_cons_self)).map _
          · exact answers_pure _
      · exact answers_pure _

/-! ## Declarations -/

theorem mem_shortCalls {decl call : Ref} :
    call ∈ shortCalls decl name ↔ decl.leftNames.contains (some name) = true ∧
      valueCall? decl.leftNames.length (decl.child? .right) = some call := by
  unfold shortCalls
  split
  · rename_i h
    rw [Option.mem_toList]
    exact ⟨fun hcall => ⟨h, hcall⟩, And.right⟩
  · rename_i h
    exact ⟨fun hcall => absurd hcall List.not_mem_nil, fun hcall => absurd hcall.1 h⟩

theorem mem_specCalls {spec call : Ref} :
    call ∈ specCalls name spec ↔ spec.node.names.contains name = true ∧
      spec.node.child? .type = none ∧
        valueCall? spec.node.names.length (spec.child? .value) = some call := by
  unfold specCalls
  split
  · rename_i h
    rw [Bool.and_eq_true, Option.isNone_iff_eq_none] at h
    rw [Option.mem_toList]
    exact ⟨fun hcall => ⟨h.1, h.2, hcall⟩, fun hcall => hcall.2.2⟩
  · rename_i h
    rw [Bool.and_eq_true, Option.isNone_iff_eq_none] at h
    exact ⟨fun hcall => absurd hcall List.not_mem_nil,
      fun hcall => absurd ⟨hcall.1, hcall.2.1⟩ h⟩

theorem mem_refs_of_shortInitializer? {clause init : Ref} (hclause : clause ∈ env.refs)
    (h : clause.shortInitializer? = some init) : init ∈ env.refs :=
  mem_refs_of_child? hclause (Option.eq_some_of_filter_eq_some h)

theorem answers_bindShort (htypes : env.AnswersTypes o A) {decl : Ref} (hdecl : decl ∈ env.refs)
    (hcalls : ∀ call ∈ shortCalls decl name, ∀ i, Answers A (o.callResult call i)) :
    Answers A (o.bindShort decl name) := by
  rw [Oracle.bindShort_eq]
  split
  · rename_i hname
    apply Answers.map
    apply answers_bindValues htypes
    · exact fun v hv => mem_refs_of_child? hdecl hv
    · exact fun call hcall => hcalls call (mem_shortCalls.mpr ⟨hname, hcall⟩) _
  · exact answers_pure none

theorem answers_bindSpec (htypes : env.AnswersTypes o A) {spec : Ref} (hspec : spec ∈ env.refs)
    (hcalls : ∀ call ∈ specCalls name spec, ∀ i, Answers A (o.callResult call i))
    (found : Option Binding) : Answers A (env.bindSpec o name found spec) := by
  unfold bindSpec
  dsimp only
  split
  · rename_i hname
    split
    · exact answers_pure _
    · rename_i htype
      refine Answers.map (answers_bindValues htypes ?_ ?_) some
      · exact fun v hv => mem_refs_of_child? hspec hv
      · exact fun call hcall => hcalls call (mem_specCalls.mpr ⟨hname, htype, hcall⟩) _
  · exact answers_pure found

/-- What a statement binds a name to is known if the calls it asks for are answered. -/
theorem answers_bindingIn (htypes : env.AnswersTypes o A) {stmt : Ref} (hstmt : stmt ∈ env.refs)
    (hcalls : ∀ call ∈ callsIn stmt name, ∀ i, Answers A (o.callResult call i)) :
    Answers A (env.bindingIn o stmt name) := by
  cases hbinds : stmt.binds name with
  | false =>
    rw [bindingIn_of_not_binds hbinds]
    exact answers_pure none
  | true =>
    unfold callsIn at hcalls
    cases Ref.binds_cases hbinds with
    | parameter hkind hname =>
      rw [bindingIn, hkind]
      exact answers_pure _
    | short hkind hname =>
      rw [hkind] at hcalls
      rw [bindingIn, hkind]
      exact answers_bindShort htypes hstmt hcalls
    | spec hkind _ _ =>
      rw [hkind] at hcalls
      rw [bindingIn, hkind]
      apply answers_foldlM
      intro found spec hspec
      apply answers_bindSpec htypes (mem_refs_of_mem_varSpecs hstmt hspec)
      exact fun call hcall => hcalls call (List.mem_flatMap.mpr ⟨spec, hspec, hcall⟩)
    | loop hkind hinit hname =>
      rw [hkind] at hcalls
      rw [bindingIn_forClause hkind, hinit]
      apply answers_bindShort htypes (mem_refs_of_shortInitializer? hstmt hinit)
      intro call hcall
      exact hcalls call (by simpa [hinit] using hcall)
    | range hkind hname =>
      rw [bindingIn, hkind]
      dsimp only
      rw [Oracle.bindRange_eq, if_pos hname]
      split
      · split
        · rename_i right hright
          exact (htypes right (mem_refs_of_child? hstmt hright)).map _
        · exact answers_pure _
      · exact answers_pure _

theorem runs_callResult_of_bindShort {decl call : Ref} (hcall : call ∈ shortCalls decl name)
    (h : Runs (o.bindShort decl name)) : ∃ i, Runs (o.callResult call i) := by
  obtain ⟨hname, hvalues⟩ := mem_shortCalls.mp hcall
  rw [Oracle.bindShort_eq, if_pos hname, Oracle.bindValues_of_call o hvalues] at h
  exact ⟨_, h.of_map.of_map⟩

theorem runs_callResult_of_bindSpec {spec call : Ref} (hcall : call ∈ specCalls name spec)
    {found : Option Binding} (h : Runs (env.bindSpec o name found spec)) :
    ∃ i, Runs (o.callResult call i) := by
  obtain ⟨hname, htype, hvalues⟩ := mem_specCalls.mp hcall
  unfold bindSpec at h
  rw [if_pos hname, htype] at h
  dsimp only at h
  rw [Oracle.bindValues_of_call o hvalues] at h
  exact ⟨_, h.of_bind.1.of_map⟩

/-- To bind a name, all calls of the statement that it may be bound to are asked for a result. -/
theorem runs_callResult_of_bindingIn {stmt call : Ref} (hcall : call ∈ callsIn stmt name)
    (h : Runs (env.bindingIn o stmt name)) : ∃ i, Runs (o.callResult call i) := by
  unfold callsIn at hcall
  split at hcall
  case h_1 hkind =>
    rw [bindingIn, hkind] at h
    exact runs_callResult_of_bindShort hcall h
  case h_2 hkind =>
    rw [bindingIn, hkind] at h
    obtain ⟨spec, hspec, hcall⟩ := List.mem_flatMap.mp hcall
    obtain ⟨found, hrun⟩ := Runs.of_foldlM h hspec
    exact runs_callResult_of_bindSpec hcall hrun
  case h_3 hkind =>
    rw [bindingIn_forClause hkind] at h
    cases hinit : stmt.shortInitializer? with
    | none => rw [hinit] at hcall; cases hcall
    | some init =>
      rw [hinit] at h hcall
      exact runs_callResult_of_bindShort (by simpa using hcall) h
  case h_4 => cases hcall

/-! ## Names -/

theorem mem_refs_of_climbOrigin {file : Nat} {inner : Tree} {around : List Tree}
    (hr : ⟨file, ⟨inner, around⟩⟩ ∈ env.refs) {stmt : Ref}
    (h : env.climbOrigin file name inner around = some (.declared stmt)) : stmt ∈ env.refs := by
  induction around generalizing inner with
  | nil => cases h
  | cons outer around ih =>
    have hout := mem_refs_outer hr
    rw [climbOrigin] at h
    dsimp only at h
    split at h
    · rename_i t ht
      have hmem := List.mem_of_find?_eq_some ht
      cases h
      exact mem_refs_enter hout (List.mem_filter.mp (List.mem_reverse.mp hmem)).1
    · split at h
      · cases h
      · exact ih hout h

theorem mem_refs_of_origin (hclosed : env.Closed) {ident stmt : Ref} (hident : ident ∈ env.refs)
    (h : env.origin ident = some (.declared stmt)) : stmt ∈ env.refs := by
  rw [origin, Option.or_eq_some_iff] at h
  rcases h with h | ⟨_, h⟩
  · exact mem_refs_of_climbOrigin hident h
  · obtain ⟨decl, hdecl, heq⟩ := Option.map_eq_some_iff.mp h
    cases heq
    exact hclosed _ _ hdecl

/-- A name is found if the calls it is bound to are answered. -/
theorem answers_lookupWith (hclosed : env.Closed) (htypes : env.AnswersTypes o A) {ident : Ref}
    (hident : ident ∈ env.refs)
    (hcalls : ∀ call ∈ env.lookupCalls ident, ∀ i, Answers A (o.callResult call i)) :
    Answers A (env.lookupWith o ident) := by
  rw [lookupWith_eq]
  unfold lookupCalls at hcalls
  cases horigin : env.origin ident with
  | none => exact answers_pure none
  | some source =>
    cases source with
    | inCase b => exact answers_pure (some b)
    | declared stmt =>
      rw [horigin] at hcalls
      exact answers_bindingIn htypes (mem_refs_of_origin hclosed hident horigin) hcalls

theorem runs_callResult_of_lookupWith {ident call : Ref} (hcall : call ∈ env.lookupCalls ident)
    (h : Runs (env.lookupWith o ident)) : ∃ i, Runs (o.callResult call i) := by
  rw [lookupWith_eq] at h
  unfold lookupCalls at hcall
  split at hcall
  · rename_i stmt horigin
    rw [horigin] at h
    exact runs_callResult_of_bindingIn hcall h
  · cases hcall

theorem mem_callRefs_of_mem_callsIn {stmt call : Ref} (hstmt : stmt ∈ env.refs)
    (hcall : call ∈ callsIn stmt name) : call ∈ env.callRefs := by
  have hshort : ∀ {decl : Ref}, decl ∈ env.refs → call ∈ shortCalls decl name →
      call ∈ env.callRefs := fun hdecl h =>
    mem_callRefs_of_valueCall? (fun _ hv => mem_refs_of_child? hdecl hv) (mem_shortCalls.mp h).2
  unfold callsIn at hcall
  split at hcall
  · exact hshort hstmt hcall
  · obtain ⟨spec, hspec, hcall⟩ := List.mem_flatMap.mp hcall
    have hmem := mem_refs_of_mem_varSpecs hstmt hspec
    exact mem_callRefs_of_valueCall? (fun _ hv => mem_refs_of_child? hmem hv)
      (mem_specCalls.mp hcall).2.2
  · obtain ⟨init, hinit, hcall⟩ := List.mem_flatMap.mp hcall
    exact hshort (mem_refs_of_shortInitializer? hstmt (Option.mem_toList.mp hinit)) hcall
  · cases hcall

theorem mem_callRefs_of_mem_lookupCalls (hclosed : env.Closed) {ident call : Ref}
    (hident : ident ∈ env.refs) (hcall : call ∈ env.lookupCalls ident) :
    call ∈ env.callRefs := by
  unfold lookupCalls at hcall
  split at hcall
  · rename_i stmt horigin
    exact mem_callRefs_of_mem_callsIn (mem_refs_of_origin hclosed hident horigin) hcall
  · cases hcall

/-! ## Calls -/

/-- Whether a selector selects from a package is found by looking up its operand, where this is
the name of an import. -/
theorem answers_selectsPackage {operand : Ref}
    (hlookup : operand.node.kind = .identifier →
      (env.importPath? operand.file operand.node.text).isSome = true →
      Answers A (o.lookup operand)) : Answers A (env.selectsPackage o operand) := by
  unfold selectsPackage
  split
  · rename_i hkind
    unfold isPackageNameWith
    split
    · rename_i himport
      exact (hlookup hkind himport).map _
    · exact answers_pure false
  · exact answers_pure false

theorem runs_lookup_of_selectsPackage {operand : Ref} (hkind : operand.node.kind = .identifier)
    (himport : (env.importPath? operand.file operand.node.text).isSome = true)
    (h : Runs (env.selectsPackage o operand)) : Runs (o.lookup operand) := by
  unfold selectsPackage isPackageNameWith at h
  rw [if_pos hkind, if_pos himport] at h
  exact h.of_map

/-- The name that a call goes by. -/
theorem callee?_eq_some {call y : Ref} (h : env.callee? call = some y) :
    y.node.kind = .identifier ∧ ∃ fn, call.child? .function = some fn ∧
      (fn = y ∨ fn.node.kind = .selectorExpression ∧ fn.child? .operand = some y ∧
        (fn.child? .field).isSome = true ∧
        (env.importPath? y.file y.node.text).isSome = true) := by
  obtain ⟨fn, hfn, h⟩ := Option.bind_eq_some_iff.mp h
  split at h
  · rename_i hkind
    cases h
    exact ⟨hkind, _, hfn, .inl rfl⟩
  · rename_i hkind
    obtain ⟨hoperand, hy⟩ := Option.filter_eq_some_iff.mp h
    simp only [Bool.and_eq_true, decide_eq_true_eq] at hy
    exact ⟨hy.1.2, fn, hfn, .inr ⟨hkind, hoperand, hy.1.1, hy.2⟩⟩
  · cases h

theorem mem_refs_of_callee? {call y : Ref} (hcall : call ∈ env.refs)
    (h : env.callee? call = some y) : y ∈ env.refs := by
  obtain ⟨_, fn, hfn, rfl | ⟨_, hoperand, _⟩⟩ := callee?_eq_some h
  · exact mem_refs_of_child? hcall hfn
  · exact mem_refs_of_child? (mem_refs_of_child? hcall hfn) hoperand

/-- The result of a call is known if the name it goes by is found. -/
theorem answers_callResultWith (htypes : env.AnswersTypes o A) {call : Ref}
    (hcall : call ∈ env.refs) (hcallee : ∀ y, env.callee? call = some y → Answers A (o.lookup y))
    (i : Nat) : Answers A (env.callResultWith o call i) := by
  unfold callResultWith
  split
  · exact answers_pure none
  · rename_i fn hfn
    split
    · rename_i hkind
      have hlookup : Answers A (o.lookup fn) := hcallee fn (by simp [callee?, hfn, hkind])
      -- after the name is found, only declarations are consulted
      unfold namedCallResult
      apply hlookup.bind
      intro found
      repeat (first | exact answers_pure _ | split)
    · rename_i hkind
      unfold selectedCallResult
      split
      · rename_i operand field hoperand hfield
        apply Answers.bind
        · apply answers_selectsPackage
          intro hident himport
          exact hcallee operand (by
            simp [callee?, hfn, hkind, hoperand, hfield, hident, himport, Option.filter])
        · intro selects
          split
          · exact answers_pure _
          · apply Answers.bind
            · exact htypes operand (mem_refs_of_child? (mem_refs_of_child? hcall hfn) hoperand)
            · intro type
              repeat (first | exact answers_pure _ | split)
      · exact answers_pure none
    · exact answers_pure none

theorem runs_lookup_of_callResultWith {call y : Ref} (hy : env.callee? call = some y) {i : Nat}
    (h : Runs (env.callResultWith o call i)) : Runs (o.lookup y) := by
  obtain ⟨hident, fn, hfn, hcase⟩ := callee?_eq_some hy
  unfold callResultWith at h
  rw [hfn] at h
  dsimp only at h
  rcases hcase with rfl | ⟨hkind, hoperand, hfield, himport⟩
  · rw [hident] at h
    exact h.of_bind.1
  · rw [hkind] at h
    obtain ⟨field, hfield⟩ := Option.isSome_iff_exists.mp hfield
    unfold selectedCallResult at h
    rw [hoperand, hfield] at h
    exact runs_lookup_of_selectsPackage hident himport h.of_bind.1

/-! ## Types -/

theorem answers_typeOfChild (htypes : env.AnswersTypes o A) {child : Option Ref}
    (hchild : ∀ r ∈ child, r ∈ env.refs) : Answers A (typeOfChild o child) := by
  cases child with
  | none => exact answers_pure none
  | some r => exact htypes r (hchild r rfl)

theorem answers_selectorType (htypes : env.AnswersTypes o A) {sel : Ref} (hsel : sel ∈ env.refs)
    (hlookup : ∀ r ∈ env.refs, Answers A (o.lookup r)) : Answers A (env.selectorType o sel) := by
  unfold selectorType
  split
  · rename_i operand field hoperand hfield
    have hmem := mem_refs_of_child? hsel hoperand
    apply Answers.bind (answers_selectsPackage fun _ _ => hlookup operand hmem)
    intro selects
    split
    · exact answers_pure none
    · apply Answers.bind (htypes operand hmem)
      intro type
      repeat (first | exact answers_pure _ | split)
  · exact answers_pure none

/-- The type of an expression is found if all questions about nodes of the package are answered. -/
theorem answers_freshType (htypes : env.AnswersTypes o A) {expr : Ref} (hexpr : expr ∈ env.refs)
    (hlookup : ∀ r ∈ env.refs, Answers A (o.lookup r))
    (hcall : ∀ r ∈ env.callRefs, ∀ i, Answers A (o.callResult r i)) :
    Answers A (env.freshType o expr) := by
  have hoperand : Answers A (typeOfChild o (expr.child? .operand)) :=
    answers_typeOfChild htypes fun _ h => mem_refs_of_child? hexpr h
  unfold freshType
  split
  · exact (hlookup expr hexpr).bind fun _ => answers_pure _
  · exact answers_typeOfChild htypes fun _ h => mem_refs_of_firstItem? hexpr h
  · exact answers_selectorType htypes hexpr hlookup
  · rename_i hkind
    exact hcall expr (List.mem_filter.mpr ⟨hexpr, decide_eq_true hkind⟩) 0
  · exact answers_pure _
  · exact hoperand.bind fun _ => answers_pure _
  · exact hoperand.bind fun _ => answers_pure _
  · exact answers_pure _
  · split
    · rename_i operand _ hoperand
      split
      · have hmem := mem_refs_of_child? hexpr hoperand
        exact (htypes operand hmem).bind fun _ => answers_pure _
      · exact answers_pure none
    · exact answers_pure none
  · exact answers_pure none

theorem typeOfWith_of_answered {expr : Ref} {m : Memo} {answer : Option Ty}
    (h : m.answers.lookup expr.id = some answer) :
    env.typeOfWith o expr m = some (answer, m) := by
  rw [typeOfWith, Resolving.get_bind, h]
  rfl

theorem typeOfWith_of_active {expr : Ref} {m : Memo} (h : m.answers.lookup expr.id = none)
    (hactive : expr.id ∈ m.active) : env.typeOfWith o expr m = some (none, m) := by
  rw [typeOfWith, Resolving.get_bind, h]
  dsimp only
  rw [if_pos (List.contains_iff_mem.mpr hactive)]
  rfl

/-- An expression asked for the first time is looked into, and is being looked for meanwhile. -/
theorem typeOfWith_of_fresh {expr : Ref} {m : Memo} (h : m.answers.lookup expr.id = none)
    (hactive : expr.id ∉ m.active) :
    env.typeOfWith o expr m =
      (env.freshType o expr { m with active := expr.id :: m.active }).map fun r =>
        (r.1, ⟨(expr.id, r.1) :: r.2.answers, r.2.active.erase expr.id⟩) := by
  rw [typeOfWith, Resolving.get_bind, h]
  dsimp only
  rw [if_neg (fun hmem => hactive (List.contains_iff_mem.mp hmem))]
  change (env.freshType o expr { m with active := expr.id :: m.active }).bind _ = _
  cases env.freshType o expr { m with active := expr.id :: m.active } with
  | none => rfl
  | some r => rfl

/-- The type of an expression is found if it is being looked for already, or else if it is found
while it is being looked for. -/
theorem answers_typeOfWith {expr : Ref}
    (h : expr.id ∉ A → Answers (expr.id :: A) (env.freshType o expr)) :
    Answers A (env.typeOfWith o expr) := by
  rintro m rfl
  cases hfound : m.answers.lookup expr.id with
  | some answer => exact ⟨answer, m, typeOfWith_of_answered hfound, rfl⟩
  | none =>
    by_cases hactive : expr.id ∈ m.active
    · exact ⟨none, m, typeOfWith_of_active hfound hactive, rfl⟩
    · obtain ⟨answer, m', hrun, hm'⟩ :=
        h hactive { m with active := expr.id :: m.active } rfl
      refine ⟨answer, ⟨(expr.id, answer) :: m'.answers, m'.active.erase expr.id⟩, ?_, ?_⟩
      · rw [typeOfWith_of_fresh hfound hactive, hrun]
        rfl
      · dsimp only
        rw [hm', List.erase_cons_head]

theorem runs_lookup_of_typeOfWith {ident : Ref} (hkind : ident.node.kind = .identifier)
    (h : (env.typeOfWith o ident {}).isSome = true) : Runs (o.lookup ident) := by
  rw [typeOfWith_of_fresh rfl List.not_mem_nil, Option.isSome_map] at h
  have hrun : Runs (env.freshType o ident) := ⟨_, h⟩
  unfold freshType at hrun
  rw [hkind] at hrun
  exact hrun.of_bind.1

end Env

end CtxThread
