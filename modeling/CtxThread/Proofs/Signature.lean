import CtxThread.Proofs.Code.Parameters
import CtxThread.Proofs.Edit.Order
import CtxThread.Proofs.Update

/-!
# Signatures that gain a context

In a signature either all parameters are named or none is, and no name stands twice. A declaration
that gains a context is told by the first of its names only, so the other names and the way its
parameters are written decide whether the signature stays valid.

## Main definitions

- `Signature`: the names that a function declares in front of its body
- `Signature.Uniform`, `Signature.Distinct`: what makes a signature valid
- `Prepended`: a list of parameters with the context parameter in front

## Main statements

- `exists_prepended`: the one edit that is planned, and how the list reads then
- `augmentParams_valid_iff`: which signatures stay valid
-/

namespace CtxThread

open Code (Tree Role listAt? contextDecl)

@[simp] theorem Code.Tree.names_shift (t : Tree) (d : Nat) : (t.shift d).names = t.names := by
  simp [Tree.names, Tree.childrenIn, List.filter_map, Function.comp_def, Tree.text]

/-! ## Signatures -/

/-- The names that a function declares in front of its body, declaration by declaration. A
declaration that only has a type names nothing. -/
structure Signature where
  receiver : List (List String)
  params : List (List String)
  results : List (List String)

namespace Signature

/-- The names in one of the lists of parameters of a function. -/
def namesIn (func : Tree) (r : Role) : List (List String) :=
  match func.child? r with
  | none => []
  | some list => if list.kind = .parameterList then list.paramDecls.map Tree.names else []

/-- The signature of a function. -/
def of (func : Tree) : Signature :=
  ⟨namesIn func .receiver, namesIn func .parameters, namesIn func .result⟩

/-- Either all parameters are named, or none is. -/
def Uniform (s : Signature) : Prop := (∀ ns ∈ s.params, ns ≠ []) ∨ ∀ ns ∈ s.params, ns = []

/-- All names, in their order. -/
def names (s : Signature) : List String :=
  s.receiver.flatten ++ s.params.flatten ++ s.results.flatten

/-- No name stands twice, but for the blank one. -/
def Distinct (s : Signature) : Prop := (s.names.filter (· ≠ "_")).Nodup

/-- The names but for that of the first parameter. -/
def others (s : Signature) : List String :=
  s.receiver.flatten ++ s.params.flatten.tail ++ s.results.flatten

/-- The signature with the parameters of another list. -/
def withParams (s : Signature) (list : Tree) : Signature :=
  { s with params := list.paramDecls.map Tree.names }

/-- The signature with the context in front of its parameters. -/
def withContext (s : Signature) : Signature := { s with params := [Naming.context] :: s.params }

instance (s : Signature) : Decidable s.Uniform := inferInstanceAs (Decidable (_ ∨ _))

instance (s : Signature) : Decidable s.Distinct := inferInstanceAs (Decidable (List.Nodup _))

variable {s : Signature}

theorem of_params {func list : Tree} (hlist : func.child? .parameters = some list)
    (hk : list.kind = .parameterList) : (of func).params = list.paramDecls.map Tree.names := by
  simp only [of, namesIn, hlist, hk, if_true]

/-- Behind a named parameter all parameters have to be named. -/
theorem uniform_withContext_iff : s.withContext.Uniform ↔ ∀ ns ∈ s.params, ns ≠ [] := by
  simp [Uniform, withContext]

/-- The context may not be named in the signature already. -/
theorem distinct_withContext_iff (h : s.Distinct) :
    s.withContext.Distinct ↔ Naming.context ∉ s.names := by
  have hne : Naming.context ≠ "_" := by decide
  have hperm : s.withContext.names.Perm (Naming.context :: s.names) := by
    simp only [withContext, names, List.flatten_cons, List.append_assoc, List.singleton_append]
    exact List.perm_middle
  have hfilter : (Naming.context :: s.names).filter (· ≠ "_") =
      Naming.context :: s.names.filter (· ≠ "_") :=
    List.filter_cons_of_pos (by simpa using hne)
  have hmem : Naming.context ∈ s.names.filter (· ≠ "_") ↔ Naming.context ∈ s.names := by
    simp [List.mem_filter, hne]
  rw [Distinct, (hperm.filter _).nodup_iff, hfilter, List.nodup_cons, hmem]
  exact and_iff_left h

/-- A name that does not come first is among the other names, if the signature has it at all. -/
theorem mem_others_iff {name : String} (h : s.Uniform)
    (hfirst : (s.params.head?.bind (·.head?)) ≠ some name) :
    name ∈ s.others ↔ name ∈ s.names := by
  have hparams : name ∈ s.params.flatten.tail ↔ name ∈ s.params.flatten := by
    rcases h with hnamed | hunnamed
    · cases hps : s.params with
      | nil => rfl
      | cons ns rest =>
        rw [hps] at hnamed hfirst
        obtain ⟨n, ns, rfl⟩ := List.exists_cons_of_ne_nil (hnamed ns List.mem_cons_self)
        have hne : name ≠ n := by
          rintro rfl
          exact hfirst rfl
        simp [hne]
    · rw [List.flatten_eq_nil_iff.mpr hunnamed, List.tail_nil]
  simp only [others, names, List.mem_append, hparams]

end Signature

/-! ## Lists of parameters that gain a context -/

/-- The list of parameters has been given the context parameter: in the text that comes right
behind the opening parenthesis, separated by a comma from what follows, if anything does. The list
is read at its place before and after. -/
structure Prepended (src out : Bytes) (list list' : Tree) : Prop where
  before : listAt? src list.start = some { list with role := none }
  text : ∃ sep ∈ ["", ",", ", "], (sep = "" ↔ list.paramDecls = []) ∧
    out = src.take (list.start + 1) ++ Bytes.ofString (Naming.contextParameter ++ sep) ++
      src.drop (list.start + 1)
  after : listAt? out list.start = some list'
  decls : list'.paramDecls = contextDecl (list.start + 1) ::
    list.paramDecls.map (Tree.shift (out.length - src.length))

/-- A single insertion. -/
theorem Edit.splice_insertion {src : Bytes} {pos : Nat} (hpos : pos ≤ src.length) (text : String) :
    splice src [insertion pos text] =
      .ok (src.take pos ++ Bytes.ofString text ++ src.drop pos) := by
  have hrest : weave src pos [] = .ok (src.drop pos) := by
    rw [weave, Bytes.suffix_natCast hpos]
  have hweave : weave src 0 [insertion pos text] =
      .ok (src.between 0 pos ++ Bytes.ofString text ++ src.drop pos) :=
    weave_cons_ok (Int.natCast_nonneg pos) hrest
  rw [splice]
  change weave src 0 [insertion pos text] = _
  rw [hweave, Bytes.between_zero hpos]

theorem Prepended.withParams_eq {src out : Bytes} {func list list' : Tree}
    (h : Prepended src out list list') (hlist : func.child? .parameters = some list)
    (hk : list.kind = .parameterList) :
    (Signature.of func).withParams list' = (Signature.of func).withContext := by
  have hnames : list'.paramDecls.map Tree.names =
      [Naming.context] :: list.paramDecls.map Tree.names := by
    rw [h.decls, List.map_cons, List.map_map]
    exact congrArg₂ _ rfl (List.map_congr_left fun d _ => d.names_shift _)
  rw [Signature.withParams, hnames, Signature.withContext, Signature.of_params hlist hk]

/-- The parameters of a declaration gain the context by a single edit. -/
theorem exists_prepended {path : Path} {src : Bytes} {f : SourceFile} {decl : Tree}
    (hf : SourceFile.read? path src = some f) (hdecl : decl ∈ f.root.walk)
    (hk : decl.kind.isFuncDecl = true) (p : Plan) :
    ∃ list e out list', decl.child? .parameters = some list ∧ list.kind = .parameterList ∧
      FileUpdate.augmentParams f.src decl p = (true, { p with plain := p.plain ++ [e] }) ∧
      Edit.splice f.src [e] = .ok out ∧ Prepended f.src out list list' := by
  obtain ⟨root, hroot, rfl⟩ := Option.map_eq_some_iff.mp hf
  dsimp only at hdecl ⊢
  have hlaid := (Code.parse?_laid hroot).of_mem_walk hdecl
  obtain ⟨list, hlist⟩ := hlaid.exists_parameters hk
  obtain ⟨hlistLaid, hadmits⟩ := child_laid hlaid hlist
  have hkind : list.kind = .parameterList := by simpa [Role.admits] using hadmits
  have hmem : list ∈ root.walk := by
    refine Tree.mem_walk_trans hdecl (Tree.mem_walk_iff.mpr (.inr ?_))
    exact ⟨list, (Tree.mem_of_child? hlist).1, Tree.mem_walk_self list⟩
  have hlt : list.start < src.length :=
    (List.getElem?_eq_some_iff.mp (hlistLaid.opens_paren (.inl hkind))).1
  obtain ⟨sep, he, hsep⟩ := leadingItem_eq src list list.paramDecls Naming.contextParameter
  replace hsep := hsep.cases
  let out := src.take (list.start + 1) ++ Bytes.ofString (Naming.contextParameter ++ sep) ++
    src.drop (list.start + 1)
  have hbytes : Bytes.ofString sep = [] ∧ list.paramDecls = [] ∨
      (Bytes.ofString sep = [0x2C] ∨ Bytes.ofString sep = [0x2C, 0x20]) ∧
        list.paramDecls ≠ [] := by
    rcases hsep with ⟨rfl, hnone⟩ | ⟨rfl | rfl, hsome⟩
    · exact .inl ⟨rfl, hnone⟩
    · exact .inr ⟨.inl rfl, hsome⟩
    · exact .inr ⟨.inr rfl, hsome⟩
  obtain ⟨list', hlist', hdecls⟩ := Code.exists_listAt?_prepend hroot hmem hkind hbytes
  have hgrown : out.length - src.length = 19 + (Bytes.ofString sep).length := by
    have hctx : (Bytes.ofString Naming.contextParameter).length = 19 := by decide +kernel
    simp only [out, Bytes.ofString_append, List.length_append, List.length_take, List.length_drop,
      hctx]
    omega
  refine ⟨list, _, out, list', hlist, hkind, ?_, Edit.splice_insertion hlt _, ?_, ?_, ?_, ?_⟩
  · rw [FileUpdate.augmentParams, hlist]
    dsimp only
    rw [he]
    rfl
  · exact Code.listAt?_of_mem_walk hroot hmem hkind
  · refine ⟨sep, ?_, ?_, rfl⟩
    · rcases hsep with ⟨rfl, -⟩ | ⟨rfl | rfl, -⟩ <;> simp
    · rcases hsep with ⟨rfl, hnone⟩ | ⟨rfl | rfl, hsome⟩ <;> simp [*]
  · rw [← hlist']
    simp only [out, Bytes.ofString_append, List.append_assoc]
  · rw [hdecls, hgrown]

/-- A declaration with a valid signature that gains a context has it in front of its parameters. The
parameters are all named then or none is exactly if they were all named before, and `ctx` does not
stand twice exactly if no receiver, result or parameter but the first has been named so. -/
theorem augmentParams_valid_iff {path : Path} {src : Bytes} {f : SourceFile} {decl : Tree}
    {settings : Settings} (hf : SourceFile.read? path src = some f) (hdecl : decl ∈ f.root.walk)
    (hk : decl.kind.isFuncDecl = true) (huniform : (Signature.of decl).Uniform)
    (hdistinct : (Signature.of decl).Distinct)
    (hgains : Handler.gainsContext settings decl = true) (p : Plan) :
    ∃ list e out list', decl.child? .parameters = some list ∧
      FileUpdate.augmentParams f.src decl p = (true, { p with plain := p.plain ++ [e] }) ∧
      Edit.splice f.src [e] = .ok out ∧ Prepended f.src out list list' ∧
      (((Signature.of decl).withParams list').Uniform ↔ ∀ d ∈ list.paramDecls, d.names ≠ []) ∧
      (((Signature.of decl).withParams list').Distinct ↔
        Naming.context ∉ (Signature.of decl).others) := by
  obtain ⟨list, e, out, list', hlist, hkind, hplan, hout, hprepended⟩ :=
    exists_prepended hf hdecl hk p
  have hparams := Signature.of_params hlist hkind
  -- the first name of all is looked at before
  have hfirst : ((Signature.of decl).params.head?.bind (·.head?)) ≠ some Naming.context := by
    have hcontext : Handler.hasContext decl = false := by
      simp only [Handler.gainsContext, Bool.and_eq_true, Bool.not_eq_true', Bool.or_eq_false_iff]
        at hgains
      exact hgains.2.2
    rw [hparams, List.head?_map, Option.bind_map]
    simpa [Handler.hasContext, Tree.firstParamName?, Tree.params, hlist] using hcontext
  refine ⟨list, e, out, list', hlist, hplan, hout, hprepended, ?_, ?_⟩
  · rw [hprepended.withParams_eq hlist hkind, Signature.uniform_withContext_iff, hparams,
      List.forall_mem_map]
  · rw [hprepended.withParams_eq hlist hkind, Signature.distinct_withContext_iff hdistinct,
      Signature.mem_others_iff huniform hfirst]

/-- A method with grouped names, a blank one and a variadic parameter. -/
def groupedParams : Bytes :=
  Bytes.ofString "package a\n\nfunc (s T) f(a, _ int, rest ...string) (n int) \x7b\x7d\n"

/-- The signature of that method stays valid. -/
theorem augmentParams_valid_groupedParams :
    ∃ f decl list e out list', SourceFile.read? ⟨"", ["a.go"]⟩ groupedParams = some f ∧
      decl ∈ f.root.walk ∧ decl.kind.isFuncDecl = true ∧ (Signature.of decl).Uniform ∧
      (Signature.of decl).Distinct ∧ Handler.gainsContext {} decl = true ∧
      decl.child? .parameters = some list ∧
      FileUpdate.augmentParams f.src decl {} = (true, { plain := [e] }) ∧
      Edit.splice f.src [e] = .ok out ∧ Prepended f.src out list list' ∧
      ((Signature.of decl).withParams list').Uniform ∧
      ((Signature.of decl).withParams list').Distinct := by
  have h : ((SourceFile.read? ⟨"", ["a.go"]⟩ groupedParams).bind fun f =>
      (f.root.walk.find? (·.kind.isFuncDecl)).map fun decl =>
        decide ((Signature.of decl).Uniform ∧ (Signature.of decl).Distinct ∧
          Handler.gainsContext {} decl = true ∧
          (∀ list, decl.child? .parameters = some list → ∀ d ∈ list.paramDecls, d.names ≠ []) ∧
          Naming.context ∉ (Signature.of decl).others)) = some true := by
    decide +kernel
  obtain ⟨f, hf, h⟩ := Option.bind_eq_some_iff.mp h
  obtain ⟨decl, hfind, h⟩ := Option.map_eq_some_iff.mp h
  obtain ⟨huniform, hdistinct, hgains, hnamed, hothers⟩ := of_decide_eq_true h
  have hdecl := List.mem_of_find?_eq_some hfind
  have hk : decl.kind.isFuncDecl = true := by simpa using List.find?_some hfind
  obtain ⟨list, e, out, list', hlist, hplan, hout, hprepended, huniform', hdistinct'⟩ :=
    augmentParams_valid_iff hf hdecl hk huniform hdistinct hgains {}
  exact ⟨f, decl, list, e, out, list', hf, hdecl, hk, huniform, hdistinct, hgains, hlist, hplan,
    hout, hprepended, huniform'.mpr (hnamed list hlist), hdistinct'.mpr hothers⟩

/-- Functions with parameters that have no names, with a later parameter, a result and a receiver of
the name `ctx`. -/
def spoiledSignatures : Bytes :=
  Bytes.ofString ("package a\n\nfunc f(int, string) \x7b\x7d\n\nfunc g(n, ctx int) \x7b\x7d\n\n" ++
    "func h() (ctx int) \x7b return 1 \x7d\n\ntype T int\n\nfunc (ctx T) m() \x7b\x7d\n")

/-- Valid signatures that gain a context and do not stay valid. -/
theorem exists_invalid_spoiledSignatures :
    ∃ f decls, SourceFile.read? ⟨"", ["a.go"]⟩ spoiledSignatures = some f ∧
      f.root.walk.filter (·.kind.isFuncDecl) = decls ∧
      decls.map Tree.nameText? = [some "f", some "g", some "h", some "m"] ∧
      ∀ decl ∈ decls, (Signature.of decl).Uniform ∧ (Signature.of decl).Distinct ∧
        Handler.gainsContext {} decl = true ∧
        ∃ list e out list', decl.child? .parameters = some list ∧
          FileUpdate.augmentParams f.src decl {} = (true, { plain := [e] }) ∧
          Edit.splice f.src [e] = .ok out ∧ Prepended f.src out list list' ∧
          ¬ (((Signature.of decl).withParams list').Uniform ∧
            ((Signature.of decl).withParams list').Distinct) := by
  have h : ((SourceFile.read? ⟨"", ["a.go"]⟩ spoiledSignatures).map fun f =>
      let decls := f.root.walk.filter (·.kind.isFuncDecl)
      decide (decls.map Tree.nameText? = [some "f", some "g", some "h", some "m"] ∧
        ∀ decl ∈ decls, (Signature.of decl).Uniform ∧ (Signature.of decl).Distinct ∧
          Handler.gainsContext {} decl = true ∧
          ¬ ((Signature.of decl).withContext.Uniform ∧
            (Signature.of decl).withContext.Distinct))) = some true := by
    decide +kernel
  obtain ⟨f, hf, h⟩ := Option.map_eq_some_iff.mp h
  obtain ⟨hnames, hdecls⟩ := of_decide_eq_true h
  refine ⟨f, _, hf, rfl, hnames, fun decl hdecl => ?_⟩
  obtain ⟨huniform, hdistinct, hgains, hinvalid⟩ := hdecls decl hdecl
  obtain ⟨hmem, hk⟩ := List.mem_filter.mp hdecl
  obtain ⟨list, e, out, list', hlist, hkind, hplan, hout, hprepended⟩ :=
    exists_prepended hf hmem hk {}
  refine ⟨huniform, hdistinct, hgains, list, e, out, list', hlist, hplan, hout, hprepended, ?_⟩
  rw [hprepended.withParams_eq hlist hkind]
  exact hinvalid

end CtxThread
