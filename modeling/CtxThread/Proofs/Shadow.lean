import CtxThread.Proofs.Reached
import CtxThread.Proofs.Types.Circular
import CtxThread.Proofs.Types.Scope

/-!
# Inner declarations hide outer ones

Looking up an identifier finds the declaration that it refers to, whatever declarations of the name
there are further out, unless the declaration is overlooked. So a call on it is directed at another
method only for the type that this declaration gives it.

## Main definitions

- `Env.Declaration.StandsFor`: a declaration gives a name a type
- `Env.BoundBy`: an identifier is bound by a declaration

## Main statements

- `Env.climbOrigin_skip`: places where nothing binds a name are passed over
- `Env.RefersTo.boundBy`: an identifier is bound by the declaration that it refers to
-/

namespace CtxThread

open Code (Tree Site)

namespace Env

variable {env : Env} {file : Nat} {name : String}

/-! ## Climbing -/

/-- Where no node before `inner` binds the name, a case may, or else the nodes further out. -/
theorem climbOrigin_cons_of_unbound {inner outer : Tree} {around : List Tree}
    (h : ∀ t ∈ outer.children, t.start < inner.start →
      (⟨file, ⟨t, outer :: around⟩⟩ : Ref).binds name = false) :
    env.climbOrigin file name inner (outer :: around) =
      match env.caseBinding ⟨file, ⟨outer, around⟩⟩ name with
      | some b => some (.inCase b)
      | none => env.climbOrigin file name outer around := by
  have hnone : (outer.children.filter fun t => t.start < inner.start).reverse.find?
      (fun t => Ref.binds ⟨file, Site.enter ⟨outer, around⟩ t⟩ name) = none := by
    refine List.find?_eq_none.mpr fun t ht => ?_
    obtain ⟨ht, hlt⟩ := List.mem_filter.mp (List.mem_reverse.mp ht)
    rw [Bool.not_eq_true]
    exact h t ht (of_decide_eq_true hlt)
  rw [climbOrigin]
  dsimp only
  split
  · rename_i t ht
    cases hnone.symm.trans ht
  · rfl

/-- Nothing binds the name before `inner` in the node `outer`. -/
def Unbound (env : Env) (file : Nat) (name : String) (inner outer : Tree) (rest : List Tree) :
    Prop :=
  (∀ t ∈ outer.children, t.start < inner.start →
    (⟨file, ⟨t, outer :: rest⟩⟩ : Ref).binds name = false) ∧
  env.caseBinding ⟨file, ⟨outer, rest⟩⟩ name = none

/-- Places where nothing binds the name are passed over. -/
theorem climbOrigin_skip {inner target : Tree} {around tail : List Tree}
    (hsuffix : target :: tail <:+ inner :: around)
    (hunbound : ∀ inner' outer rest, inner' :: outer :: rest <:+ inner :: around →
      tail.length < (outer :: rest).length → env.Unbound file name inner' outer rest) :
    env.climbOrigin file name inner around = env.climbOrigin file name target tail := by
  induction around generalizing inner with
  | nil =>
    have heq : target :: tail = [inner] := by
      rcases List.suffix_cons_iff.mp hsuffix with h | h
      · exact h
      · cases List.suffix_nil.mp h
    cases heq
    rfl
  | cons outer around ih =>
    rcases List.suffix_cons_iff.mp hsuffix with heq | hsuffix
    · cases heq
      rfl
    · have hlength := hsuffix.length_le
      rw [List.length_cons] at hlength
      obtain ⟨hchildren, hcase⟩ := hunbound inner outer around List.suffix_rfl (by omega)
      rw [climbOrigin_cons_of_unbound hchildren, hcase]
      exact ih hsuffix fun inner' outer' rest h => hunbound inner' outer' rest
        (h.trans (List.suffix_cons _ _))

/-- The last node before `inner` that binds the name is what binds it. -/
theorem climbOrigin_of_last {src : Bytes} {inner outer t : Tree} {rest : List Tree}
    (hlaid : outer.Laid src) (ht : t ∈ outer.children) (hlt : t.start < inner.start)
    (hbinds : (⟨file, ⟨t, outer :: rest⟩⟩ : Ref).binds name = true)
    (hlast : ∀ t' ∈ outer.children, t'.start < inner.start →
      (⟨file, ⟨t', outer :: rest⟩⟩ : Ref).binds name = true → t.stop ≤ t'.start → t' = t) :
    env.climbOrigin file name inner (outer :: rest) =
      some (.declared ⟨file, ⟨t, outer :: rest⟩⟩) := by
  have hmem : t ∈ (outer.children.filter fun t => t.start < inner.start).reverse :=
    List.mem_reverse.mpr (List.mem_filter.mpr ⟨ht, decide_eq_true hlt⟩)
  have hpairwise : (outer.children.filter fun t => t.start < inner.start).Pairwise
      fun a b => a.stop ≤ b.start := hlaid.row.pairwise.filter _
  have hfind : (outer.children.filter fun t => t.start < inner.start).reverse.find?
      (fun t => Ref.binds ⟨file, Site.enter ⟨outer, rest⟩ t⟩ name) = some t := by
    cases hfound : (outer.children.filter fun t => t.start < inner.start).reverse.find?
        (fun t => Ref.binds ⟨file, Site.enter ⟨outer, rest⟩ t⟩ name) with
    | none => exact absurd hbinds (List.find?_eq_none.mp hfound t hmem)
    | some t' =>
      obtain ⟨hbinds', before, after, heq, hbefore⟩ := List.find?_eq_some_iff_append.mp hfound
      have hmem' := List.mem_of_find?_eq_some hfound
      obtain ⟨ht', hlt'⟩ := List.mem_filter.mp (List.mem_reverse.mp hmem')
      rw [heq] at hmem
      rcases List.mem_append.mp hmem with h | h
      · have := hbefore t h
        rw [Bool.not_eq_true'] at this
        exact absurd hbinds (by rw [Bool.not_eq_true]; exact this)
      · rcases List.mem_cons.mp h with rfl | h
        · rfl
        · -- the node found comes after `t`
          rw [← List.pairwise_reverse, heq] at hpairwise
          have hstop := (List.pairwise_cons.mp (List.pairwise_append.mp hpairwise).2.1).1 t h
          rw [hlast t' ht' (of_decide_eq_true hlt') hbinds' hstop]
  rw [climbOrigin]
  dsimp only
  split
  · rename_i t' ht'
    cases hfind.symm.trans ht'
    rfl
  · rename_i hnone
    cases hfind.symm.trans hnone

section Refers

variable (hparsed : ∀ f ∈ env.files, Code.parse? f.src = some f.root) {use : Ref}
  (huse : use ∈ env.refs) (hbodies : Site.inBodies use.site.node use.site.around = true)

include hparsed huse hbodies

omit hparsed huse in
/-- A case around the identifier that binds it has an alias in scope. -/
theorem aliasInScope_of_caseBinding {inner outer : Tree} {rest : List Tree} {b : Binding}
    (hlevel : inner :: outer :: rest <:+ use.site.path)
    (h : env.caseBinding (use.move ⟨outer, rest⟩) name = some b) :
    env.AliasInScope use name (use.move ⟨outer, rest⟩) := by
  unfold caseBinding at h
  split at h
  · rename_i hkind
    refine ⟨rfl, hkind, by rw [h]; rfl, inner, ?_, hlevel⟩
    have hbody := Site.inBody_of_suffix hbodies hlevel
    change outer.kind = _ ∨ outer.kind = _ at hkind
    rcases hkind with hkind | hkind
    all_goals
      rw [Site.inBody, hkind] at hbody
      exact of_decide_eq_true hbody
  · cases h

/-- Nothing binds the identifier further in than the declaration that it refers to. -/
theorem RefersTo.unbound_node {decl : Ref} {depth : Nat} (h : env.RefersTo use (.node decl) depth)
    {inner t outer : Tree} {rest : List Tree}
    (hseen : env.SeenAt use use.node.text decl inner t outer rest) {inner' outer' : Tree}
    {rest' : List Tree} (hlevel : inner' :: outer' :: rest' <:+ use.site.path)
    (hlength : (outer :: rest).length < (outer' :: rest').length) :
    env.Unbound use.file use.node.text inner' outer' rest' := by
  obtain ⟨hscopes, hnearest⟩ := h
  cases hscopes with
  | node hscope =>
    have houter' : outer' :: rest' <:+ use.site.path := (List.suffix_cons _ _).trans hlevel
    have hinside : inner :: outer :: rest <:+ outer' :: rest' :=
      List.suffix_of_suffix_length_le hseen.level houter' hlength
    have houter : outer :: rest <:+ outer' :: rest' := (List.suffix_cons _ _).trans hinside
    have hblock := dropWhile_suffix_dropWhile (p := (!·.kind.isBlock)) houter
    rw [← hseen.block] at hblock
    constructor
    · intro t' ht' hlt'
      by_contra hbinds
      rw [Bool.not_eq_false] at hbinds
      have hne : (outer' :: rest').dropWhile (!·.kind.isBlock) ≠ [] := by
        intro hnil
        rw [hnil] at hblock
        exact hscope.block.1 (List.suffix_nil.mp hblock)
      obtain ⟨decl', hscope', hholds, hblock'⟩ :=
        inScope_of_binds hparsed huse hbodies hlevel ht' hlt' hbinds hne
      have hsuffix : inner :: outer :: rest <:+ decl'.site.path :=
        (hinside.trans (List.suffix_cons _ _)).trans hholds
      rcases hnearest _ _ (.node hscope') with heq | hdepth | ⟨_, hstart⟩
      · -- the declaration would hold both `t` and the node after it
        cases heq
        have heq := suffix_of_suffix_length_eq hseen.holds hsuffix rfl
        have hbefore := hseen.before
        rw [(List.cons.inj heq).1] at hbefore
        exact absurd hbefore (lt_irrefl _)
      · rw [hblock'] at hdepth
        have := hblock.length_le
        omega
      · have houterMem : use.move ⟨outer, rest⟩ ∈ env.refs :=
          mem_refs_of_suffix huse (houter.trans houter')
        have hinner := mem_children_of_suffix huse hseen.level
        have hstop := stop_le_start hparsed houterMem hseen.child hinner hseen.before
        have hdecl := (span_of_suffix hparsed hscope.mem hseen.holds).2
        have hdecl' := (span_of_suffix hparsed hscope'.mem hsuffix).1
        have hspan := start_le_stop_of_mem_refs hparsed hscope.mem
        change decl'.node.start < decl.node.start at hstart
        omega
    · cases hcase : env.caseBinding ⟨use.file, ⟨outer', rest'⟩⟩ use.node.text with
      | none => rfl
      | some b =>
        have halias := aliasInScope_of_caseBinding hbodies hlevel hcase
        have hle : decl.site.block.length ≤ (outer :: rest).length := by
          rw [hseen.block]
          exact (List.dropWhile_suffix _).length_le
        have hpath : (use.move ⟨outer', rest'⟩).site.path.length = (outer' :: rest').length := rfl
        rcases hnearest _ _ (.inCase halias) with heq | hdepth | ⟨hdepth, _⟩
        · cases heq
        · omega
        · omega

theorem RefersTo.climbOrigin_node {decl : Ref} {depth : Nat}
    (h : env.RefersTo use (.node decl) depth) {inner t outer : Tree} {rest : List Tree}
    (hseen : env.SeenAt use use.node.text decl inner t outer rest) :
    env.climbOrigin use.file use.node.text use.node use.site.around =
      some (.declared (use.move ⟨t, outer :: rest⟩)) := by
  have houterMem : use.move ⟨outer, rest⟩ ∈ env.refs :=
    mem_refs_of_suffix huse ((List.suffix_cons _ _).trans hseen.level)
  obtain ⟨src, hlaid⟩ := laid_of_mem_refs hparsed houterMem
  have hskip := climbOrigin_skip hseen.level fun _ _ _ hlevel hlength =>
    h.unbound_node hparsed huse hbodies hseen hlevel hlength
  refine hskip.trans ?_
  refine climbOrigin_of_last hlaid hseen.child hseen.before hseen.binds ?_
  intro t' ht' hlt' hbinds hstop
  obtain ⟨hscopes, hnearest⟩ := h
  cases hscopes with
  | node hscope =>
    have hne : (outer :: rest).dropWhile (!·.kind.isBlock) ≠ [] := by
      rw [← hseen.block]
      exact hscope.block.1
    obtain ⟨decl', hscope', hholds, hblock'⟩ :=
      inScope_of_binds hparsed huse hbodies hseen.level ht' hlt' hbinds hne
    rcases hnearest _ _ (.node hscope') with heq | hdepth | ⟨_, hstart⟩
    · cases heq
      exact (List.cons.inj (suffix_of_suffix_length_eq hholds hseen.holds rfl)).1
    · rw [hblock', hseen.block] at hdepth
      exact absurd hdepth (lt_irrefl _)
    · have hdecl := (span_of_suffix hparsed hscope.mem hseen.holds).2
      have hdecl' := (span_of_suffix hparsed hscope'.mem hholds).1
      have hspan := start_le_stop_of_mem_refs hparsed hscope.mem
      change decl'.node.start < decl.node.start at hstart
      omega

omit huse hbodies in
/-- What stands in a case itself binds nothing. -/
theorem not_binds_of_case {node t : Tree} {around : List Tree}
    (hcase : ⟨file, ⟨node, around⟩⟩ ∈ env.refs)
    (hkind : node.kind = .typeCase ∨ node.kind = .defaultCase) (ht : t ∈ node.children) :
    ¬ (⟨file, ⟨t, node :: around⟩⟩ : Ref).binds name = true := by
  intro hbinds
  have htmem : ⟨file, ⟨t, node :: around⟩⟩ ∈ env.refs := mem_refs_enter hcase ht
  unfold Ref.binds at hbinds
  split at hbinds
  case h_6 => cases hbinds
  all_goals
    rename_i hkind'
    change t.kind = _ at hkind'
    have hadmits := admits_of_mem_refs hparsed htmem (by rw [hkind']; rfl)
    rcases hkind with hkind | hkind
    all_goals simp [Code.declaring, Tree.mark, hkind, hkind'] at hadmits

/-- Nothing binds the identifier further in than the case whose alias it refers to. -/
theorem RefersTo.unbound_alias {case : Ref} {depth : Nat}
    (h : env.RefersTo use (.inCase case) depth) {inner' outer' : Tree} {rest' : List Tree}
    (hlevel : inner' :: outer' :: rest' <:+ use.site.path)
    (hlength : case.site.path.length < (outer' :: rest').length) :
    env.Unbound use.file use.node.text inner' outer' rest' := by
  obtain ⟨hscopes, hnearest⟩ := h
  cases hscopes with
  | inCase halias =>
    obtain ⟨list, hlist, hsuffix⟩ := halias.body
    have hinside : list :: case.site.path <:+ outer' :: rest' :=
      List.suffix_of_suffix_length_le hsuffix ((List.suffix_cons _ _).trans hlevel) hlength
    -- the statements of the case are a block further in
    have hblock := dropWhile_suffix_dropWhile (p := (!·.kind.isBlock)) hinside
    rw [List.dropWhile_cons_of_neg (by rw [hlist]; decide)] at hblock
    have hle := hblock.length_le
    rw [List.length_cons] at hle
    constructor
    · intro t' ht' hlt'
      by_contra hbinds
      rw [Bool.not_eq_false] at hbinds
      have hne : (outer' :: rest').dropWhile (!·.kind.isBlock) ≠ [] := by
        intro hnil
        rw [hnil, List.length_nil] at hle
        omega
      obtain ⟨decl', hscope', _, hblock'⟩ :=
        inScope_of_binds hparsed huse hbodies hlevel ht' hlt' hbinds hne
      rw [← hblock'] at hle
      rcases hnearest _ _ (.node hscope') with heq | hdepth | ⟨hdepth, _⟩
      · cases heq
      · omega
      · omega
    · cases hcase : env.caseBinding ⟨use.file, ⟨outer', rest'⟩⟩ use.node.text with
      | none => rfl
      | some b =>
        have halias' := aliasInScope_of_caseBinding hbodies hlevel hcase
        have hpath : (use.move ⟨outer', rest'⟩).site.path.length = (outer' :: rest').length := rfl
        rcases hnearest _ _ (.inCase halias') with heq | hdepth | ⟨hdepth, _⟩
        · cases heq
          omega
        · omega
        · omega

theorem RefersTo.climbOrigin_alias {case : Ref} {depth : Nat}
    (h : env.RefersTo use (.inCase case) depth) :
    ∃ b, env.bindCase case use.node.text = some b ∧
      env.climbOrigin use.file use.node.text use.node use.site.around = some (.inCase b) := by
  have hunbound : ∀ inner' outer' rest', inner' :: outer' :: rest' <:+ use.site.path →
      case.site.path.length < (outer' :: rest').length →
        env.Unbound use.file use.node.text inner' outer' rest' :=
    fun _ _ _ hlevel hlength => h.unbound_alias hparsed huse hbodies hlevel hlength
  obtain ⟨hscopes, _⟩ := h
  cases hscopes with
  | inCase halias =>
    obtain ⟨list, _, hsuffix⟩ := halias.body
    obtain ⟨b, hb⟩ := Option.isSome_iff_exists.mp halias.names
    refine ⟨b, hb, ?_⟩
    refine (climbOrigin_skip hsuffix hunbound).trans ?_
    obtain ⟨file, node, around⟩ := case
    obtain ⟨hfile, hkind, _, _⟩ := halias
    cases hfile
    change climbOrigin env _ _ list (node :: around) = _
    have hbinding : env.caseBinding ⟨use.file, ⟨node, around⟩⟩ use.node.text = some b :=
      (if_pos hkind).trans hb
    rw [climbOrigin_cons_of_unbound, hbinding]
    · intro t ht _
      rw [← Bool.not_eq_true]
      have hcase : use.move ⟨node, around⟩ ∈ env.refs :=
        mem_refs_of_suffix huse ((List.suffix_cons _ _).trans hsuffix)
      exact not_binds_of_case hparsed hcase hkind ht

end Refers

/-! ## Types from declarations -/

/-- What is asked for a name that a declaration declares. -/
def Declaration.script (env : Env) (name : String) : Declaration → Script
  | .node decl => env.bindScript decl.statement name
  | .inCase case => { outcome := .known ((env.bindCase case name).bind Binding.type?) }

/-- A declaration gives a name the type `t`: it spells it, or it is made from the type that another
question stands for. -/
def Declaration.StandsFor (env : Env) (name : String) (decl : Declaration) (t : Ty) : Prop :=
  match (decl.script env name).outcome with
  | .known a => a = some t
  | .follow q f => ∃ t', env.Means q t' ∧ f t' = some t

/-- An identifier is bound by a declaration: looking it up is asking what the declaration binds it
to. Whatever was asked before, it has the type that the declaration gives it or none that is known,
and only for that type is a call on it directed at another method. -/
structure BoundBy (env : Env) (use : Ref) (decl : Declaration) : Prop where
  binding : ∀ o, env.lookupWith o use = decl.binding env o use.node.text
  answers : ¬ env.Circular → ∀ m, (env.lookup use m).isSome = true
  lookup : ∀ m b m', env.Reached m → env.lookup use m = some (b, m') →
    ∃ b', b = some b' ∧ ∀ t, b'.type? = some t → decl.StandsFor env use.node.text t
  hit : ∀ m call field hit m', env.Reached m → call ∈ env.refs →
    Retarget.methodCall? call = some (use, field) →
    Retarget.hit env call m = some (some hit, m') →
    ∃ t, (Retarget.isSqlHandle t = true ∨ Retarget.isSqlxValue t = true) ∧
      decl.StandsFor env use.node.text t

section Bound

variable {use : Ref} {decl : Declaration} {m m' : Memo}

theorem standsFor_of_means {t : Ty} (hscript : env.script (.name use) = decl.script env name)
    (h : env.Means (.name use) t) : decl.StandsFor env name t := by
  unfold Declaration.StandsFor
  rw [← hscript]
  cases h with
  | known h =>
    rw [h]
  | follow h hmeans ht =>
    rw [h]
    exact ⟨_, hmeans, ht⟩

/-- The type of an identifier is that of its name. -/
theorem means_name_of_means_type (hident : use.node.kind = .identifier) {t : Ty}
    (h : env.Means (.type use) t) : env.Means (.name use) t := by
  have houtcome : (env.script (.type use)).outcome = .follow (.name use) some := by
    change (env.typeScript use).outcome = _
    rw [typeScript, hident]
  cases h with
  | known h =>
    rw [houtcome] at h
    cases h
  | follow h hmeans ht =>
    rw [houtcome] at h
    cases h
    cases ht
    exact hmeans

/-- A call is directed at another method because of the type of the value it is called on. -/
theorem exists_typeOf_of_hitIn {table : List (String × String)} {isValue : Ty → Bool} {call : Ref}
    {field : Tree} (hcall : Retarget.methodCall? call = some (use, field)) {hit : Tree × String}
    (h : Retarget.hitIn env table isValue call m = some (some hit, m')) :
    ∃ t m₁, env.typeOf use m = some (some t, m₁) ∧ isValue t = true := by
  unfold Retarget.hitIn at h
  rw [hcall] at h
  dsimp only at h
  cases hlookup : table.lookup field.text with
  | none =>
    rw [hlookup] at h
    cases Resolving.pure_eq_some.mp h
  | some variant =>
    rw [hlookup] at h
    obtain ⟨t, m₁, ht, h⟩ := Resolving.bind_eq_some.mp h
    cases t with
    | none => cases Resolving.pure_eq_some.mp h
    | some t =>
      refine ⟨t, m₁, ht, ?_⟩
      by_contra hvalue
      rw [Option.any_some, if_neg hvalue] at h
      cases Resolving.pure_eq_some.mp h

theorem exists_typeOf_of_hit {call : Ref} {field : Tree} (hmem : call ∈ env.refs)
    (hcall : Retarget.methodCall? call = some (use, field)) {hit : Tree × String}
    (hm : env.Reached m) (h : Retarget.hit env call m = some (some hit, m')) :
    ∃ m₀ t m₁, env.Reached m₀ ∧ env.typeOf use m₀ = some (some t, m₁) ∧
      (Retarget.isSqlHandle t = true ∨ Retarget.isSqlxValue t = true) := by
  obtain ⟨found, m₀, hfound, h⟩ := Resolving.bind_eq_some.mp h
  cases found with
  | some found =>
    obtain ⟨t, m₁, ht, hvalue⟩ := exists_typeOf_of_hitIn hcall hfound
    exact ⟨m, t, m₁, hm, ht, .inl hvalue⟩
  | none =>
    obtain ⟨t, m₁, ht, hvalue⟩ := exists_typeOf_of_hitIn hcall h
    exact ⟨m₀, t, m₁, (asksTypes_hitIn _ _ hmem).reached hm hfound, ht, .inr hvalue⟩

variable (hclosed : env.Closed) (hindex : env.Listed)
  (hparsed : ∀ f ∈ env.files, Code.parse? f.src = some f.root)

include hclosed hindex hparsed

/-- Types that are answered are those that the questions stand for, whatever was asked before. -/
theorem Reached.means (hm : env.Reached m) {q : Question} (hq : q.subject ∈ env.refs)
    {a : Option Ty} (h : (env.oracle env.depth).ask q m = some (a, m')) {t : Ty}
    (ht : a = some t) : env.Means q t := by
  let C := meaning hclosed hindex hparsed
  have hkept : C.Kept m := hm.kept C hindex fun _ _ hq => hq
  exact (C.keptBy_oracle hindex env.depth q m a m' hq hkept h).1 t ht

/-- An identifier is bound by the declaration that its origin is. -/
theorem boundBy_of_origin (huse : use ∈ env.refs) (hident : use.node.kind = .identifier)
    (hsome : (env.origin use).isSome = true)
    (hbinding : ∀ o, env.lookupWith o use = decl.binding env o use.node.text)
    (hscript : env.script (.name use) = decl.script env use.node.text) : env.BoundBy use decl where
  binding := hbinding
  answers hacyclic m := ((answers_of_not_circular hclosed hacyclic m.active).1 use huse).2.isSome
  lookup := by
    intro m b m' hm h
    have hb : b.isSome = true := (sees_oracle hindex env.depth use m b m' h).trans hsome
    obtain ⟨b, rfl⟩ := Option.isSome_iff_exists.mp hb
    refine ⟨b, rfl, fun t ht => standsFor_of_means hscript ?_⟩
    have hask : (env.oracle env.depth).ask (.name use) m = some (b.type?, m') :=
      Resolving.bind_eq_some.mpr ⟨some b, m', h, rfl⟩
    exact hm.means hclosed hindex hparsed (q := .name use) huse hask ht
  hit := by
    intro m call field hit m' hm hmem hcall h
    obtain ⟨m₀, t, m₁, hm₀, ht, hvalue⟩ := exists_typeOf_of_hit hmem hcall hm h
    refine ⟨t, hvalue, standsFor_of_means hscript (means_name_of_means_type hident ?_)⟩
    exact hm₀.means hclosed hindex hparsed (q := .type use) huse ht rfl

end Bound

/-- A declaration of a name that is not one of the package. -/
def declaresInside (name : String) (decl : Ref) : Bool :=
  decl.declaresName name && !decl.site.block.isEmpty

/-- The site `decl` in a block has the only declaration of the name of `use` outside of those of the
package, and the identifier comes after it. -/
def isSole (env : Env) (block : Ref) (decl : Site) (use : Ref) : Bool :=
  decl.block.length = block.site.path.length && decl.node.kind ≠ .parameterList &&
  declaresInside use.node.text (block.move decl) && decl.node.stop ≤ use.node.start &&
  use.site.around.all (fun t => t.kind ≠ .typeCase && t.kind ≠ .defaultCase) &&
  (env.refs.filter fun r => r.file = use.file && declaresInside use.node.text r).length = 1

theorem path_suffix_of_child? {r c : Ref} {role : Code.Role} (h : r.child? role = some c) :
    c.file = r.file ∧ r.site.path <:+ c.site.around := by
  obtain ⟨s, hs, rfl⟩ := Option.map_eq_some_iff.mp h
  obtain ⟨t, _, rfl⟩ := Option.map_eq_some_iff.mp hs
  exact ⟨rfl, List.suffix_rfl⟩

/-- An identifier after the only declaration of its name refers to it. -/
theorem refersTo_of_isSole {block use : Ref} {decl : Site} (hblock : block ∈ env.refs)
    (hdecl : decl ∈ block.site.walk) (hfile : use.file = block.file)
    (huse : block.site.path <:+ use.site.around) (h : env.isSole block decl use = true) :
    env.RefersTo use (.node (block.move decl)) decl.block.length := by
  simp only [isSole, Bool.and_eq_true, decide_eq_true_eq, List.all_eq_true] at h
  obtain ⟨⟨⟨⟨⟨hlength, hkind⟩, hinside⟩, hbefore⟩, hcases⟩, hsole⟩ := h
  have hmem : block.move decl ∈ env.refs :=
    mem_refs_move hblock fun _ hsite => Site.mem_walk_trans hsite hdecl
  have hpath : decl.block = block.site.path := by
    refine suffix_of_suffix_length_eq ?_ (Site.path_suffix_of_mem_walk hdecl) hlength
    exact (List.dropWhile_suffix _).trans (List.suffix_cons _ _)
  have hscope : env.InScope use use.node.text (block.move decl) := by
    refine ⟨hmem, hfile.symm, (Bool.and_eq_true_iff.mp hinside).1, ?_, hbefore, fun h => ?_⟩
    · change decl.block ≠ [] ∧ decl.block <:+ _
      rw [hpath]
      exact ⟨List.cons_ne_nil _ _, huse⟩
    · exact absurd h hkind
  refine ⟨.node hscope, ?_⟩
  intro other n hother
  obtain ⟨only, honly⟩ := List.length_eq_one_iff.mp hsole
  have heq : ∀ {r : Ref}, env.InScope use use.node.text r → r = only := by
    intro r hr
    have hlocal : r ∈ env.refs.filter fun r => r.file = use.file &&
        declaresInside use.node.text r := by
      refine List.mem_filter.mpr ⟨hr.mem, ?_⟩
      simp [hr.file, declaresInside, hr.names, hr.block.1]
    rw [honly] at hlocal
    exact List.mem_singleton.mp hlocal
  cases hother with
  | node hother => exact .inl (by rw [heq hother, heq hscope])
  | inCase halias =>
    obtain ⟨list, hlist, hsuffix⟩ := halias.body
    have haround : _ ∈ use.site.around :=
      (suffix_of_cons_suffix_cons hsuffix).subset List.mem_cons_self
    have hcase := hcases _ haround
    rcases halias.kind with hkind | hkind
    all_goals simp [Ref.node] at hkind; simp [hkind] at hcase

/-- There is a call on an identifier whose only declaration stands before it in a block around both,
and `p` holds of the call, the identifier and the declaration. -/
def anySole (env : Env) (p : Ref → Ref → Ref → Bool) : Bool :=
  env.refs.any fun block => block.node.kind.isBlock && block.site.walk.any fun decl =>
    decl.block.length = block.site.path.length && block.site.walk.any fun call =>
      (Retarget.methodCall? (block.move call)).any fun (use, _) =>
        use.node.kind = .identifier && Site.inBodies use.site.node use.site.around &&
        env.isSole block decl use && p (block.move call) use (block.move decl)

theorem exists_of_anySole {p : Ref → Ref → Ref → Bool} (h : env.anySole p = true) :
    ∃ call use decl : Ref, ∃ field depth, use ∈ env.refs ∧
      Retarget.methodCall? call = some (use, field) ∧ use.node.kind = .identifier ∧
      Site.inBodies use.site.node use.site.around = true ∧
      env.RefersTo use (.node decl) depth ∧ p call use decl = true := by
  obtain ⟨block, hblock, h⟩ := List.any_eq_true.mp h
  obtain ⟨decl, hdecl, h⟩ := List.any_eq_true.mp (Bool.and_eq_true_iff.mp h).2
  obtain ⟨call, hcall, h⟩ := List.any_eq_true.mp (Bool.and_eq_true_iff.mp h).2
  obtain ⟨⟨use, field⟩, hmethod, h⟩ := (Option.any_eq_true _ _).mp h
  simp only [Bool.and_eq_true, decide_eq_true_eq] at h
  obtain ⟨⟨⟨hident, hbodies⟩, hsole⟩, hp⟩ := h
  obtain ⟨fn, hfn, hoperand⟩ := operand_of_methodCall? hmethod
  have hmem : use ∈ env.refs := by
    refine mem_refs_of_child? (mem_refs_of_child? ?_ hfn) hoperand
    exact mem_refs_move hblock fun _ hsite => Site.mem_walk_trans hsite hcall
  -- the identifier is two nodes below the call, and the call is in the block
  obtain ⟨hfile, hsuffix⟩ := path_suffix_of_child? hfn
  obtain ⟨hfile', hsuffix'⟩ := path_suffix_of_child? hoperand
  have huse : block.site.path <:+ use.site.around :=
    ((Site.path_suffix_of_mem_walk hcall).trans hsuffix).trans
      ((List.suffix_cons _ _).trans hsuffix')
  exact ⟨_, use, _, field, _, hmem, hmethod, hident, hbodies,
    refersTo_of_isSole hblock hdecl (hfile'.trans hfile) huse hsole, hp⟩

/-- A loop whose variable has the name of a handle. -/
def rangeOver : Bytes := Bytes.ofString <|
  "package p\n\nimport \"database/sql\"\n\nvar d *sql.DB\n\ntype T struct\x7b\x7d\n\n" ++
  "func f(ds []T) \x7b\n\tfor _, d := range ds \x7b\n\t\td.Query()\n\t\x7d\n\x7d\n"

/-- A name declared under a label, one used in its own group of variables and one declared by a case
of a selection. Each is the name of a handle, too. -/
def overlooking : Bytes := Bytes.ofString <|
  "package p\n\nimport \"database/sql\"\n\nvar a, b, c *sql.DB\n\ntype T struct\x7b\x7d\n\n" ++
  "func (T) Query(q string) int \x7b return 0 \x7d\n\n" ++
  "func f(ch chan T) \x7b\nL:\n\ta := T\x7b\x7d\n" ++
  "\tif a.Query(\"x\") > 0 \x7b\n\t\tgoto L\n\t\x7d\n" ++
  "\tvar (\n\t\tb = T\x7b\x7d\n\t\t_ = b.Query(\"x\")\n\t)\n" ++
  "\tselect \x7b\n\tcase c := <-ch:\n\t\tc.Query(\"x\")\n\t\x7d\n\x7d\n"

end Env

end CtxThread
