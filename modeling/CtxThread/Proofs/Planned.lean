import CtxThread.Proofs.Settled

/-!
# What a walk plans, given its hits

Looking for types and planning edits take turns during the walk over a file, but the plan depends
on the types only through the hits that the calls of the file have. So a walk can be taken apart:
first all hits are found, one after the other, and then every node plans its changes.

## Main definitions

- `FileUpdate.step`: planning the changes of one node, given its hit
- `FileUpdate.planned`: planning the changes of all nodes of a file, given their hits
- `FileUpdate.ownEdits`: the edits that one node gives rise to, leading arguments aside

## Main statements

- `updateFile_eq`: updating a file finds its hits and then plans
- `FileUpdate.planned_plain`: the edits planned, leading arguments aside, node by node
-/

namespace CtxThread

open Code (Tree Site)

namespace FileUpdate

/-- Plans the changes of a node that has the given hit. -/
def step (s : Settings) (u : FileUpdate) (z : Tree × Option (Tree × String)) : FileUpdate :=
  match z.2 with
  | some hit => u.retarget z.1 hit
  | none =>
    if z.1.kind.isFuncDecl then u.declaration s z.1
    else if z.1.kind = .funcLiteral && Handler.isEcho s z.1 then u.seed z.1 Naming.echoSeed
    else u

/-- Plans the changes of the nodes of a file one after the other, given their hits. -/
def planned (s : Settings) (f : SourceFile) (hits : List (Option (Tree × String))) :
    FileUpdate :=
  (f.root.walk.zip hits).foldl (step s) { file := f }

/-- A visit looks for a hit and then plans. -/
theorem visit_eq (env : Env) (s : Settings) (i : Nat) (u : FileUpdate) (site : Site) :
    visit env s i u site = do
      let hit ← Retarget.hitAt env i site
      return u.step s (site.node, hit) := by
  unfold visit Retarget.hitAt
  by_cases hcall : site.node.kind = .callExpression
  · rw [if_pos hcall, if_pos hcall]
    congr 1
    funext hit
    cases hit with
    | some hit => rfl
    | none => simp [step, hcall, Code.Kind.isFuncDecl]
  · rw [if_neg hcall, if_neg hcall, pure_bind]
    simp only [step]
    split
    · rfl
    · split <;> rfl

/-- A walk finds the hits of its sites and then plans. -/
theorem walk_eq (env : Env) (s : Settings) (i : Nat) (u : FileUpdate) (sites : List Site) :
    sites.foldlM (visit env s i) u = do
      let hits ← sites.mapM (Retarget.hitAt env i)
      return ((sites.map (·.node)).zip hits).foldl (step s) u := by
  induction sites generalizing u with
  | nil => simp
  | cons site sites ih =>
    rw [List.foldlM_cons, visit_eq, List.mapM_cons]
    simp only [bind_assoc, pure_bind, ih, List.map_cons, List.zip_cons_cons, List.foldl_cons]

end FileUpdate

/-- Updating a file finds the hits of its nodes and then plans. -/
theorem updateFile_eq (env : Env) (s : Settings) (i : Nat) (f : SourceFile) :
    updateFile env s i f = do
      let hits ← (Site.root f.root).walk.mapM (Retarget.hitAt env i)
      return (FileUpdate.planned s f hits).finish := by
  rw [updateFile, FileUpdate.walk_eq]
  simp only [bind_assoc, pure_bind]
  rfl

theorem updateFile_eq_some {env : Env} {s : Settings} {i : Nat} {f : SourceFile} {m m' : Memo}
    {u : FileUpdate} : updateFile env s i f m = some (u, m') ↔
      ∃ hits, (Site.root f.root).walk.mapM (Retarget.hitAt env i) m = some (hits, m') ∧
        u = (FileUpdate.planned s f hits).finish := by
  rw [updateFile_eq, Resolving.bind_eq_some]
  constructor
  · rintro ⟨hits, m₁, hhits, h⟩
    cases Resolving.pure_eq_some.mp h
    exact ⟨hits, hhits, rfl⟩
  · rintro ⟨hits, hhits, rfl⟩
    exact ⟨hits, m', hhits, rfl⟩

/-! ## The edits of a node -/

/-- The edits that put `statement` first in a function that does not start with it. -/
def Seed.missing (src : Bytes) (func : Tree) (statement : String) : List Edit :=
  match func.child? .body with
  | none => []
  | some body =>
    if isSeeded src body.statements statement then [] else edits src func body statement

/-- The edits that import the context package in a file that lacks it. -/
def ContextImport.edits (f : SourceFile) : List Edit :=
  if f.importCount Naming.contextPath ≠ 0 then []
  else match f.clause? with
    | none => [.insertion 0 (group ++ "\n\n")]
    | some clause =>
      match f.src.lineEnd? clause.stop with
      | some eol => [.insertion eol ("\n\n" ++ group)]
      | none => [.insertion f.src.length ("\n\n" ++ group), .insertion f.src.length "\n"]

/-- The statement that a function has to start with, if it is a handler. -/
def Handler.seed? (s : Settings) (func : Tree) : Option String :=
  if func.kind.isFuncDecl && isHttp s func then some Naming.httpSeed
  else if func.kind.isFunc && isEcho s func then some Naming.echoSeed
  else none

/-- A declaration of a function or a method that gains the context as a parameter. -/
def Handler.isAugmented (s : Settings) (t : Tree) : Bool := t.kind.isFuncDecl && gainsContext s t

/-- The edits that put the context first in the parameters of a declaration. -/
def Handler.parameterEdits (s : Settings) (src : Bytes) (decl : Tree) : List Edit :=
  if isAugmented s decl then
    (decl.child? .parameters).toList.map fun list =>
      leadingItem src list list.paramDecls Naming.contextParameter
  else []

theorem Plan.prependContext_eq (p : Plan) (src : Bytes) (call : Tree) :
    (p.prependContext src call).2.plain = p.plain ∧
      (p.prependContext src call).2.replaced = p.replaced := by
  unfold prependContext
  split
  · exact ⟨rfl, rfl⟩
  · split <;> exact ⟨rfl, rfl⟩

namespace CallSite

/-- A call of the name that does not carry the context. -/
def isMissing (name : String) (call : Tree) : Bool := callee? call = some name && !isThreaded call

/-- The arguments of a name are planned for its calls one after the other. -/
theorem patch_snd (name : String) (src : Bytes) (root : Tree) (p : Plan) :
    (patch name src root p).2 = ((root.allOfKind .callExpression).filter (isMissing name)).foldl
      (fun p call => (p.prependContext src call).2) p := by
  unfold patch
  generalize (0 : Nat) = n
  induction root.allOfKind .callExpression generalizing n p with
  | nil => rfl
  | cons call calls ih =>
    rw [List.foldl_cons, List.filter_cons]
    by_cases hmissing : isMissing name call = true
    · rw [if_pos hmissing, List.foldl_cons]
      rw [isMissing] at hmissing
      dsimp only
      rw [if_pos hmissing]
      cases hstep : p.prependContext src call with
      | mk done q => cases done <;> exact ih q _
    · rw [if_neg hmissing]
      rw [isMissing] at hmissing
      dsimp only
      rw [if_neg hmissing]
      exact ih p n

/-- Planning arguments at call sites plans nothing else. -/
theorem patch_eq (name : String) (src : Bytes) (root : Tree) (p : Plan) :
    (patch name src root p).2.plain = p.plain ∧
      (patch name src root p).2.replaced = p.replaced := by
  rw [patch_snd]
  induction (root.allOfKind .callExpression).filter (isMissing name) generalizing p with
  | nil => exact ⟨rfl, rfl⟩
  | cons call calls ih =>
    obtain ⟨hplain, hreplaced⟩ := p.prependContext_eq src call
    rw [List.foldl_cons, ← hplain, ← hreplaced]
    exact ih _

end CallSite

namespace FileUpdate

/-- The edits that a node gives rise to, leading arguments aside: the new name of its method, its
first parameter and its first statement. -/
def ownEdits (s : Settings) (src : Bytes) (z : Tree × Option (Tree × String)) : List Edit :=
  z.2.toList.map (fun hit => ⟨hit.1.start, hit.1.stop, hit.2⟩) ++
    (Handler.parameterEdits s src z.1 ++
      (Handler.seed? s z.1).toList.flatMap (Seed.missing src z.1))

variable {s : Settings} {u : FileUpdate}

theorem seed_eq (u : FileUpdate) (func : Tree) (statement : String) :
    (u.seed func statement).file = u.file ∧
      (u.seed func statement).plan.plain =
        u.plan.plain ++ Seed.missing u.file.src func statement ∧
      (u.seed func statement).plan.calls = u.plan.calls ∧
      (u.seed func statement).plan.replaced = u.plan.replaced ∧
      (u.seed func statement).augmented = u.augmented := by
  unfold seed Seed.plan Seed.missing
  cases func.child? .body with
  | none => simp
  | some body =>
    by_cases hseeded : Seed.isSeeded u.file.src body.statements statement = true
    · simp [hseeded]
    · simp [hseeded]

theorem augment_eq (u : FileUpdate) (decl : Tree) :
    (u.augment decl).file = u.file ∧
      (u.augment decl).plan.plain = u.plan.plain ++
        (decl.child? .parameters).toList.map (fun list =>
          leadingItem u.file.src list list.paramDecls Naming.contextParameter) ∧
      (u.augment decl).plan.replaced = u.plan.replaced ∧
      (u.augment decl).augmented = u.augmented ++ [decl.nameText?.getD ""] := by
  obtain ⟨hplain, hreplaced⟩ := CallSite.patch_eq (decl.nameText?.getD "") u.file.src u.file.root
    (augmentParams u.file.src decl u.plan).2
  refine ⟨rfl, ?_, ?_, rfl⟩
  · rw [augment]
    dsimp only
    rw [hplain, augmentParams]
    cases decl.child? .parameters with
    | none => simp
    | some list => rfl
  · rw [augment]
    dsimp only
    rw [hreplaced, augmentParams]
    cases decl.child? .parameters with
    | none => rfl
    | some list => rfl

/-- A new name is planned with the leading argument of its call, unless it is planned already. -/
theorem retarget_eq (u : FileUpdate) (call : Tree) {hit : Tree × String}
    (hnew : hit.1.key ∉ u.plan.replaced) :
    u.retarget call hit =
      { u with
        plan := (Plan.prependContext
          { u.plan with
            plain := u.plan.plain ++ [⟨hit.1.start, hit.1.stop, hit.2⟩]
            replaced := u.plan.replaced ++ [hit.1.key] } u.file.src call).2
        renamed := u.renamed + 1 } := by
  have hcontains : u.plan.replaced.contains hit.1.key = false := by simpa using hnew
  rw [retarget, Plan.replace, hcontains]
  rfl

/-- What is planned after the visits of some nodes, given their hits. -/
structure Follows (s : Settings) (f : SourceFile) (zs : List (Tree × Option (Tree × String)))
    (u : FileUpdate) : Prop where
  file : u.file = f
  plain : u.plan.plain = zs.flatMap (ownEdits s f.src)
  replaced : u.plan.replaced = (zs.filterMap (·.2)).map (·.1.key)
  augmented : u.augmented =
    (zs.filter fun z => Handler.isAugmented s z.1).map (·.1.nameText?.getD "")

/-- The hits of nodes that a walk visits: only calls have one, and no two are the same. -/
structure Hits (zs : List (Tree × Option (Tree × String))) : Prop where
  call : ∀ z ∈ zs, ∀ hit, z.2 = some hit →
    z.1.kind = .callExpression ∧ Retarget.IsHit z.1 hit.1 hit.2
  key_ne : zs.Pairwise fun z z' => ∀ hit hit', z.2 = some hit → z'.2 = some hit' →
    hit.1.key ≠ hit'.1.key

theorem Hits.front {zs rest : List (Tree × Option (Tree × String))}
    {z : Tree × Option (Tree × String)} (h : Hits ((zs ++ [z]) ++ rest)) : Hits (zs ++ [z]) :=
  ⟨fun y hy => h.call y (List.mem_append_left _ hy), (List.pairwise_append.mp h.key_ne).1⟩

/-- The name that one more hit replaces is not replaced already. -/
theorem Follows.not_mem_replaced {f : SourceFile} {zs : List (Tree × Option (Tree × String))}
    {call : Tree} {hit : Tree × String} (h : Follows s f zs u)
    (hits : Hits (zs ++ [(call, some hit)])) : hit.1.key ∉ u.plan.replaced := by
  rw [h.replaced]
  intro hmem
  obtain ⟨other, hother, hkey⟩ := List.mem_map.mp hmem
  obtain ⟨z, hz, hzhit⟩ := List.mem_filterMap.mp hother
  have hne := (List.pairwise_append.mp hits.key_ne).2.2 z hz (call, some hit) (by simp)
  exact hne other hit hzhit rfl hkey

theorem step_call {z : Tree × Option (Tree × String)} {hit : Tree × String} (hz : z.2 = some hit)
    (hcall : z.1.kind = .callExpression) (src : Bytes) :
    ownEdits s src z = [⟨hit.1.start, hit.1.stop, hit.2⟩] ∧ Handler.isAugmented s z.1 = false := by
  have haug : Handler.isAugmented s z.1 = false := by
    simp [Handler.isAugmented, hcall, Code.Kind.isFuncDecl]
  have hseed : Handler.seed? s z.1 = none := by
    simp [Handler.seed?, hcall, Code.Kind.isFunc, Code.Kind.isFuncDecl]
  refine ⟨?_, haug⟩
  rw [ownEdits, hz, hseed, Handler.parameterEdits, haug]
  rfl

/-- A node without a hit is seeded as a handler, or gains its context, or stays as it is. -/
theorem step_eq (s : Settings) (u : FileUpdate) (t : Tree) :
    u.step s (t, none) =
      match Handler.seed? s t with
      | some statement => u.seed t statement
      | none => if Handler.isAugmented s t then u.augment t else u := by
  unfold step Handler.seed? Handler.isAugmented
  dsimp only
  cases hdecl : t.kind.isFuncDecl with
  | true =>
    have hfunc : t.kind.isFunc = true := by simp [Code.Kind.isFunc, hdecl]
    rw [if_pos rfl, declaration_eq]
    simp only [hfunc, Bool.true_and]
    split
    · rfl
    · split <;> rfl
  | false =>
    have hfunc : t.kind.isFunc = decide (t.kind = .funcLiteral) := by
      simp [Code.Kind.isFunc, hdecl]
    simp only [hfunc, Bool.false_and, Bool.false_eq_true, if_false]
    split <;> rfl

theorem isAugmented_of_seed? {t : Tree} {statement : String}
    (h : Handler.seed? s t = some statement) : Handler.isAugmented s t = false := by
  unfold Handler.seed? at h
  unfold Handler.isAugmented Handler.gainsContext
  split at h
  · next hhttp =>
    rw [Bool.and_eq_true] at hhttp
    simp [hhttp.2]
  · split at h
    · next hecho =>
      rw [Bool.and_eq_true] at hecho
      simp [hecho.2]
    · cases h

/-- One more node plans its own edits. -/
theorem Follows.step {f : SourceFile} {zs : List (Tree × Option (Tree × String))}
    {z : Tree × Option (Tree × String)} (h : Follows s f zs u) (hits : Hits (zs ++ [z])) :
    Follows s f (zs ++ [z]) (u.step s z) := by
  obtain ⟨t, hit⟩ := z
  have hnew : ∀ found, hit = some found → found.1.key ∉ u.plan.replaced := by
    rintro found rfl
    exact h.not_mem_replaced hits
  obtain ⟨rfl, hplain, hreplaced, haugmented⟩ := h
  cases hit with
  | some hit =>
    obtain ⟨hcall, _⟩ := hits.call (t, some hit) (by simp) hit rfl
    obtain ⟨hown, haug⟩ := step_call (s := s) (z := (t, some hit)) rfl hcall u.file.src
    have hprepend := Plan.prependContext_eq
      { u.plan with
        plain := u.plan.plain ++ [⟨hit.1.start, hit.1.stop, hit.2⟩]
        replaced := u.plan.replaced ++ [hit.1.key] } u.file.src t
    change Follows s u.file _ (u.retarget t hit)
    rw [retarget_eq u t (hnew hit rfl)]
    refine ⟨rfl, ?_, ?_, ?_⟩
    · rw [hprepend.1, List.flatMap_append, List.flatMap_singleton, hown, hplain]
    · rw [hprepend.2, hreplaced, List.filterMap_append, List.map_append]
      rfl
    · simp [haugmented, haug]
  | none =>
    rw [step_eq]
    cases hseed : Handler.seed? s t with
    | some statement =>
      have haug := isAugmented_of_seed? hseed
      obtain ⟨hfile, hplain', _, hreplaced', haugmented'⟩ := seed_eq u t statement
      refine ⟨hfile, ?_, ?_, ?_⟩
      · simp [hplain', hplain, ownEdits, hseed, Handler.parameterEdits, haug]
      · simp [hreplaced', hreplaced]
      · simp [haugmented', haugmented, haug]
    | none =>
      dsimp only
      split
      · next haug =>
        obtain ⟨hfile, hplain', hreplaced', haugmented'⟩ := augment_eq u t
        refine ⟨hfile, ?_, ?_, ?_⟩
        · simp [hplain', hplain, ownEdits, hseed, Handler.parameterEdits, haug]
        · simp [hreplaced', hreplaced]
        · simp [haugmented', haugmented, haug]
      · next haug =>
        refine ⟨rfl, ?_, ?_, ?_⟩
        · simp [hplain, ownEdits, hseed, Handler.parameterEdits, haug]
        · simp [hreplaced]
        · simp [haugmented, haug]

/-- All nodes plan their own edits, one after the other. -/
theorem Follows.run {f : SourceFile} {zs rest : List (Tree × Option (Tree × String))}
    (h : Follows s f zs u) (hits : Hits (zs ++ rest)) :
    Follows s f (zs ++ rest) (rest.foldl (FileUpdate.step s) u) := by
  induction rest generalizing zs u with
  | nil => rwa [List.append_nil]
  | cons z rest ih =>
    have hsplit : zs ++ z :: rest = (zs ++ [z]) ++ rest := by simp
    rw [hsplit] at hits ⊢
    exact ih (h.step hits.front) hits

end FileUpdate

/-! ## Whole files -/

namespace Retarget

theorem hitAt_spec {env : Env} {i : Nat} {site : Site} {m m' : Memo} {hit : Tree × String}
    (h : hitAt env i site m = some (some hit, m')) :
    site.node.kind = .callExpression ∧ IsHit site.node hit.1 hit.2 := by
  unfold hitAt at h
  split at h
  · next hcall => exact ⟨hcall, hit_spec h⟩
  · cases Resolving.pure_eq_some.mp h

theorem mapM_hitAt_spec {env : Env} {i : Nat} {sites : List Site}
    {hits : List (Option (Tree × String))} {m m' : Memo}
    (h : sites.mapM (hitAt env i) m = some (hits, m')) :
    hits.length = sites.length ∧ ∀ z ∈ (sites.map (·.node)).zip hits, ∀ hit, z.2 = some hit →
      z.1.kind = .callExpression ∧ IsHit z.1 hit.1 hit.2 := by
  induction sites generalizing hits m with
  | nil =>
    rw [List.mapM_nil] at h
    cases Resolving.pure_eq_some.mp h
    exact ⟨rfl, by simp⟩
  | cons site sites ih =>
    rw [List.mapM_cons] at h
    obtain ⟨here, m₁, hhere, h⟩ := Resolving.bind_eq_some.mp h
    obtain ⟨others, m₂, hothers, h⟩ := Resolving.bind_eq_some.mp h
    cases Resolving.pure_eq_some.mp h
    obtain ⟨hlen, hspec⟩ := ih hothers
    refine ⟨by simp [hlen], ?_⟩
    intro z hz hit hzhit
    rw [List.map_cons, List.zip_cons_cons] at hz
    rcases List.mem_cons.mp hz with rfl | hz
    · dsimp only at hzhit
      subst hzhit
      exact hitAt_spec hhere
    · exact hspec z hz hit hzhit

/-- The names of the methods of two calls are two nodes. -/
theorem key_ne_of_isHit {src : Bytes} {call call' : Tree} {hit hit' : Tree × String}
    (hlaid : call.Laid src) (hlaid' : call'.Laid src) (hcall : call.kind = .callExpression)
    (hcall' : call'.kind = .callExpression) (hhit : IsHit call hit.1 hit.2)
    (hhit' : IsHit call' hit'.1 hit'.2)
    (h : call.stop ≤ call'.start ∨ ∃ c ∈ call.children, call' ∈ c.walk) :
    hit.1.key ≠ hit'.1.key := by
  intro hkey
  obtain ⟨hstart, hstop, _⟩ := Tree.Key.mk.inj hkey
  have hapart := (rename_owned hlaid hhit hcall).apart (rename_owned hlaid' hhit' hcall') h
  -- no name is empty
  have hspan : hit.1.start < hit.1.stop := by
    by_contra hle
    have hlen := Bytes.length_slice src hit.1.start hit.1.stop
    rw [slice_field hlaid hhit, nameBytes, List.length_map] at hlen
    have hnil : hit.1.text.toList = [] := List.length_eq_zero_iff.mp (by omega)
    exact (methods_spec _ hhit.mem).2.2.1 (String.toList_eq_nil_iff.mp hnil)
  simp only [Edit.Apart] at hapart
  omega

end Retarget

/-- The hits of the nodes of a file whose tree lies over its text. -/
theorem FileUpdate.hits_of_laid {env : Env} {i : Nat} {f : SourceFile} {m m' : Memo}
    {hits : List (Option (Tree × String))} (hroot : f.root.Laid f.src)
    (h : (Site.root f.root).walk.mapM (Retarget.hitAt env i) m = some (hits, m')) :
    hits.length = f.root.walk.length ∧ Hits (f.root.walk.zip hits) := by
  obtain ⟨hlen, hspec⟩ := Retarget.mapM_hitAt_spec h
  have hlen' : hits.length = f.root.walk.length := by rw [hlen, Tree.walk, List.length_map]
  refine ⟨hlen', hspec, ?_⟩
  have hwalk : ((f.root.walk.zip hits).map Prod.fst).Pairwise fun a b =>
      a.stop ≤ b.start ∨ ∃ c ∈ a.children, b ∈ c.walk := by
    rw [List.map_fst_zip hlen'.ge]
    exact hroot.pairwise_walk
  refine (List.Pairwise.and_mem.mp (List.pairwise_map.mp hwalk)).imp ?_
  rintro z z' ⟨hz, hz', horder⟩ hit hit' hhit hhit'
  obtain ⟨hcall, hisHit⟩ := hspec z hz hit hhit
  obtain ⟨hcall', hisHit'⟩ := hspec z' hz' hit' hhit'
  exact Retarget.key_ne_of_isHit (hroot.of_mem_walk (List.of_mem_zip hz).1)
    (hroot.of_mem_walk (List.of_mem_zip hz').1) hcall hcall' hisHit hisHit' horder

theorem ContextImport.plan_eq (f : SourceFile) (p : Plan) :
    (ContextImport.plan f p).2 = { p with plain := p.plain ++ edits f } := by
  unfold ContextImport.plan ContextImport.edits
  split
  · simp
  · cases f.clause? with
    | none => rfl
    | some clause =>
      cases hline : f.src.lineEnd? clause.stop with
      | some eol => simp [hline, Plan.insert, Plan.replaceSpan, Edit.insertion]
      | none => simp [hline, Plan.insert, Plan.replaceSpan, Edit.insertion]

namespace FileUpdate

/-- The import is planned last, if anything is. -/
theorem finish_eq (u : FileUpdate) :
    u.finish.file = u.file ∧ u.finish.augmented = u.augmented ∧ u.finish.changed = u.changed ∧
      u.finish.plan =
        { u.plan with
          plain := u.plan.plain ++ if u.changed then ContextImport.edits u.file else [] } := by
  unfold finish
  split
  · next hchanged =>
    refine ⟨rfl, rfl, ?_, ContextImport.plan_eq u.file u.plan⟩
    change (ContextImport.plan u.file u.plan).2.isChange = _
    rw [ContextImport.plan_eq, hchanged]
    rw [changed, Plan.isChange_iff] at hchanged
    rw [Plan.isChange_iff]
    intro hnil
    simp only [Plan.edits, List.append_eq_nil_iff] at hnil
    exact hchanged (by rw [Plan.edits, hnil.1.1, hnil.2, List.append_nil])
  · exact ⟨rfl, rfl, rfl, by rw [List.append_nil]⟩

theorem planned_follows (s : Settings) {f : SourceFile} {hits : List (Option (Tree × String))}
    (h : Hits (f.root.walk.zip hits)) :
    Follows s f (f.root.walk.zip hits) (planned s f hits) := by
  have hstart : Follows s f [] { file := f } := ⟨rfl, rfl, rfl, rfl⟩
  exact hstart.run h

/-- The edits planned for a file, leading arguments aside: every node plans its own, and a file
that is changed imports the context package. -/
theorem planned_plain (s : Settings) {f : SourceFile} {hits : List (Option (Tree × String))}
    (h : Hits (f.root.walk.zip hits)) :
    (planned s f hits).finish.plan.plain =
      (f.root.walk.zip hits).flatMap (ownEdits s f.src) ++
        if (planned s f hits).finish.changed then ContextImport.edits f else [] := by
  have hfollows := planned_follows s h
  obtain ⟨_, _, hchanged, hplan⟩ := finish_eq (planned s f hits)
  rw [hplan, hchanged, hfollows.plain, hfollows.file]

end FileUpdate

end CtxThread
