import CtxThread.Proofs.Code.Keys
import CtxThread.Proofs.Planned

/-!
# Signatures and call sites agree

Calls gain the context in two ways: a database call when it is directed at another method, and
every call of a name when a declaration of that name gains a parameter. The two take turns in the
order of the file. In the end they agree: each call that is to have the context gains it once,
right after its parenthesis, whether it stands before or after the declaration and whichever of
the two ways comes first.

## Main definitions

- `CallSite.Awaits`: a call of a name that gains the context, without one
- `Plan.Leads`: the leading arguments of a plan belong to the calls that want one
- `FileUpdate.Threads`: what a plan does with the calls and the declarations of a file

## Main statements

- `Plan.Leads.prependContext`, `Plan.Leads.patch`: what the two ways add
- `updateFile_threads`: the plan of a file that parses
-/

namespace CtxThread

open Code (Tree Site)

/-- A call that is directed at one of the names and does not carry the context. -/
def CallSite.Awaits (names : List String) (call : Tree) : Prop :=
  (∃ name ∈ names, callee? call = some name) ∧ isThreaded call = false

/-- Calls that have arguments and are told apart by their keys. -/
structure CallSite.Distinct (calls : List Tree) : Prop where
  arguments : ∀ call ∈ calls, ∃ list, call.child? .arguments = some list
  keys : (calls.map (·.key)).Nodup

namespace Plan

/-- The leading arguments of the plan belong to the calls that want one, and each is planned
once. -/
structure Leads (src : Bytes) (calls : List Tree) (wants : Tree → Prop) (p : Plan) : Prop where
  nodup : (p.calls.map (·.1)).Nodup
  placed : ∀ entry ∈ p.calls, ∃ call ∈ calls, ∃ list, call.child? .arguments = some list ∧
    entry = (call.key, leadingItem src list list.items Naming.context)
  exact : ∀ call ∈ calls, (∃ e, (call.key, e) ∈ p.calls) ↔ wants call

namespace Leads

variable {src : Bytes} {calls : List Tree} {wants wants' : Tree → Prop} {p p' : Plan}

theorem congr (h : Leads src calls wants p) (hcalls : p'.calls = p.calls)
    (hwants : ∀ call ∈ calls, wants call ↔ wants' call) : Leads src calls wants' p' where
  nodup := hcalls ▸ h.nodup
  placed := hcalls ▸ h.placed
  exact call hcall := by rw [hcalls, h.exact call hcall, hwants call hcall]

/-- Planning the argument of one more call. -/
theorem prependContext (h : Leads src calls wants p) (hcalls : CallSite.Distinct calls)
    {call : Tree} (hcall : call ∈ calls) :
    Leads src calls (fun c => wants c ∨ c = call) (p.prependContext src call).2 := by
  obtain ⟨list, hlist⟩ := hcalls.arguments call hcall
  unfold Plan.prependContext
  by_cases hplanned : p.calls.any (·.1 = call.key) = true
  · -- the argument is planned already, so the call has wanted one before
    rw [if_pos hplanned]
    obtain ⟨⟨key, e⟩, hentry, hkey⟩ := List.any_eq_true.mp hplanned
    obtain rfl : key = call.key := by simpa using hkey
    have hwants : wants call := (h.exact call hcall).mp ⟨e, hentry⟩
    refine h.congr rfl fun c _ => ⟨.inl, ?_⟩
    rintro (hc | rfl)
    · exact hc
    · exact hwants
  · rw [if_neg hplanned, hlist]
    have hnew : call.key ∉ p.calls.map (·.1) := by
      intro hmem
      obtain ⟨entry, hentry, hkey⟩ := List.mem_map.mp hmem
      exact hplanned (List.any_eq_true.mpr ⟨entry, hentry, by simpa using hkey⟩)
    refine ⟨?_, ?_, ?_⟩
    · rw [List.map_append]
      exact h.nodup.append (List.nodup_singleton _) (by simpa using hnew)
    · intro entry hentry
      rcases List.mem_append.mp hentry with hentry | hentry
      · exact h.placed entry hentry
      · exact ⟨call, hcall, list, hlist, List.mem_singleton.mp hentry⟩
    · intro c hc
      rw [← h.exact c hc]
      constructor
      · rintro ⟨e, he⟩
        rcases List.mem_append.mp he with he | he
        · exact .inl ⟨e, he⟩
        · have hkey := congrArg Prod.fst (List.mem_singleton.mp he)
          exact .inr (List.inj_on_of_nodup_map hcalls.keys hc hcall hkey)
      · rintro (⟨e, he⟩ | rfl)
        · exact ⟨e, List.mem_append_left _ he⟩
        · exact ⟨_, List.mem_append_right _ (List.mem_singleton_self _)⟩

/-- Planning the arguments of some calls one after the other. -/
theorem foldl (h : Leads src calls wants p) (hcalls : CallSite.Distinct calls) {new : List Tree}
    (hnew : new ⊆ calls) :
    Leads src calls (fun c => wants c ∨ c ∈ new)
      (new.foldl (fun p call => (p.prependContext src call).2) p) := by
  induction new generalizing p wants with
  | nil => exact h.congr rfl (by simp)
  | cons call new ih =>
    obtain ⟨hcall, hnew⟩ := List.cons_subset.mp hnew
    refine (ih (h.prependContext hcalls hcall) hnew).congr rfl fun c _ => ?_
    rw [List.mem_cons, or_assoc]

/-- Planning the arguments of the calls of a name that do not carry the context. -/
theorem patch {root : Tree} (h : Leads src (root.allOfKind .callExpression) wants p)
    (hcalls : CallSite.Distinct (root.allOfKind .callExpression)) (name : String) :
    Leads src (root.allOfKind .callExpression)
      (fun c => wants c ∨ CallSite.isMissing name c = true) (CallSite.patch name src root p).2 := by
  rw [CallSite.patch_snd]
  refine (h.foldl hcalls (List.filter_subset_self _)).congr rfl fun c hc => ?_
  rw [List.mem_filter, and_iff_right hc]

/-- Each of them is the context, right after the parenthesis of its call and separated from the
arguments that the call has. -/
theorem exists_placed {root : Tree} (h : Leads src (root.allOfKind .callExpression) wants p)
    (hroot : root.Laid src) : ∀ entry ∈ p.calls, ∃ call ∈ root.allOfKind .callExpression,
      ∃ list sep, call.child? .arguments = some list ∧ src[list.start]? = some 0x28 ∧
        entry = (call.key, ⟨list.start + 1, list.start + 1, "ctx" ++ sep⟩) ∧
        Separates src list list.items sep := by
  intro entry hentry
  obtain ⟨call, hcall, list, hlist, rfl⟩ := h.placed entry hentry
  obtain ⟨hlaid, hadmits⟩ := child_laid (hroot.of_mem_walk (List.mem_filter.mp hcall).1) hlist
  have hopen := hlaid.opens_paren (.inr (by simpa [Code.Role.admits] using hadmits))
  obtain ⟨sep, he, hsep⟩ := leadingItem_eq src list list.items Naming.context
  exact ⟨call, hcall, list, sep, hlist, hopen, congrArg (Prod.mk call.key) he, hsep⟩

end Leads

end Plan

namespace Code

/-- The calls of a parsed file have arguments and are told apart by their keys. -/
theorem distinct_calls {src : Bytes} {t : Tree} (h : parse? src = some t) :
    CallSite.Distinct (t.allOfKind .callExpression) := by
  refine ⟨fun call hcall => ?_, List.pairwise_map.mpr ?_⟩
  · obtain ⟨hmem, hkind⟩ := List.mem_filter.mp hcall
    have hk : call.kind = .callExpression := by simpa using hkind
    have hformed := parse?_formed anchors_agrees h hmem
    obtain ⟨c, hc, hmark⟩ := hformed.requires (by rw [hk]; rfl) _ (by rw [hk]; rfl)
    have hrole : c.role = some .arguments := congrArg Mark.role (of_decide_eq_true hmark)
    exact Option.isSome_iff_exists.mp (List.find?_isSome.mpr ⟨c, hc, by simpa using hrole⟩)
  · refine (List.Pairwise.and_mem.mp ((parse?_key_ne h).filter _)).imp ?_
    rintro a b ⟨ha, _, hne⟩
    have hk : a.kind = .callExpression := by simpa using (List.mem_filter.mp ha).2
    exact hne (by rw [hk]; rfl)

end Code

namespace FileUpdate

/-- A call that has a hit, or is directed at a name that gains the context and does not carry
it. -/
def Wants (zs : List (Tree × Option (Tree × String))) (names : List String) (call : Tree) : Prop :=
  (∃ hit, (call, some hit) ∈ zs) ∨ CallSite.Awaits names call

theorem augment_calls (u : FileUpdate) (decl : Tree) :
    (u.augment decl).plan = (CallSite.patch (decl.nameText?.getD "") u.file.src u.file.root
      (augmentParams u.file.src decl u.plan).2).2 ∧
      (augmentParams u.file.src decl u.plan).2.calls = u.plan.calls := by
  refine ⟨rfl, ?_⟩
  unfold augmentParams
  split <;> rfl

variable {s : Settings} {u : FileUpdate} {zs : List (Tree × Option (Tree × String))}

theorem awaits_append {names : List String} {name : String} {call : Tree} :
    CallSite.Awaits (names ++ [name]) call ↔
      CallSite.Awaits names call ∨ CallSite.isMissing name call = true := by
  simp only [CallSite.Awaits, CallSite.isMissing, List.mem_append, List.mem_singleton,
    Bool.and_eq_true, decide_eq_true_eq, Bool.not_eq_true']
  constructor
  · rintro ⟨⟨n, hn | rfl, hcallee⟩, hthreaded⟩
    · exact .inl ⟨⟨n, hn, hcallee⟩, hthreaded⟩
    · exact .inr ⟨hcallee, hthreaded⟩
  · rintro (⟨⟨n, hn, hcallee⟩, hthreaded⟩ | ⟨hcallee, hthreaded⟩)
    · exact ⟨⟨n, .inl hn, hcallee⟩, hthreaded⟩
    · exact ⟨⟨name, .inr rfl, hcallee⟩, hthreaded⟩

/-- One more node leaves the calls with what they want. -/
theorem step_leads {f : SourceFile} {z : Tree × Option (Tree × String)}
    (hcalls : CallSite.Distinct (f.root.allOfKind .callExpression)) (hfollows : Follows s f zs u)
    (hits : Hits (zs ++ [z])) (hz : z.1 ∈ f.root.walk)
    (h : u.plan.Leads f.src (f.root.allOfKind .callExpression) (Wants zs u.augmented)) :
    (u.step s z).plan.Leads f.src (f.root.allOfKind .callExpression)
      (Wants (zs ++ [z]) (u.step s z).augmented) := by
  obtain ⟨t, hit⟩ := z
  have hfile := hfollows.file
  subst hfile
  cases hit with
  | some hit =>
    obtain ⟨hkind, _⟩ := hits.call (t, some hit) (by simp) hit rfl
    have hcall : t ∈ u.file.root.allOfKind .callExpression :=
      List.mem_filter.mpr ⟨hz, by simpa⟩
    change (u.retarget t hit).plan.Leads _ _ (Wants _ (u.retarget t hit).augmented)
    rw [retarget_eq u t (hfollows.not_mem_replaced hits)]
    have hplan : Plan.Leads u.file.src (u.file.root.allOfKind .callExpression)
        (Wants zs u.augmented)
        { u.plan with
          plain := u.plan.plain ++ [⟨hit.1.start, hit.1.stop, hit.2⟩]
          replaced := u.plan.replaced ++ [hit.1.key] } := h.congr rfl fun _ _ => Iff.rfl
    refine (hplan.prependContext hcalls hcall).congr rfl fun c _ => ?_
    simp only [Wants, List.mem_append, List.mem_singleton, Prod.mk.injEq, Option.some.injEq]
    constructor
    · rintro ((⟨other, hother⟩ | hawaits) | rfl)
      · exact .inl ⟨other, .inl hother⟩
      · exact .inr hawaits
      · exact .inl ⟨hit, .inr ⟨rfl, rfl⟩⟩
    · rintro (⟨other, hother | ⟨rfl, _⟩⟩ | hawaits)
      · exact .inl (.inl ⟨other, hother⟩)
      · exact .inr rfl
      · exact .inl (.inr hawaits)
  | none =>
    have hsame : ∀ names call, Wants (zs ++ [(t, none)]) names call ↔ Wants zs names call := by
      intro names call
      simp [Wants]
    rw [step_eq]
    cases hseed : Handler.seed? s t with
    | some statement =>
      obtain ⟨_, _, hplan, _, haugmented⟩ := seed_eq u t statement
      refine h.congr hplan fun c _ => ?_
      rw [hsame, haugmented]
    | none =>
      dsimp only
      split
      · obtain ⟨hplan, hparams⟩ := augment_calls u t
        obtain ⟨_, _, _, haugmented⟩ := augment_eq u t
        have hstart := h.congr hparams fun _ _ => Iff.rfl
        rw [hplan, haugmented]
        refine (hstart.patch hcalls _).congr rfl fun c _ => ?_
        rw [hsame, Wants, Wants, awaits_append, or_assoc]
      · exact h.congr rfl fun c _ => (hsame _ _).symm

/-- All nodes one after the other leave the calls with what they want. -/
theorem run_leads {f : SourceFile} {rest : List (Tree × Option (Tree × String))}
    (hcalls : CallSite.Distinct (f.root.allOfKind .callExpression)) (hfollows : Follows s f zs u)
    (hits : Hits (zs ++ rest)) (hrest : ∀ z ∈ rest, z.1 ∈ f.root.walk)
    (h : u.plan.Leads f.src (f.root.allOfKind .callExpression) (Wants zs u.augmented)) :
    (rest.foldl (step s) u).plan.Leads f.src (f.root.allOfKind .callExpression)
      (Wants (zs ++ rest) (rest.foldl (step s) u).augmented) := by
  induction rest generalizing zs u with
  | nil => rwa [List.append_nil]
  | cons z rest ih =>
    have hsplit : zs ++ z :: rest = (zs ++ [z]) ++ rest := by simp
    rw [hsplit] at hits ⊢
    exact ih (hfollows.step hits.front) hits (fun y hy => hrest y (List.mem_cons_of_mem z hy))
      (step_leads hcalls hfollows hits.front (hrest z List.mem_cons_self) h)

/-- The leading arguments planned for a file. The import adds none. -/
theorem planned_leads (s : Settings) {f : SourceFile} {hits : List (Option (Tree × String))}
    (hcalls : CallSite.Distinct (f.root.allOfKind .callExpression))
    (h : Hits (f.root.walk.zip hits)) :
    (planned s f hits).finish.plan.Leads f.src (f.root.allOfKind .callExpression)
      (Wants (f.root.walk.zip hits) (planned s f hits).finish.augmented) := by
  have hfollows : Follows s f [] { file := f } := ⟨rfl, rfl, rfl, rfl⟩
  have hstart : ({} : Plan).Leads f.src (f.root.allOfKind .callExpression) (Wants [] []) :=
    ⟨List.nodup_nil, by simp, by simp [Wants, CallSite.Awaits]⟩
  have hrun : (planned s f hits).plan.Leads f.src (f.root.allOfKind .callExpression)
      (Wants (f.root.walk.zip hits) (planned s f hits).augmented) :=
    run_leads hcalls hfollows h (fun z hz => (List.of_mem_zip hz).1) hstart
  obtain ⟨_, haugmented, _, hplan⟩ := finish_eq (planned s f hits)
  rw [hplan, haugmented]
  exact hrun.congr rfl fun _ _ => Iff.rfl

/-- What the plan of a file does with its calls and declarations, where `zs` are its nodes with
their hits. -/
structure Threads (s : Settings) (f : SourceFile) (zs : List (Tree × Option (Tree × String)))
    (u : FileUpdate) : Prop where
  /-- A call gains the context exactly if it has a hit, or is directed at a name that gains it and
  does not carry it. -/
  gains : ∀ call ∈ f.root.allOfKind .callExpression,
    (∃ e, (call.key, e) ∈ u.plan.calls) ↔
      (∃ hit, (call, some hit) ∈ zs) ∨ CallSite.Awaits u.augmented call
  /-- No call gains it twice. -/
  once : (u.plan.calls.map (·.1)).Nodup ∧
    ((f.root.allOfKind .callExpression).map (·.key)).Nodup
  /-- Every call gains it right after its parenthesis, separated from the arguments it has. -/
  placed : ∀ entry ∈ u.plan.calls, ∃ call ∈ f.root.allOfKind .callExpression, ∃ list sep,
    call.child? .arguments = some list ∧ f.src[list.start]? = some 0x28 ∧
      entry = (call.key, ⟨list.start + 1, list.start + 1, "ctx" ++ sep⟩) ∧
      Separates f.src list list.items sep
  /-- Hits are calls of methods in the tables, and no two have the same name node. -/
  hits : Hits zs
  /-- Every node plans its own edits: a hit the new name of its method, a declaration its first
  parameter, a handler its first statement. -/
  plain : u.plan.plain =
    zs.flatMap (ownEdits s f.src) ++ if u.changed then ContextImport.edits f else []
  renames : ∀ call field variant, (call, some (field, variant)) ∈ zs →
    (field.text, variant) ∈ Retarget.methods ∧
      ownEdits s f.src (call, some (field, variant)) = [⟨field.start, field.stop, variant⟩]
  /-- A declaration that gains the context gains it once, right after its parenthesis, separated
  from the parameters it has. -/
  parameters : ∀ decl ∈ f.root.walk, Handler.isAugmented s decl = true →
    ∃ list sep, decl.child? .parameters = some list ∧ f.src[list.start]? = some 0x28 ∧
      ownEdits s f.src (decl, none) =
        [⟨list.start + 1, list.start + 1, "ctx context.Context" ++ sep⟩] ∧
      Separates f.src list list.paramDecls sep
  /-- The names of these declarations, in source order. -/
  augmented : u.augmented =
    (f.root.walk.filter (Handler.isAugmented s)).map (·.nameText?.getD "")
  /-- These are all the edits that are planned. -/
  edits : u.plan.edits = u.plan.plain ++ u.plan.calls.map (·.2)

theorem ownEdits_of_isAugmented {decl list : Tree} (h : Handler.isAugmented s decl = true)
    (hlist : decl.child? .parameters = some list) (src : Bytes) :
    ownEdits s src (decl, none) =
      [leadingItem src list list.paramDecls Naming.contextParameter] := by
  have hseed : Handler.seed? s decl = none := by
    by_contra hseed
    obtain ⟨statement, hstatement⟩ := Option.ne_none_iff_exists'.mp hseed
    rw [isAugmented_of_seed? hstatement] at h
    cases h
  simp [ownEdits, hseed, Handler.parameterEdits, h, hlist]

end FileUpdate

/-- A file in which a call is a hit and directed at an augmented name at once, calls stand before
and after the declarations they are directed at, and two methods share a name. -/
def crossedCalls : Bytes := Bytes.ofString <|
  "package p\n\nimport \"database/sql\"\n\nvar d *sql.DB\n\n" ++
  "func g() \x7b f(d.Exec(f())) \x7d\nfunc f() \x7b g(); t.Exec(ctx) \x7d\n" ++
  "func (T) Exec() \x7b\x7d\nfunc (U) Exec() \x7b t.Exec() \x7d\n"

section File

variable {path : Path} {src : Bytes} {f : SourceFile} {env : Env} {s : Settings} {i : Nat}
  {m m' : Memo} {u : FileUpdate}

/-- The plan of a file that parses, in every package and under all settings, threads the context:
exactly the calls that have a hit or are directed at an augmented name, and do not carry the
context, gain it, once and right after their parenthesis; every hit has its method name replaced
once; and every declaration that is augmented gains one parameter. -/
theorem updateFile_threads (hf : SourceFile.read? path src = some f)
    (hu : updateFile env s i f m = some (u, m')) :
    u.file = f ∧ ∃ hits, (Site.root f.root).walk.mapM (Retarget.hitAt env i) m = some (hits, m') ∧
      hits.length = f.root.walk.length ∧ u.Threads s f (f.root.walk.zip hits) := by
  obtain ⟨root, hparse, rfl⟩ := Option.map_eq_some_iff.mp hf
  have hroot := Code.parse?_laid hparse
  obtain ⟨hits, hhits, rfl⟩ := updateFile_eq_some.mp hu
  obtain ⟨hlen, hspec⟩ := FileUpdate.hits_of_laid hroot hhits
  have hcalls := Code.distinct_calls hparse
  have hfollows := FileUpdate.planned_follows s hspec
  have hleads := FileUpdate.planned_leads s hcalls hspec
  obtain ⟨hfile, haugmented, _⟩ :=
    FileUpdate.finish_eq (FileUpdate.planned s ⟨path, src, root⟩ hits)
  refine ⟨hfile.trans hfollows.file, hits, hhits, hlen, hleads.exact, ⟨hleads.nodup, hcalls.keys⟩,
    hleads.exists_placed hroot, hspec, FileUpdate.planned_plain s hspec, ?_, ?_, ?_, rfl⟩
  · intro call field variant hmem
    obtain ⟨hkind, hhit⟩ := hspec.call _ hmem _ rfl
    exact ⟨hhit.mem, (FileUpdate.step_call rfl hkind src).1⟩
  · intro decl hdecl haug
    have hkind : decl.kind.isFuncDecl = true := (Bool.and_eq_true_iff.mp haug).1
    obtain ⟨list, hlist⟩ := (hroot.of_mem_walk hdecl).exists_parameters hkind
    obtain ⟨hlaid, hadmits⟩ := child_laid (hroot.of_mem_walk hdecl) hlist
    have hopen := hlaid.opens_paren (.inl (by simpa [Code.Role.admits] using hadmits))
    obtain ⟨sep, he, hsep⟩ := leadingItem_eq src list list.paramDecls Naming.contextParameter
    refine ⟨list, sep, hlist, hopen, ?_, hsep⟩
    exact (FileUpdate.ownEdits_of_isAugmented haug hlist src).trans (congrArg List.singleton he)
  · rw [haugmented, hfollows.augmented]
    nth_rewrite 2 [← List.map_fst_zip hlen.ge]
    rw [List.filter_map, List.map_map]
    rfl

/-- In the file with crossed calls all four declarations gain a parameter, and of the six calls all
but the one that carries the context gain an argument. -/
theorem updateFile_threads_crossedCalls :
    ∃ f u m', SourceFile.read? ⟨"", ["c.go"]⟩ crossedCalls = some f ∧
      updateFile (.ofPackage ⟨"p", [f]⟩) {} 0 f {} = some (u, m') ∧
      u.augmented = ["g", "f", "Exec", "Exec"] ∧ u.renamed = 1 ∧ u.plan.calls.length = 5 ∧
      ∃ hits, (Site.root f.root).walk.mapM (Retarget.hitAt (.ofPackage ⟨"p", [f]⟩) 0) {} =
          some (hits, m') ∧ u.Threads {} f (f.root.walk.zip hits) := by
  have h : ((SourceFile.read? ⟨"", ["c.go"]⟩ crossedCalls).bind fun f =>
      (updateFile (.ofPackage ⟨"p", [f]⟩) {} 0 f {}).map fun r =>
        (r.1.augmented, r.1.renamed, r.1.plan.calls.length)) =
      some (["g", "f", "Exec", "Exec"], 1, 5) := by
    decide +kernel
  obtain ⟨f, hf, h⟩ := Option.bind_eq_some_iff.mp h
  obtain ⟨⟨u, m'⟩, hu, hcounts⟩ := Option.map_eq_some_iff.mp h
  simp only [Prod.mk.injEq] at hcounts
  obtain ⟨haugmented, hrenamed, hcalls⟩ := hcounts
  obtain ⟨_, hits, hhits, _, hthreads⟩ := updateFile_threads hf hu
  exact ⟨f, u, m', hf, hu, haugmented, hrenamed, hcalls, hits, hhits, hthreads⟩

end File

end CtxThread
