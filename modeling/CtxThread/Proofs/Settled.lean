import CtxThread.Proofs.Output

/-!
# Files that stay as they are

A pass over a file leaves it alone exactly if there is nothing left to do: every declaration that
the package itself calls has its context, every handler starts by binding it, and no database call
is left that has a variant with a context. A first pass need not leave a file of this kind: what it
adds may end up in a comment.

## Main definitions

- `Handler.Ready`: a function of which nothing is missing
- `Retarget.hits`: the database calls of a file that are to be directed at another method
- `Settled`: a file of which nothing is missing
- `pass`: the text of a file after a pass over it

## Main statements

- `updateFile_of_settled`, `settled_of_unchanged`: a pass plans nothing exactly for settled files
- `pass_eq_self_iff`: when a pass leaves a text as it is
- `pass_pass_ne_commentedHandler`: a handler for which two passes are not as good as one
-/

namespace CtxThread

open Code (Tree Site)

/-- A function that starts with the statement, if it has a body. -/
def Seed.Starts (src : Bytes) (func : Tree) (statement : String) : Prop :=
  ∀ body, func.child? .body = some body → isSeeded src body.statements statement = true

/-- A function of which nothing is missing: a declaration has its context, and a handler starts by
binding it. -/
structure Handler.Ready (s : Settings) (src : Bytes) (func : Tree) : Prop where
  threaded : func.kind.isFuncDecl = true → gainsContext s func = false
  http : func.kind.isFuncDecl = true → isHttp s func = true →
    Seed.Starts src func Naming.httpSeed
  echo : func.kind.isFunc = true → isEcho s func = true →
    Seed.Starts src func Naming.echoSeed

/-- The hit of a node, if it is a call. -/
def Retarget.hitAt (env : Env) (file : Nat) (site : Site) : Resolving (Option (Tree × String)) :=
  if site.node.kind = .callExpression then hit env ⟨file, site⟩ else return none

/-- The hits among the nodes of a file, found one after the other. -/
def Retarget.hits (env : Env) (file : Nat) : List Site → Resolving (List (Tree × String))
  | [] => return []
  | site :: sites => do
    let here ← hitAt env file site
    return here.toList ++ (← hits env file sites)

/-- A file of which nothing is missing. Its calls are looked at from the memo `m` on, and leave
the memo `m'`. -/
structure Settled (env : Env) (s : Settings) (i : Nat) (f : SourceFile) (m m' : Memo) : Prop where
  funcs : ∀ t ∈ f.root.walk, Handler.Ready s f.src t
  calls : Retarget.hits env i (Site.root f.root).walk m = some ([], m')

/-! ## Plans that stay empty -/

namespace Plan

variable {src : Bytes} {p p' : Plan}

theorem edits_eq_nil_iff (p : Plan) : p.edits = [] ↔ p.plain = [] ∧ p.calls = [] := by
  simp [edits]

theorem Inserts.edits_eq_nil (h : Inserts src p p') (h' : p'.edits = []) : p.edits = [] := by
  obtain ⟨plain, calls, hplain, hcalls, _⟩ := h
  rw [edits, hplain, hcalls] at h'
  simp only [List.append_eq_nil_iff] at h'
  rw [edits, h'.1.1, h'.2.1, List.append_nil]

/-- What belongs to a node is never nothing. -/
theorem Replaces.edits_ne_nil {t : Tree} (h : Replaces src t p p') : p'.edits ≠ [] := by
  obtain ⟨new, hplain, _, _, _, e, he, _⟩ := h
  apply List.ne_nil_of_mem (a := e)
  rw [edits, hplain]
  simp [he]

theorem Visits.edits_eq_nil {t : Tree} (h : Visits src t p p') (h' : p'.edits = []) :
    p.edits = [] := by
  obtain ⟨a, b, hins, hmiddle, hins'⟩ := h
  have hb := hins'.edits_eq_nil h'
  rcases hmiddle with rfl | hrep
  · exact hins.edits_eq_nil hb
  · exact absurd hb hrep.edits_ne_nil

end Plan

namespace FileUpdate

variable {u : FileUpdate}

theorem seed_of_starts {func : Tree} {statement : String}
    (h : Seed.Starts u.file.src func statement) : u.seed func statement = u := by
  unfold seed Seed.plan
  cases hbody : func.child? .body with
  | none => rfl
  | some body =>
    dsimp only
    rw [if_pos (h body hbody)]

/-- If a body is not seeded, something is planned for it. -/
theorem starts_of_seed {func : Tree} (hfunc : func.Laid u.file.src) {statement : String}
    (hstatement : statement ∈ [Naming.httpSeed, Naming.echoSeed])
    (h : (u.seed func statement).plan.edits = []) : Seed.Starts u.file.src func statement := by
  intro body hbody
  by_contra hseeded
  obtain ⟨hlaid, hkind⟩ := Seed.body_laid hfunc hbody
  have hadds : ∃ e ∈ Seed.edits u.file.src func body statement, e.Adds u.file.src :=
    Seed.edits_adds hlaid hkind (seed_substance statement hstatement)
  obtain ⟨e, he, _⟩ := hadds
  unfold seed Seed.plan at h
  rw [hbody] at h
  dsimp only at h
  rw [if_neg hseeded] at h
  have hplain := ((Plan.edits_eq_nil_iff _).mp h).1
  exact List.ne_nil_of_mem he (List.append_eq_nil_iff.mp hplain).2

/-- A declaration that gains its context gains a parameter. -/
theorem augment_edits_ne_nil {decl : Tree} (hroot : u.file.root.Laid u.file.src)
    (hdecl : decl.Laid u.file.src) (hkind : decl.kind.isFuncDecl = true) :
    (u.augment decl).plan.edits ≠ [] := by
  intro h
  obtain ⟨list, hlist⟩ := hdecl.exists_parameters hkind
  have hparams := (CallSite.patch_inserts hroot _ _).edits_eq_nil h
  unfold augmentParams at hparams
  rw [hlist] at hparams
  have hplain := ((Plan.edits_eq_nil_iff _).mp hparams).1
  exact List.cons_ne_nil _ _ (List.append_eq_nil_iff.mp hplain).2

theorem declaration_of_settled {s : Settings} {decl : Tree} (hkind : decl.kind.isFuncDecl = true)
    (h : Handler.Ready s u.file.src decl) : u.declaration s decl = u := by
  have hfunc : decl.kind.isFunc = true := by simp [Code.Kind.isFunc, hkind]
  rw [declaration_eq, h.threaded hkind]
  split
  · next hhttp => exact seed_of_starts (h.http hkind hhttp)
  · split
    · next hecho => exact seed_of_starts (h.echo hfunc hecho)
    · rfl

theorem settled_of_declaration {s : Settings} {decl : Tree} (hroot : u.file.root.Laid u.file.src)
    (hdecl : decl.Laid u.file.src) (hkind : decl.kind.isFuncDecl = true)
    (h : (u.declaration s decl).plan.edits = []) :
    Handler.Ready s u.file.src decl ∧ u.declaration s decl = u := by
  have hsettled : Handler.Ready s u.file.src decl := by
    rw [declaration_eq] at h
    split at h
    · next hhttp =>
      have hgains : Handler.gainsContext s decl = false := by simp [Handler.gainsContext, hhttp]
      have hecho := isEcho_eq_false_of_isHttp hhttp
      exact ⟨fun _ => hgains, fun _ _ => starts_of_seed hdecl (by simp) h,
        fun _ h' => by rw [hecho] at h'; cases h'⟩
    · next hhttp =>
      split at h
      · next hecho =>
        have hgains : Handler.gainsContext s decl = false := by simp [Handler.gainsContext, hecho]
        exact ⟨fun _ => hgains, fun _ h' => absurd h' hhttp,
          fun _ _ => starts_of_seed hdecl (by simp) h⟩
      · next hecho =>
        split at h
        · exact absurd h (augment_edits_ne_nil hroot hdecl hkind)
        · next hgains =>
          exact ⟨fun _ => Bool.eq_false_of_not_eq_true hgains, fun _ h' => absurd h' hhttp,
            fun _ h' => absurd h' hecho⟩
  exact ⟨hsettled, declaration_of_settled hkind hsettled⟩

/-- A call that has a hit is directed at another method. -/
theorem retarget_edits_ne_nil {f : SourceFile} {call : Tree} (hcall : call.Laid f.src)
    (hit : Tree × String) :
    (({ file := f } : FileUpdate).retarget call hit).plan.edits ≠ [] := by
  intro h
  have hfirst := (Plan.prependContext_inserts hcall _).edits_eq_nil h
  exact List.cons_ne_nil _ _ ((Plan.edits_eq_nil_iff _).mp hfirst).1

theorem visit_of_settled {env : Env} {s : Settings} {i : Nat} {site : Site} {m m' : Memo}
    (hfunc : Handler.Ready s u.file.src site.node)
    (hhit : Retarget.hitAt env i site m = some (none, m')) :
    visit env s i u site m = some (u, m') := by
  unfold Retarget.hitAt at hhit
  unfold visit
  split at hhit
  · next hcall =>
    rw [if_pos hcall]
    exact Resolving.bind_eq_some.mpr ⟨none, m', hhit, rfl⟩
  · next hcall =>
    cases Resolving.pure_eq_some.mp hhit
    rw [if_neg hcall]
    split
    · next hdecl => rw [declaration_of_settled hdecl hfunc]; rfl
    · split
      · next hliteral =>
        rw [Bool.and_eq_true, decide_eq_true_eq] at hliteral
        have hkind : site.node.kind.isFunc = true := by simp [Code.Kind.isFunc, hliteral.1]
        rw [seed_of_starts (hfunc.echo hkind hliteral.2)]
        rfl
      · rfl

/-- A visit that plans nothing has come to a node of which nothing is missing. -/
theorem settled_of_visit {env : Env} {s : Settings} {i : Nat} {f : SourceFile} {site : Site}
    {m m' : Memo} {u' : FileUpdate} (hroot : f.root.Laid f.src) (hsite : site.node.Laid f.src)
    (h : visit env s i { file := f } site m = some (u', m')) (hnil : u'.plan.edits = []) :
    Handler.Ready s f.src site.node ∧ Retarget.hitAt env i site m = some (none, m') ∧
      u' = { file := f } := by
  unfold Retarget.hitAt
  unfold visit at h
  split at h
  · next hcall =>
    rw [if_pos hcall]
    obtain ⟨hit, m₁, hhit, h⟩ := Resolving.bind_eq_some.mp h
    cases hit with
    | none =>
      cases Resolving.pure_eq_some.mp h
      -- a call is no function, so nothing is asked of it
      refine ⟨⟨?_, ?_, ?_⟩, hhit, rfl⟩
      all_goals
        rw [hcall]
        intro hk
        cases hk
    | some hit =>
      cases Resolving.pure_eq_some.mp h
      exact absurd hnil (retarget_edits_ne_nil hsite hit)
  · next hcall =>
    rw [if_neg hcall]
    split at h
    · next hdecl =>
      cases Resolving.pure_eq_some.mp h
      obtain ⟨hsettled, heq⟩ :=
        settled_of_declaration (u := { file := f }) hroot hsite hdecl hnil
      exact ⟨hsettled, rfl, heq⟩
    · next hdecl =>
      split at h
      · next hliteral =>
        cases Resolving.pure_eq_some.mp h
        have hstarts := starts_of_seed (u := { file := f }) hsite (by simp) hnil
        refine ⟨⟨fun h => absurd h hdecl, fun h => absurd h hdecl, fun _ _ => hstarts⟩, rfl, ?_⟩
        exact seed_of_starts hstarts
      · next hliteral =>
        cases Resolving.pure_eq_some.mp h
        refine ⟨⟨fun h => absurd h hdecl, fun h => absurd h hdecl, fun hfunc hecho => ?_⟩, rfl,
          rfl⟩
        exact absurd (by simpa [Code.Kind.isFunc, hdecl, hecho] using hfunc) hliteral

/-- A walk that ends with nothing planned has planned nothing before. -/
theorem walk_edits_eq_nil {env : Env} {s : Settings} {i : Nat} {sites : List Site} {m m' : Memo}
    {u' : FileUpdate} (hroot : u.file.root.Laid u.file.src)
    (hsites : ∀ site ∈ sites, site.node.Laid u.file.src)
    (h : sites.foldlM (visit env s i) u m = some (u', m')) (hnil : u'.plan.edits = []) :
    u.plan.edits = [] := by
  induction sites generalizing u m with
  | nil =>
    cases Resolving.pure_eq_some.mp h
    exact hnil
  | cons site sites ih =>
    obtain ⟨v, m₁, hvisit, hrest⟩ := Resolving.bind_eq_some.mp h
    obtain ⟨hfile, hvisits⟩ := visit_visits hroot (hsites site List.mem_cons_self) hvisit
    rw [← hfile] at hroot hsites
    exact hvisits.edits_eq_nil
      (ih hroot (fun t ht => hsites t (List.mem_cons_of_mem site ht)) hrest)

/-- A walk over nodes of which nothing is missing plans nothing. -/
theorem walk_of_settled {env : Env} {s : Settings} {i : Nat} {sites : List Site} {m m' : Memo}
    (hfuncs : ∀ site ∈ sites, Handler.Ready s u.file.src site.node)
    (hcalls : Retarget.hits env i sites m = some ([], m')) :
    sites.foldlM (visit env s i) u m = some (u, m') := by
  induction sites generalizing m with
  | nil =>
    cases Resolving.pure_eq_some.mp hcalls
    rfl
  | cons site sites ih =>
    obtain ⟨here, m₁, hhere, hcalls⟩ := Resolving.bind_eq_some.mp hcalls
    obtain ⟨rest, m₂, hrest, heq⟩ := Resolving.bind_eq_some.mp hcalls
    have hnil := Resolving.pure_eq_some.mp heq
    simp only [Prod.mk.injEq, List.nil_eq, List.append_eq_nil_iff] at hnil
    obtain ⟨⟨hhere', rfl⟩, rfl⟩ := hnil
    have hnone : here = none := by simpa using hhere'
    subst hnone
    have hvisit := visit_of_settled (hfuncs site List.mem_cons_self) hhere
    rw [List.foldlM_cons]
    exact Resolving.bind_eq_some.mpr ⟨u, m₁, hvisit,
      ih (fun t ht => hfuncs t (List.mem_cons_of_mem site ht)) hrest⟩

/-- A walk that plans nothing has come to nodes of which nothing is missing. -/
theorem settled_of_walk {env : Env} {s : Settings} {i : Nat} {f : SourceFile} {sites : List Site}
    {m m' : Memo} {u' : FileUpdate} (hroot : f.root.Laid f.src)
    (hsites : ∀ site ∈ sites, site.node.Laid f.src)
    (h : sites.foldlM (visit env s i) { file := f } m = some (u', m'))
    (hnil : u'.plan.edits = []) :
    (∀ site ∈ sites, Handler.Ready s f.src site.node) ∧
      Retarget.hits env i sites m = some ([], m') ∧ u' = { file := f } := by
  induction sites generalizing m with
  | nil =>
    cases Resolving.pure_eq_some.mp h
    exact ⟨by simp, rfl, rfl⟩
  | cons site sites ih =>
    obtain ⟨v, m₁, hvisit, hrest⟩ := Resolving.bind_eq_some.mp h
    have hsite := hsites site List.mem_cons_self
    have hsites' : ∀ t ∈ sites, t.node.Laid f.src :=
      fun t ht => hsites t (List.mem_cons_of_mem site ht)
    obtain ⟨hfile, _⟩ := visit_visits (u := { file := f }) hroot hsite hvisit
    -- nothing is planned in the end, so nothing was planned at this node
    have hv : v.plan.edits = [] := by
      apply walk_edits_eq_nil _ _ hrest hnil
      · rw [hfile]
        exact hroot
      · rw [hfile]
        exact hsites'
    obtain ⟨hsettled, hhit, rfl⟩ := settled_of_visit hroot hsite hvisit hv
    obtain ⟨hfuncs, hhits, hu'⟩ := ih hsites' hrest
    refine ⟨?_, ?_, hu'⟩
    · intro t ht
      rcases List.mem_cons.mp ht with rfl | ht
      · exact hsettled
      · exact hfuncs t ht
    · exact Resolving.bind_eq_some.mpr ⟨none, m₁, hhit,
        Resolving.bind_eq_some.mpr ⟨[], m', hhits, rfl⟩⟩

end FileUpdate

/-! ## Whole files -/

section File

variable {env : Env} {s : Settings} {i : Nat} {f : SourceFile} {m m' : Memo}

/-- A pass over a file of which nothing is missing plans nothing. -/
theorem updateFile_of_settled (h : Settled env s i f m m') :
    updateFile env s i f m = some ({ file := f }, m') := by
  have hfuncs : ∀ site ∈ (Site.root f.root).walk, Handler.Ready s f.src site.node :=
    fun site hsite => h.funcs site.node (Tree.node_mem_walk hsite)
  have hwalk := FileUpdate.walk_of_settled (u := { file := f }) hfuncs h.calls
  exact Resolving.bind_eq_some.mpr ⟨_, m', hwalk, rfl⟩

/-- Nothing is missing of a file that a pass does not change. -/
theorem settled_of_unchanged {u : FileUpdate} (hroot : f.root.Laid f.src)
    (hu : updateFile env s i f m = some (u, m')) (hchanged : u.changed = false) :
    Settled env s i f m m' := by
  obtain ⟨v, m₁, hwalk, hfinish⟩ := Resolving.bind_eq_some.mp hu
  cases Resolving.pure_eq_some.mp hfinish
  have hstart : ({ file := f } : FileUpdate).plan.Sound f.src (([] : List Site).map (·.node)) :=
    .empty f.src
  obtain ⟨hfile, hsound⟩ :=
    FileUpdate.walk_sound hroot (List.nil_append _).symm rfl hstart hwalk
  rw [← hfile] at hsound
  -- the import is planned only after a change, so the walk has planned nothing
  have hv : v.plan.edits = [] := by
    by_contra hne
    rw [(FileUpdate.finish_sound hsound).2.2, FileUpdate.changed,
      (Plan.isChange_iff _).mpr hne] at hchanged
    cases hchanged
  have hsites : ∀ site ∈ (Site.root f.root).walk, site.node.Laid f.src :=
    fun site hsite => hroot.of_mem_walk (Tree.node_mem_walk hsite)
  obtain ⟨hfuncs, hcalls, _⟩ := FileUpdate.settled_of_walk hroot hsites hwalk hv
  refine ⟨fun t ht => ?_, hcalls⟩
  obtain ⟨site, hsite, rfl⟩ := List.mem_map.mp ht
  exact hfuncs site hsite

end File

/-- The text of a file after a pass over it, if it parses. -/
def pass (path : Path) (s : Settings) (src : Bytes) : Option Bytes :=
  (SourceFile.read? path src).bind fun f => (updateSource f s).bind Except.toOption

theorem updateSource_eq (f : SourceFile) (s : Settings) :
    updateSource f s =
      (updateFile (.ofPackage ⟨f.packageName, [f]⟩) s 0 f {}).map (·.1.output) := by
  have hchosen : ([f].zipIdx.filter fun g => isSelected [] g.1) = [(f, 0)] := rfl
  unfold updateSource updatePackage
  dsimp only
  rw [hchosen, List.mapM_cons, List.mapM_nil]
  change Option.bind (Option.map _ (Option.bind
    (updateFile (.ofPackage ⟨f.packageName, [f]⟩) s 0 f {}) _)) _ = _
  cases updateFile (.ofPackage ⟨f.packageName, [f]⟩) s 0 f {} with
  | none => rfl
  | some r => rfl

/-- A pass leaves a text as it is exactly if nothing is missing of it. -/
theorem pass_eq_self_iff {path : Path} {s : Settings} {src : Bytes} :
    pass path s src = some src ↔ ∃ f m, SourceFile.read? path src = some f ∧
      Settled (.ofPackage ⟨f.packageName, [f]⟩) s 0 f {} m := by
  unfold pass
  constructor
  · intro h
    obtain ⟨f, hf, h⟩ := Option.bind_eq_some_iff.mp h
    obtain ⟨rfl, hroot⟩ := SourceFile.read?_laid hf
    obtain ⟨output, houtput, hsrc⟩ := Option.bind_eq_some_iff.mp h
    rw [updateSource_eq] at houtput
    obtain ⟨⟨u, m⟩, hu, rfl⟩ := Option.map_eq_some_iff.mp houtput
    obtain ⟨hfile, hsound⟩ := updateFile_sound hroot hu
    rw [← hfile] at hsound
    have hout : u.output = .ok u.file.src := by
      cases hres : u.output with
      | error e =>
        rw [hres] at hsrc
        cases hsrc
      | ok out =>
        rw [hres] at hsrc
        rw [hfile, ← Option.some.inj hsrc]
    -- a change would have left another text
    have hchanged : u.changed = false := by
      by_contra hchanged
      exact (FileUpdate.changed_iff_output_ne hsound hout).mp
        (Bool.eq_true_of_not_eq_false hchanged) rfl
    exact ⟨f, m, hf, settled_of_unchanged hroot hu hchanged⟩
  · rintro ⟨f, m, hf, hsettled⟩
    obtain ⟨rfl, _⟩ := SourceFile.read?_laid hf
    rw [hf, Option.bind_some, updateSource_eq, updateFile_of_settled hsettled, Option.map_some,
      FileUpdate.output_of_unchanged rfl]
    rfl

/-- A handler whose body opens with a comment that goes on after the line. -/
def commentedHandler : Bytes := Bytes.ofString <|
  "package a\n\nimport \"net/http\"\n\n" ++
  "func h(w http.ResponseWriter, r *http.Request) \x7b /* x\n*/\n\x7d\n"

/-- The statement that binds the context ends up in the comment, so it is planned once more. -/
theorem pass_pass_ne_commentedHandler :
    ∃ out again, pass ⟨"", ["a.go"]⟩ {} commentedHandler = some out ∧
      pass ⟨"", ["a.go"]⟩ {} out = some again ∧ again ≠ out := by
  have h : ((pass ⟨"", ["a.go"]⟩ {} commentedHandler).bind fun out =>
      (pass ⟨"", ["a.go"]⟩ {} out).map fun again => decide (again ≠ out)) = some true := by
    decide +kernel
  obtain ⟨out, hout, h⟩ := Option.bind_eq_some_iff.mp h
  obtain ⟨again, hagain, hne⟩ := Option.map_eq_some_iff.mp h
  exact ⟨out, again, hout, hagain, of_decide_eq_true hne⟩

end CtxThread
