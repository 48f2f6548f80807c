import CtxThread.Proofs.Code.Parse
import CtxThread.Proofs.Retarget
import CtxThread.Proofs.Seed
import CtxThread.Update

/-!
# What is planned for a file

One visit of a node plans insertions next to guards and at most one set of replacements, which
belong to the node. A walk visits every node once, so the edits that a whole walk plans stand
apart, and as soon as anything is planned, something is gained.

## Main definitions

- `Plan.Inserts`, `Plan.Replaces`: what is planned in one go
- `Plan.Visits`: what a visit of a node plans
- `Plan.Sound`: a plan after the visits of some nodes

## Main statements

- `FileUpdate.visit_visits`: what a visit does
- `FileUpdate.walk_sound`: what a walk leads to
- `updateFile_sound`: what is planned for a file
-/

namespace CtxThread

open Code (Tree Site)

namespace Plan

/-- The second plan has, besides what the first has, insertions next to guards, each of which
gains something. -/
def Inserts (src : Bytes) (p p' : Plan) : Prop :=
  ∃ plain calls, p'.plain = p.plain ++ plain ∧
    p'.calls.map (·.2) = p.calls.map (·.2) ++ calls ∧
    ∀ e ∈ plain ++ calls, e.Guarded src ∧ e.Adds src

/-- The second plan has, besides what the first has, edits that belong to the node `m`, one of
which gains something. -/
def Replaces (src : Bytes) (m : Tree) (p p' : Plan) : Prop :=
  ∃ new, p'.plain = p.plain ++ new ∧ p'.calls = p.calls ∧
    (∀ e ∈ new, e.Guarded src ∨ e.Owned src m) ∧ new.Pairwise Edit.Apart ∧
    ∃ e ∈ new, e.Adds src

/-- What a visit of the node `m` plans: insertions, and edits that belong to the node at most
once. -/
def Visits (src : Bytes) (m : Tree) (p p' : Plan) : Prop :=
  ∃ a b, Inserts src p a ∧ (b = a ∨ Replaces src m a b) ∧ Inserts src b p'

namespace Inserts

variable {src : Bytes} {p p' p'' : Plan}

theorem refl (src : Bytes) (p : Plan) : Inserts src p p :=
  ⟨[], [], by simp, by simp, by simp⟩

theorem trans (h : Inserts src p p') (h' : Inserts src p' p'') : Inserts src p p'' := by
  obtain ⟨plain, calls, hplain, hcalls, hmem⟩ := h
  obtain ⟨plain', calls', hplain', hcalls', hmem'⟩ := h'
  refine ⟨plain ++ plain', calls ++ calls', ?_, ?_, ?_⟩
  · rw [hplain', hplain, List.append_assoc]
  · rw [hcalls', hcalls, List.append_assoc]
  · intro e he
    simp only [List.mem_append] at he hmem hmem'
    rcases he with (he | he) | he | he
    · exact hmem e (.inl he)
    · exact hmem' e (.inl he)
    · exact hmem e (.inr he)
    · exact hmem' e (.inr he)

theorem visits (h : Inserts src p p') (m : Tree) : Visits src m p p' :=
  ⟨p', p', h, .inl rfl, refl src p'⟩

end Inserts

theorem Visits.refl (src : Bytes) (m : Tree) (p : Plan) : Visits src m p p :=
  (Inserts.refl src p).visits m

/-- The plan after the visits of the nodes `done`. -/
structure Sound (src : Bytes) (done : List Tree) (p : Plan) : Prop where
  calls : ∀ e ∈ p.calls.map (·.2), e.Guarded src
  plain : ∀ e ∈ p.plain, e.Guarded src ∨ ∃ m ∈ done, e.Owned src m
  apart : p.plain.Pairwise Edit.Apart
  adds : p.edits ≠ [] → ∃ e ∈ p.edits, e.Adds src

theorem isChange_iff (p : Plan) : p.isChange = true ↔ p.edits ≠ [] := by
  have hlen : p.edits.length = p.size := by simp [edits, size]
  rw [isChange, decide_eq_true_eq, ← hlen, ne_eq, List.length_eq_zero_iff]

namespace Sound

variable {src : Bytes} {done : List Tree} {p p' : Plan}

theorem empty (src : Bytes) : Sound src [] {} where
  calls := by simp
  plain := by simp
  apart := List.Pairwise.nil
  adds := by simp [edits]

theorem mono (h : Sound src done p) {done' : List Tree} (hsub : done ⊆ done') :
    Sound src done' p where
  calls := h.calls
  plain e he := (h.plain e he).imp_right fun ⟨m, hm, howned⟩ => ⟨m, hsub hm, howned⟩
  apart := h.apart
  adds := h.adds

/-- An insertion next to a guard stands apart from all that is planned. -/
theorem apart_guarded (h : Sound src done p) {e g : Edit} (he : e ∈ p.plain)
    (hg : g.Guarded src) : e.Apart g := by
  rcases h.plain e he with hguarded | ⟨m, _, howned⟩
  · exact hguarded.apart_guarded hg
  · exact (hg.apart_quiet howned.quiet).symm

theorem append_guarded (h : Sound src done p) {gs : List Edit}
    (hgs : ∀ g ∈ gs, g.Guarded src) : (p.plain ++ gs).Pairwise Edit.Apart := by
  refine List.pairwise_append.mpr ⟨h.apart, ?_, ?_⟩
  · exact List.pairwise_of_forall_mem_list fun a ha b hb =>
      (hgs a ha).apart_guarded (hgs b hb)
  · exact fun e he g hg => h.apart_guarded he (hgs g hg)

/-- Insertions keep a plan sound. -/
theorem inserts (h : Sound src done p) (hins : Inserts src p p') : Sound src done p' := by
  obtain ⟨plain, calls, hplain, hcalls, hmem⟩ := hins
  have hmemPlain : ∀ e ∈ plain, e.Guarded src := fun e he => (hmem e (by simp [he])).1
  refine ⟨?_, ?_, ?_, ?_⟩
  · rw [hcalls]
    intro e he
    rcases List.mem_append.mp he with he | he
    · exact h.calls e he
    · exact (hmem e (by simp [he])).1
  · rw [hplain]
    intro e he
    rcases List.mem_append.mp he with he | he
    · exact h.plain e he
    · exact .inl (hmemPlain e he)
  · rw [hplain]
    exact h.append_guarded hmemPlain
  · have hedits : ∀ e, e ∈ p'.edits ↔ e ∈ p.edits ∨ e ∈ plain ++ calls := by
      intro e
      simp only [edits, hplain, hcalls, List.mem_append]
      tauto
    intro hne
    by_cases hnew : plain ++ calls = []
    · -- nothing is new, so what gains something was planned before
      obtain ⟨e, he⟩ := List.exists_mem_of_ne_nil _ hne
      have hold : p.edits ≠ [] := by
        rw [hedits, hnew] at he
        exact List.ne_nil_of_mem (he.resolve_right List.not_mem_nil)
      obtain ⟨a, ha, hadds⟩ := h.adds hold
      exact ⟨a, (hedits a).mpr (.inl ha), hadds⟩
    · obtain ⟨e, he⟩ := List.exists_mem_of_ne_nil _ hnew
      exact ⟨e, (hedits e).mpr (.inr he), (hmem e he).2⟩

/-- Edits that belong to a node that comes after the nodes visited so far keep a plan sound. -/
theorem replaces (h : Sound src done p) {m : Tree} (hrep : Replaces src m p p')
    (hfresh : ∀ d ∈ done, d.stop ≤ m.start ∨ ∃ c ∈ d.children, m ∈ c.walk) :
    Sound src (done ++ [m]) p' := by
  obtain ⟨new, hplain, hcalls, hmem, hpairwise, e, he, hadds⟩ := hrep
  refine ⟨?_, ?_, ?_, ?_⟩
  · rw [hcalls]
    exact h.calls
  · rw [hplain]
    intro e he
    rcases List.mem_append.mp he with he | he
    · refine (h.plain e he).imp_right ?_
      rintro ⟨n, hn, howned⟩
      exact ⟨n, List.mem_append_left _ hn, howned⟩
    · exact (hmem e he).imp_right fun howned => ⟨m, by simp, howned⟩
  · rw [hplain]
    refine List.pairwise_append.mpr ⟨h.apart, hpairwise, ?_⟩
    intro a ha b hb
    rcases hmem b hb with hguarded | howned
    · exact h.apart_guarded ha hguarded
    · rcases h.plain a ha with hguarded | ⟨d, hd, hown⟩
      · exact hguarded.apart_quiet howned.quiet
      · exact hown.apart howned (hfresh d hd)
  · intro _
    refine ⟨e, ?_, hadds⟩
    rw [edits, hplain]
    simp [he]

/-- The visit of a node that comes after the nodes visited so far keeps a plan sound. -/
theorem visits (h : Sound src done p) {m : Tree} (hvisits : Visits src m p p')
    (hfresh : ∀ d ∈ done, d.stop ≤ m.start ∨ ∃ c ∈ d.children, m ∈ c.walk) :
    Sound src (done ++ [m]) p' := by
  obtain ⟨a, b, hins, hmiddle, hins'⟩ := hvisits
  refine inserts ?_ hins'
  rcases hmiddle with rfl | hrep
  · exact (h.inserts hins).mono (List.subset_append_left done [m])
  · exact (h.inserts hins).replaces hrep hfresh

/-- The edits of a sound plan stand apart. -/
theorem pairwise (h : Sound src done p) : p.edits.Pairwise Edit.Apart :=
  h.append_guarded h.calls

theorem mem_edits (h : Sound src done p) {e : Edit} (he : e ∈ p.edits) :
    e.Guarded src ∨ ∃ m ∈ done, e.Owned src m := by
  rcases List.mem_append.mp he with he | he
  · exact h.plain e he
  · exact .inl (h.calls e he)

theorem fits (h : Sound src done p) {e : Edit} (he : e ∈ p.edits) : e.Fits src := by
  rcases h.mem_edits he with hguarded | ⟨m, _, howned⟩
  · exact hguarded.fits
  · exact howned.quiet.fits

theorem keeps (h : Sound src done p) {e : Edit} (he : e ∈ p.edits) : e.Keeps src := by
  rcases h.mem_edits he with hguarded | ⟨m, _, howned⟩
  · exact hguarded.keeps
  · exact howned.keeps

end Sound

end Plan

/-! ## Single plans -/

theorem child_laid {src : Bytes} {t c : Tree} (ht : t.Laid src) {r : Code.Role}
    (hc : t.child? r = some c) : c.Laid src ∧ r.admits c.kind = true := by
  obtain ⟨hmem, hrole⟩ := Tree.mem_of_child? hc
  have hlaid := ht.of_mem_children hmem
  exact ⟨hlaid, hlaid.shaped.role r hrole⟩

/-- A first argument is inserted. -/
theorem Plan.prependContext_inserts {src : Bytes} {call : Tree} (hcall : call.Laid src)
    (p : Plan) : Inserts src p (p.prependContext src call).2 := by
  unfold prependContext
  split
  · exact .refl src p
  · split
    · exact .refl src p
    · next list hlist =>
      obtain ⟨hlaid, hkind⟩ := child_laid hcall hlist
      have hkind : list.kind = .argumentList := by simpa [Code.Role.admits] using hkind
      have hguarded := leadingItem_guarded hlaid (.inr hkind) list.items Naming.context
      refine ⟨[], [leadingItem src list list.items Naming.context], by simp, by simp, ?_⟩
      intro e he
      rw [List.nil_append, List.mem_singleton] at he
      rw [he]
      exact ⟨hguarded, hguarded.adds (leadingItem_substance (by decide))⟩

/-- First arguments are inserted at the call sites of a name. -/
theorem CallSite.patch_inserts {src : Bytes} {root : Tree} (hroot : root.Laid src) (name : String)
    (p : Plan) : Plan.Inserts src p (patch name src root p).2 := by
  have hcalls : ∀ call ∈ root.allOfKind .callExpression, call.Laid src :=
    fun call hcall => hroot.of_mem_walk (List.mem_filter.mp hcall).1
  unfold patch
  generalize (0 : Nat) = n
  generalize root.allOfKind .callExpression = calls at hcalls
  induction calls generalizing n p with
  | nil => exact .refl src p
  | cons call calls ih =>
    have hstep := p.prependContext_inserts (hcalls call List.mem_cons_self)
    have hrest : ∀ c ∈ calls, c.Laid src := fun c hc => hcalls c (List.mem_cons_of_mem call hc)
    rw [List.foldl_cons]
    dsimp only
    split
    · split
      · next q hq =>
        rw [hq] at hstep
        exact hstep.trans (ih q _ hrest)
      · next q hq =>
        rw [hq] at hstep
        exact hstep.trans (ih q _ hrest)
    · exact ih p _ hrest

namespace FileUpdate

variable {u : FileUpdate}

/-- A first parameter is inserted. -/
theorem augmentParams_inserts {src : Bytes} {func : Tree} (hfunc : func.Laid src) (p : Plan) :
    Plan.Inserts src p (augmentParams src func p).2 := by
  unfold augmentParams
  split
  · exact .refl src p
  · next list hlist =>
    obtain ⟨hlaid, hkind⟩ := child_laid hfunc hlist
    have hkind : list.kind = .parameterList := by simpa [Code.Role.admits] using hkind
    have hguarded :=
      leadingItem_guarded hlaid (.inl hkind) list.paramDecls Naming.contextParameter
    refine ⟨[leadingItem src list list.paramDecls Naming.contextParameter], [], rfl, by simp; rfl,
      ?_⟩
    intro e he
    rw [List.append_nil, List.mem_singleton] at he
    rw [he]
    exact ⟨hguarded, hguarded.adds (leadingItem_substance (by decide))⟩

theorem augment_inserts {decl : Tree} (hroot : u.file.root.Laid u.file.src)
    (hdecl : decl.Laid u.file.src) :
    (u.augment decl).file = u.file ∧ Plan.Inserts u.file.src u.plan (u.augment decl).plan :=
  ⟨rfl, (augmentParams_inserts hdecl u.plan).trans (CallSite.patch_inserts hroot _ _)⟩

/-- The statements that functions are seeded with. -/
theorem seed_substance : ∀ statement ∈ [Naming.httpSeed, Naming.echoSeed],
    (Bytes.ofString statement).substance ≠ [] := by
  decide

theorem seed_replaces {func : Tree} (hlaid : func.Laid u.file.src)
    (hfunc : func.kind.isFunc = true) {statement : String}
    (hstatement : statement ∈ [Naming.httpSeed, Naming.echoSeed]) :
    (u.seed func statement).file = u.file ∧ ((u.seed func statement).plan = u.plan ∨
      Plan.Replaces u.file.src func u.plan (u.seed func statement).plan) := by
  unfold seed
  cases hplan : Seed.plan u.file.src func statement u.plan with
  | mk done p =>
    unfold Seed.plan at hplan
    split at hplan
    · cases hplan
      exact ⟨rfl, .inl rfl⟩
    · next body hbody =>
      split at hplan
      · cases hplan
        exact ⟨rfl, .inl rfl⟩
      · cases hplan
        obtain ⟨hbodyLaid, hkind⟩ := Seed.body_laid hlaid hbody
        refine ⟨rfl, .inr ⟨Seed.edits u.file.src func body statement, rfl, rfl, ?_, ?_, ?_⟩⟩
        · exact fun e he => Seed.edits_owned hlaid hbody hfunc he
        · exact Seed.edits_pairwise hbodyLaid hkind
        · exact Seed.edits_adds hbodyLaid hkind (seed_substance statement hstatement)

theorem retarget_visits {call field : Tree} {variant : String} (hlaid : call.Laid u.file.src)
    (hcall : call.kind = .callExpression) (hhit : Retarget.IsHit call field variant) :
    (u.retarget call (field, variant)).file = u.file ∧
      Plan.Visits u.file.src call u.plan (u.retarget call (field, variant)).plan := by
  unfold retarget Plan.replace
  dsimp only
  split
  · next p hp =>
    split at hp
    · cases hp
    · cases hp
      refine ⟨rfl, u.plan, _, .refl _ _, .inr ?_, Plan.prependContext_inserts hlaid _⟩
      refine ⟨[⟨field.start, field.stop, variant⟩], rfl, rfl, ?_, List.pairwise_singleton _ _, ?_⟩
      · intro e he
        rw [List.mem_singleton.mp he]
        exact .inr (Retarget.rename_owned hlaid hhit hcall)
      · exact ⟨_, List.mem_singleton_self _, Retarget.rename_adds hlaid hhit⟩
  · next p hp =>
    split at hp
    · cases hp
      exact ⟨rfl, .refl _ _ _⟩
    · cases hp

/-- No function is a handler of both web packages: its first parameter has one type. -/
theorem isEcho_eq_false_of_isHttp {s : Settings} {func : Tree} (h : Handler.isHttp s func = true) :
    Handler.isEcho s func = false := by
  unfold Handler.isHttp at h
  unfold Handler.isEcho Handler.takesFirst
  split at h
  · next w r htypes =>
    rw [htypes]
    rw [Bool.and_eq_true] at h
    cases w with
    | none => rfl
    | some t =>
      have hwriter : (t.child? .name).any (·.text = "ResponseWriter") = true := by
        have := h.1
        simp only [Option.any_some, Handler.isQualified, Bool.and_eq_true] at this
        exact this.2
      cases hname : t.child? .name with
      | none => simp [Handler.isQualified, hname]
      | some name =>
        rw [hname, Option.any_some, decide_eq_true_eq] at hwriter
        simp [Handler.isQualified, hname, hwriter]
  · cases h

/-- A declaration is seeded as a handler of one of the two web packages, or gains its context, or
stays as it is. -/
theorem declaration_eq (u : FileUpdate) (s : Settings) (decl : Tree) :
    u.declaration s decl =
      if Handler.isHttp s decl then u.seed decl Naming.httpSeed
      else if Handler.isEcho s decl then u.seed decl Naming.echoSeed
      else if Handler.gainsContext s decl then u.augment decl
      else u := by
  unfold declaration
  dsimp only
  by_cases hhttp : Handler.isHttp s decl = true
  · have hgains : Handler.gainsContext s decl = false := by simp [Handler.gainsContext, hhttp]
    simp only [hhttp, hgains, isEcho_eq_false_of_isHttp hhttp, if_true, Bool.false_eq_true,
      if_false]
  · by_cases hecho : Handler.isEcho s decl = true
    · have hgains : Handler.gainsContext s decl = false := by simp [Handler.gainsContext, hecho]
      simp only [hhttp, hecho, hgains, if_true, Bool.false_eq_true, if_false]
    · simp only [hhttp, hecho, Bool.false_eq_true, if_false]

theorem declaration_visits {s : Settings} {decl : Tree} (hroot : u.file.root.Laid u.file.src)
    (hdecl : decl.Laid u.file.src) (hkind : decl.kind.isFuncDecl = true) :
    (u.declaration s decl).file = u.file ∧
      Plan.Visits u.file.src decl u.plan (u.declaration s decl).plan := by
  have hfunc : decl.kind.isFunc = true := by simp [Code.Kind.isFunc, hkind]
  have hseed : ∀ statement ∈ [Naming.httpSeed, Naming.echoSeed],
      (u.seed decl statement).file = u.file ∧
        Plan.Visits u.file.src decl u.plan (u.seed decl statement).plan := by
    intro statement hstatement
    obtain ⟨hfile, hplan⟩ := u.seed_replaces hdecl hfunc hstatement
    exact ⟨hfile, _, _, .refl _ _, hplan, .refl _ _⟩
  rw [declaration_eq]
  split
  · exact hseed _ (by simp)
  · split
    · exact hseed _ (by simp)
    · split
      · obtain ⟨hfile, hins⟩ := augment_inserts hroot hdecl
        exact ⟨hfile, hins.visits decl⟩
      · exact ⟨rfl, .refl _ _ _⟩

/-- A visit of a node plans insertions, and replacements that belong to the node at most once. -/
theorem visit_visits {env : Env} {s : Settings} {i : Nat} {site : Site} {m m' : Memo}
    {u' : FileUpdate} (hroot : u.file.root.Laid u.file.src)
    (hsite : site.node.Laid u.file.src) (h : visit env s i u site m = some (u', m')) :
    u'.file = u.file ∧ Plan.Visits u.file.src site.node u.plan u'.plan := by
  unfold visit at h
  split at h
  · next hcall =>
    obtain ⟨hit, m₁, hhit, h⟩ := Resolving.bind_eq_some.mp h
    cases hit with
    | none =>
      cases Resolving.pure_eq_some.mp h
      exact ⟨rfl, .refl _ _ _⟩
    | some hit =>
      cases Resolving.pure_eq_some.mp h
      exact retarget_visits hsite hcall (Retarget.hit_spec hhit)
  · split at h
    · next hdecl =>
      cases Resolving.pure_eq_some.mp h
      exact declaration_visits hroot hsite hdecl
    · split at h
      · next hliteral =>
        cases Resolving.pure_eq_some.mp h
        rw [Bool.and_eq_true, decide_eq_true_eq] at hliteral
        have hfunc : site.node.kind.isFunc = true := by simp [Code.Kind.isFunc, hliteral.1]
        have hmem : Naming.echoSeed ∈ [Naming.httpSeed, Naming.echoSeed] := by simp
        obtain ⟨hfile, hplan⟩ := u.seed_replaces hsite hfunc hmem
        exact ⟨hfile, _, _, .refl _ _, hplan, .refl _ _⟩
      · cases Resolving.pure_eq_some.mp h
        exact ⟨rfl, .refl _ _ _⟩

/-- What a walk over the rest of a file leads to, when the nodes before are visited. -/
theorem walk_sound {env : Env} {s : Settings} {i : Nat} {f : SourceFile}
    (hroot : f.root.Laid f.src) {done sites : List Site} {m m' : Memo} {u u' : FileUpdate}
    (hwalk : (Site.root f.root).walk = done ++ sites) (hfile : u.file = f)
    (hu : u.plan.Sound f.src (done.map (·.node)))
    (h : sites.foldlM (visit env s i) u m = some (u', m')) :
    u'.file = f ∧ u'.plan.Sound f.src f.root.walk := by
  induction sites generalizing done m u with
  | nil =>
    cases Resolving.pure_eq_some.mp h
    rw [List.append_nil] at hwalk
    rw [Tree.walk, hwalk]
    exact ⟨hfile, hu⟩
  | cons site sites ih =>
    obtain ⟨v, m₁, hvisit, hrest⟩ := Resolving.bind_eq_some.mp h
    subst hfile
    -- the nodes visited so far do not contain this one, nor does it stand before them
    have hnodes : u.file.root.walk = done.map (·.node) ++ site.node :: sites.map (·.node) := by
      rw [Tree.walk, hwalk, List.map_append, List.map_cons]
    have hsite : site.node.Laid u.file.src := hroot.of_mem_walk (by rw [hnodes]; simp)
    obtain ⟨hfile, hvisits⟩ := visit_visits hroot hsite hvisit
    have hfresh : ∀ d ∈ done.map (·.node), d.stop ≤ site.node.start ∨
        ∃ c ∈ d.children, site.node ∈ c.walk := by
      intro d hd
      have hpairwise := hroot.pairwise_walk
      rw [hnodes] at hpairwise
      exact (List.pairwise_append.mp hpairwise).2.2 d hd site.node List.mem_cons_self
    have hv := hu.visits hvisits hfresh
    have hwalk' : (Site.root u.file.root).walk = (done ++ [site]) ++ sites := by
      rw [hwalk, List.append_assoc, List.singleton_append]
    refine ih hwalk' hfile ?_ hrest
    rw [List.map_append, List.map_singleton]
    exact hv

end FileUpdate

/-! ## Whole files -/

/-- The import of the context package is inserted next to guards. -/
theorem ContextImport.plan_spec (f : SourceFile) (p : Plan) :
    ∃ gs : List Edit, (ContextImport.plan f p).2.plain = p.plain ++ gs ∧
      (ContextImport.plan f p).2.calls = p.calls ∧ ∀ g ∈ gs, g.Guarded f.src := by
  have hstart : ∀ text, Edit.Guarded f.src ⟨0, 0, text⟩ :=
    fun text => ⟨0, rfl, rfl, Nat.zero_le _, .inl rfl⟩
  have hend : ∀ text, Edit.Guarded f.src ⟨f.src.length, f.src.length, text⟩ :=
    fun text => ⟨f.src.length, rfl, rfl, le_rfl, .inr (.inl rfl)⟩
  unfold ContextImport.plan
  split
  · exact ⟨[], by simp, rfl, by simp⟩
  · split
    · exact ⟨[⟨0, 0, group ++ "\n\n"⟩], rfl, rfl, by simpa using hstart _⟩
    · next clause _ =>
      split
      · next eol heol =>
        obtain ⟨_, hget⟩ := Bytes.getElem?_of_lineEnd? heol
        have hlt := (List.getElem?_eq_some_iff.mp hget).1
        have hline : Edit.Guarded f.src ⟨eol, eol, "\n\n" ++ group⟩ :=
          ⟨eol, rfl, rfl, hlt.le, .inr (.inr (.inl hget))⟩
        exact ⟨[⟨eol, eol, "\n\n" ++ group⟩], rfl, rfl, by simpa using hline⟩
      · refine ⟨[⟨f.src.length, f.src.length, "\n\n" ++ group⟩,
          ⟨f.src.length, f.src.length, "\n"⟩], ?_, rfl, ?_⟩
        · simp [Plan.insert, Plan.replaceSpan]
        · simpa using ⟨hend _, hend _⟩

/-- Planning the import keeps a plan sound. -/
theorem FileUpdate.finish_sound {u : FileUpdate} {done : List Tree}
    (h : u.plan.Sound u.file.src done) :
    u.finish.file = u.file ∧ u.finish.plan.Sound u.file.src done ∧
      u.finish.changed = u.changed := by
  unfold finish
  split
  · next hchanged =>
    -- something is planned already, so the import need not gain anything itself
    obtain ⟨gs, hplain, hcalls, hgs⟩ := ContextImport.plan_spec u.file u.plan
    obtain ⟨e, he, hadds⟩ := h.adds ((Plan.isChange_iff _).mp hchanged)
    have hmem : e ∈ (ContextImport.plan u.file u.plan).2.edits := by
      rw [Plan.edits, hplain, hcalls]
      rcases List.mem_append.mp he with he | he <;> simp [he]
    refine ⟨rfl, ⟨?_, ?_, ?_, ?_⟩, ?_⟩
    · rw [hcalls]
      exact h.calls
    · rw [hplain]
      intro a ha
      rcases List.mem_append.mp ha with ha | ha
      · exact h.plain a ha
      · exact .inl (hgs a ha)
    · rw [hplain]
      exact h.append_guarded hgs
    · exact fun _ => ⟨e, hmem, hadds⟩
    · rw [hchanged]
      exact (Plan.isChange_iff _).mpr (List.ne_nil_of_mem hmem)
  · exact ⟨rfl, h, rfl⟩

/-- What is planned for a file whose tree lies over its text. -/
theorem updateFile_sound {env : Env} {s : Settings} {i : Nat} {f : SourceFile} {m m' : Memo}
    {u : FileUpdate} (hroot : f.root.Laid f.src) (h : updateFile env s i f m = some (u, m')) :
    u.file = f ∧ u.plan.Sound f.src f.root.walk := by
  obtain ⟨v, m₁, hwalk, hfinish⟩ := Resolving.bind_eq_some.mp h
  cases Resolving.pure_eq_some.mp hfinish
  have hstart : ({ file := f } : FileUpdate).plan.Sound f.src (([] : List Site).map (·.node)) :=
    .empty f.src
  obtain ⟨rfl, hv⟩ := FileUpdate.walk_sound hroot (List.nil_append _).symm rfl hstart hwalk
  obtain ⟨hfile, hsound, _⟩ := FileUpdate.finish_sound hv
  exact ⟨hfile, hsound⟩

end CtxThread
