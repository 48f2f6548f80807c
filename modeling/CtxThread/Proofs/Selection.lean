import CtxThread.Proofs.Reached
import CtxThread.Proofs.Types.Grounded

/-!
# Answers do not depend on what was asked before

A question that is answered after others has the answer that it has alone, since both answers are
right and what was answered once is answered again. So the changes of a file do not depend on the
files that are updated before it.

## Main definitions

- `Env.Asked`: a memo after some questions
- `Env.Follows`: a computation has the results that another one has, from any such memo

## Main statements

- `Env.follows_typeOf`: types do not depend on the memo
- `Env.Regular.answers_alone`: sequences of questions, and some files of a package
-/

namespace CtxThread

open Code (Tree Site)

namespace Env

/-- The memo is that of a package about which some questions have been asked. -/
structure Asked (env : Env) (m : Memo) : Prop where
  remembers : ∀ r ∈ env.refs, ∀ a, m.answers.lookup r.id = some a → env.Right (.type r) a
  explored : env.Explored m
  idle : m.active = []

theorem asked_empty (env : Env) : env.Asked {} where
  remembers := by intro r _ a h; cases h
  explored := by intro r _ h; cases h
  idle := rfl

/-- What the computation `x` results in after some questions, `y` results in after any others. -/
def Follows {α : Type} (env : Env) (x y : Resolving α) : Prop :=
  ∀ m n a m', env.Asked m → env.Asked n → x m = some (a, m') →
    env.Asked m' ∧ ∃ n', y n = some (a, n') ∧ env.Asked n'

section

variable {env : Env} {α β : Type}

theorem follows_pure (a : α) : env.Follows (pure a) (pure a) := by
  intro m n b m' hm hn h
  cases h
  exact ⟨hm, n, rfl, hn⟩

theorem Follows.bind {x y : Resolving α} {f g : α → Resolving β} (hxy : env.Follows x y)
    (hfg : ∀ a, env.Follows (f a) (g a)) : env.Follows (x >>= f) (y >>= g) := by
  intro m n b m' hm hn h
  obtain ⟨a, m₁, hx, hf⟩ := Resolving.bind_eq_some.mp h
  obtain ⟨hm₁, n₁, hy, hn₁⟩ := hxy m n a m₁ hm hn hx
  obtain ⟨hm', n', hg, hn'⟩ := hfg a m₁ n₁ b m' hm₁ hn₁ hf
  exact ⟨hm', n', Resolving.bind_eq_some.mpr ⟨a, n₁, hy, hg⟩, hn'⟩

/-- The results of computations one after the other are those of each of them alone. -/
theorem forall₂_of_follows {f g : α → Resolving β} {as : List α} {bs : List β} {m m' : Memo}
    (h : ∀ a ∈ as, env.Follows (f a) (g a)) (hm : env.Asked m)
    (hrun : as.mapM f m = some (bs, m')) :
    List.Forall₂ (fun a b => ∃ n', g a {} = some (b, n')) as bs := by
  induction as generalizing m bs with
  | nil =>
    cases hrun
    exact .nil
  | cons a as ih =>
    rw [List.mapM_cons] at hrun
    obtain ⟨b, m₁, hb, hrest⟩ := Resolving.bind_eq_some.mp hrun
    obtain ⟨bs, m₂, hbs, heq⟩ := Resolving.bind_eq_some.mp hrest
    cases heq
    obtain ⟨hm₁, n', hn', _⟩ := h a List.mem_cons_self m {} b m₁ hm env.asked_empty hb
    exact .cons ⟨n', hn'⟩ (ih (fun c hc => h c (List.mem_cons_of_mem a hc)) hm₁ hbs)

/-- Leaving out some of the computations leaves out their results. -/
theorem mapM_filter_of_follows {f : α → Resolving β} {as : List α} {bs : List β}
    {p : α → Bool} {q : β → Bool} {m n m' : Memo} (h : ∀ a ∈ as, env.Follows (f a) (f a))
    (hp : ∀ a ∈ as, ∀ m b m', f a m = some (b, m') → q b = p a)
    (hm : env.Asked m) (hn : env.Asked n) (hrun : as.mapM f m = some (bs, m')) :
    ∃ n', (as.filter p).mapM f n = some (bs.filter q, n') := by
  induction as generalizing m n bs with
  | nil =>
    cases hrun
    exact ⟨n, rfl⟩
  | cons a as ih =>
    rw [List.mapM_cons] at hrun
    obtain ⟨b, m₁, hb, hrest⟩ := Resolving.bind_eq_some.mp hrun
    obtain ⟨bs, m₂, hbs, heq⟩ := Resolving.bind_eq_some.mp hrest
    cases heq
    obtain ⟨hm₁, n₁, hb', hn₁⟩ := h a List.mem_cons_self m n b m₁ hm hn hb
    have hselected := hp a List.mem_cons_self m b m₁ hb
    have ih := fun {n} (hn : env.Asked n) => ih (fun c hc => h c (List.mem_cons_of_mem a hc))
      (fun c hc => hp c (List.mem_cons_of_mem a hc)) hm₁ hn hbs
    rw [List.filter_cons, List.filter_cons, hselected]
    split
    · obtain ⟨n', hn'⟩ := ih hn₁
      refine ⟨n', ?_⟩
      rw [List.mapM_cons]
      exact Resolving.bind_eq_some.mpr ⟨b, n₁, hb', Resolving.bind_eq_some.mpr ⟨_, n', hn', rfl⟩⟩
    · exact ih hn

/-- The type of a node is the same after any questions. -/
theorem follows_typeOf (hclosed : env.Closed) (hindex : env.Listed) (hregular : env.Regular)
    {r : Ref} (hr : r ∈ env.refs) (d : Nat) :
    env.Follows ((env.oracle d).typeOf r) (env.typeOf r) := by
  intro m n a m' hm hn h
  have hright := (answering hclosed hindex hregular).keptBy_oracle hindex
  have hexplores := explores_oracle hclosed hindex hregular.parsed
  have hmay : ∀ m : Memo, m.active = [] →
      (answering hclosed hindex hregular).mayAsk m.active (.type r) := by
    intro m hm
    rw [hm]
    exact ⟨hr, waits_nil _⟩
  obtain ⟨ha, hremembers, hactive⟩ :=
    hright d (.type r) m a m' (hmay m hm.idle) hm.remembers h
  obtain ⟨hexplored, _, _, hgrounded⟩ := hexplores d (.type r) m a m' hr hm.explored h
  have hidle : m'.active = [] := hactive.trans hm.idle
  refine ⟨⟨hremembers, hexplored, hidle⟩, ?_⟩
  -- the types known after the answer are complete, so the question is answered again
  obtain ⟨b, n', hrun, _⟩ := (hexplored.complete hidle).answers_typeOf hclosed hindex n.active hr
    hgrounded.of_type n rfl
  obtain ⟨hb, hremembers', hactive'⟩ :=
    hright env.depth (.type r) n b n' (hmay n hn.idle) hn.remembers hrun
  obtain ⟨hexplored', _⟩ := hexplores env.depth (.type r) n b n' hr hn.explored hrun
  rw [Right.unique hb ha] at hrun
  exact ⟨n', hrun, hremembers', hexplored', hactive'.trans hn.idle⟩

/-- A computation that asks for types has the same results after any questions. -/
theorem AsksTypes.follows {x : Resolving α} (hx : env.AsksTypes x) (hclosed : env.Closed)
    (hindex : env.Listed) (hregular : env.Regular) : env.Follows x x := by
  induction hx with
  | pure a => exact follows_pure a
  | bind _ _ ihx ihf => exact ihx.bind ihf
  | typeOf hr => exact follows_typeOf hclosed hindex hregular hr env.depth

end

/-! ## Updates -/

/-- In a regular package, a question that is answered after others, whatever they were, has the
same answer alone; so when only some files of the package are updated, they are updated as they are
along with all others. -/
theorem Regular.answers_alone {p : Package} (hp : (ofPackage p).Regular) :
    (∀ d rs as m, (∀ r ∈ rs, r ∈ (ofPackage p).refs) →
      rs.mapM ((ofPackage p).oracle d).typeOf {} = some (as, m) →
      List.Forall₂ (fun r a => ∃ m', (ofPackage p).typeOf r {} = some (a, m')) rs as) ∧
    ∀ s us, updatePackage p s [] = some us → ∀ only,
      updatePackage p s only = some (us.filter fun u => isSelected only u.file) := by
  have hclosed := closed_ofPackage p
  have hindex := listed_ofPackage p
  constructor
  · intro d rs as m hrs hrun
    refine forall₂_of_follows (fun r hr => ?_) (asked_empty (ofPackage p)) hrun
    exact follows_typeOf hclosed hindex hp (hrs r hr) d
  · intro s us h only
    have hall : (p.files.zipIdx.filter fun f => isSelected [] f.1) = p.files.zipIdx :=
      List.filter_eq_self.mpr fun _ _ => rfl
    unfold updatePackage at h ⊢
    dsimp only at h ⊢
    rw [hall] at h
    obtain ⟨⟨_, m⟩, hrun, rfl⟩ := Option.map_eq_some_iff.mp h
    have hfile : ∀ {f : SourceFile × Nat}, f ∈ p.files.zipIdx →
        (ofPackage p).files[f.2]? = some f.1 := fun hf => List.mk_mem_zipIdx_iff_getElem?.mp hf
    have hselected : ∀ f ∈ p.files.zipIdx, ∀ m u m', updateFile (ofPackage p) s f.2 f.1 m =
        some (u, m') → isSelected only u.file = isSelected only f.1 := by
      intro f hf m u m' hu
      have hlaid := Code.parse?_laid (hp.parsed f.1 (List.mem_of_getElem? (hfile hf)))
      rw [(updateFile_sound hlaid hu).1]
    obtain ⟨n, hn⟩ := mapM_filter_of_follows
      (fun f hf => (asksTypes_updateFile (hfile hf) s).follows hclosed hindex hp) hselected
      (asked_empty _) (asked_empty _) hrun
    exact Option.map_eq_some_iff.mpr ⟨_, hn, rfl⟩

/-- Variables whose initial values refer to one another, and a database handle. -/
def entangled : Bytes := Bytes.ofString
  "package a\n\nimport \"database/sql\"\n\nvar x = y\n\nvar y = x\n\nvar db *sql.DB\n"

/-- Calls on such variables and on the handle. -/
def entangledCalls : Bytes := Bytes.ofString
  "package a\n\nfunc f() \x7b\n\ty.Query()\n\tx.Query()\n\tdb.Query()\n\x7d\n"

/-- The one file of two that is asked for is updated as it is along with the other. -/
theorem answers_alone_entangled :
    ∃ f g us, SourceFile.read? ⟨"", ["a.go"]⟩ entangled = some f ∧
      SourceFile.read? ⟨"", ["b.go"]⟩ entangledCalls = some g ∧
      (ofPackage ⟨"a", [f, g]⟩).Regular ∧ updatePackage ⟨"a", [f, g]⟩ {} [] = some us ∧
      us.map (·.renamed) = [0, 1] ∧
      updatePackage ⟨"a", [f, g]⟩ {} ["b.go"] =
        some (us.filter fun u => isSelected ["b.go"] u.file) := by
  have h : ((SourceFile.read? ⟨"", ["a.go"]⟩ entangled).bind fun f =>
      (SourceFile.read? ⟨"", ["b.go"]⟩ entangledCalls).map fun g =>
        ((ofPackage ⟨"a", [f, g]⟩).refs.all Ref.isRegular,
          (updatePackage ⟨"a", [f, g]⟩ {} []).map fun us => us.map (·.renamed))) =
      some (true, some [0, 1]) := by
    decide +kernel
  obtain ⟨f, hf, h⟩ := Option.bind_eq_some_iff.mp h
  obtain ⟨g, hg, h⟩ := Option.map_eq_some_iff.mp h
  obtain ⟨hall, hus⟩ := Prod.mk.inj h
  obtain ⟨us, hus, hrenamed⟩ := Option.map_eq_some_iff.mp hus
  have hparsed : ∀ f' ∈ [f, g], Code.parse? f'.src = some f'.root := by
    obtain ⟨root, hroot, rfl⟩ := Option.map_eq_some_iff.mp hf
    obtain ⟨root', hroot', rfl⟩ := Option.map_eq_some_iff.mp hg
    simp [hroot, hroot']
  have hregular : (ofPackage ⟨"a", [f, g]⟩).Regular := regular_of_all hparsed hall
  exact ⟨f, g, us, hf, hg, hregular, hus, hrenamed, hregular.answers_alone.2 {} us hus ["b.go"]⟩

end Env

end CtxThread
