import CtxThread.Proofs.Code.Bare
import CtxThread.Proofs.Import.Opening

/-!
# The import as the first declaration

Where a file holds its package clause only, up to the line end that the import is planned for, all
other edits stand behind that line end. So the import becomes the first declaration of the new text,
and what the other edits make of the file is read as it would be without it.

## Main statements

- `Edit.lt_start_nodeEdits`: the other edits stand behind the line end
- `Edit.exists_splice_insertion`: text inserted in front of all other edits
- `updateFile_imports`: how often the import is there, and where
- `read?_eq_none_bodyOnClauseLine`: a file that holds more up to that line end
-/

namespace CtxThread

open Code (Tree Token)
open FileUpdate

/-! ## Edits behind the package clause -/

/-- Nothing is planned in front of a body that is seeded. -/
theorem Seed.start_lt_of_mem_edits {src : Bytes} {func body : Tree} {statement : String}
    (hlaid : body.Laid src) (hk : body.kind = .block ∨ body.kind = .literalValue) {e : Edit}
    (he : e ∈ edits src func body statement) : (body.start : Int) < e.start := by
  cases hline : src.sameLine body.start (front body) with
  | false =>
    obtain ⟨eol, heol, -⟩ := exists_lineEnd hlaid hk hline
    obtain ⟨hle, -⟩ := Bytes.getElem?_of_lineEnd? heol
    rw [edits_of_lineEnd hline heol] at he
    obtain rfl := List.mem_singleton.mp he
    change (body.start : Int) < (eol : Int) + 1
    omega
  | true =>
    obtain ⟨stop, text, hedits, -⟩ := edits_of_sameLine hline
    obtain ⟨hfront, -⟩ := front_bounds hlaid hk
    rw [hedits] at he
    rcases List.mem_cons.mp he with rfl | he
    · dsimp only
      omega
    · have := ((trailing_spec hlaid hk _ _).1 e he).1
      omega

/-- Only functions are seeded. -/
theorem Handler.isFunc_of_seed? {s : Settings} {t : Tree} {statement : String}
    (h : Handler.seed? s t = some statement) : t.kind.isFunc = true := by
  unfold Handler.seed? at h
  split at h
  · next hdecl => simp [Code.Kind.isFunc, (Bool.and_eq_true_iff.mp hdecl).1]
  · split at h
    · next hfunc => exact (Bool.and_eq_true_iff.mp hfunc).1
    · cases h

namespace Edit

section Behind

variable {s : Settings} {f : SourceFile} (hparse : Code.parse? f.src = some f.root)
  {clause : Tree} {p : Nat} (hopens : f.root.Opens clause p)
  (hfeed : f.src[p]? = some Bytes.lineFeed)

include hparse hopens hfeed

/-- What a node gives rise to stands behind the offset up to which the file holds its package clause
only. -/
theorem lt_start_ownEdits {z : Tree × Option (Tree × String)} (hz : z.1 ∈ f.root.walk)
    (hhit : ∀ hit, z.2 = some hit →
      z.1.kind = .callExpression ∧ Retarget.IsHit z.1 hit.1 hit.2) {e : Edit}
    (he : e ∈ ownEdits s f.src z) : (p : Int) < e.start := by
  have hlaid := (Code.parse?_laid hparse).of_mem_walk hz
  rw [ownEdits, List.mem_append, List.mem_append] at he
  rcases he with he | he | he
  · obtain ⟨hit, hmem, rfl⟩ := List.mem_map.mp he
    obtain ⟨hk, hit'⟩ := hhit hit (Option.mem_toList.mp hmem)
    have hle := hopens.le_start hparse hz (by simp [isOwner, hk])
    have howned := Retarget.rename_owned hlaid hit' hk
    have hstart := howned.start_le
    obtain ⟨fn, hfn, -, hfield⟩ := hit'.selects
    have hspan := ((Code.parse?_formed Code.heading_agrees hparse (Tree.mem_walk_of_mem_children
      (Tree.mem_walk_of_mem_children hz (Tree.mem_of_child? hfn).1)
      (Tree.mem_of_child? hfield).1)).token (by rw [(Retarget.field_laid hlaid hit').2]; rfl)).1
    -- there is no line feed in the name of a method
    have hne : hit.1.start ≠ p := by
      rintro heq
      obtain ⟨a, b, ha, hb, -, -, hquiet⟩ := howned.quiet
      dsimp only at ha hb
      exact absurd (hquiet _ (Bytes.mem_slice_of_getElem? (by omega) (by omega) hfeed)) (by decide)
    dsimp only at hstart ⊢
    omega
  · unfold Handler.parameterEdits at he
    split at he
    · next haug =>
      obtain ⟨list, hlist, rfl⟩ := List.mem_map.mp he
      have hle := hopens.le_start hparse hz
        (by simp [isOwner, Code.Kind.isFunc, (Bool.and_eq_true_iff.mp haug).1])
      have hbounds := hlaid.row.bounds_of_mem (Tree.mem_of_child? (Option.mem_toList.mp hlist)).1
      rw [(leadingItem_start ..).1]
      omega
    · cases he
  · obtain ⟨statement, hstatement, he⟩ := List.mem_flatMap.mp he
    have hfunc := Handler.isFunc_of_seed? (Option.mem_toList.mp hstatement)
    have hle := hopens.le_start hparse hz (by simp [isOwner, hfunc])
    unfold Seed.missing at he
    cases hbody : z.1.child? .body with
    | none => rw [hbody] at he; cases he
    | some body =>
      rw [hbody] at he
      dsimp only at he
      split at he
      · cases he
      · obtain ⟨hbodyLaid, hbodyKind⟩ := Seed.body_laid hlaid hbody
        have hbounds := hlaid.row.bounds_of_mem (Tree.mem_of_child? hbody).1
        have := Seed.start_lt_of_mem_edits hbodyLaid hbodyKind he
        omega

variable {hits : List (Option (Tree × String))} (hhits : Hits (f.root.walk.zip hits))

include hhits

/-- So does everything that is planned for the file, the import aside. -/
theorem lt_start_nodeEdits {e : Edit}
    (he : e ∈ (f.root.walk.zip hits).flatMap (ownEdits s f.src) ++
      (planned s f hits).finish.plan.calls.map (·.2)) : (p : Int) < e.start := by
  rcases List.mem_append.mp he with he | he
  · obtain ⟨z, hz, he⟩ := List.mem_flatMap.mp he
    exact lt_start_ownEdits hparse hopens hfeed (List.of_mem_zip hz).1 (hhits.call z hz) he
  · obtain ⟨entry, hentry, rfl⟩ := List.mem_map.mp he
    obtain ⟨call, hcall, list, hlist, rfl⟩ :=
      (planned_leads s (Code.distinct_calls hparse) hhits).placed entry hentry
    obtain ⟨hmem, hk⟩ := List.mem_filter.mp hcall
    have hk : call.kind = .callExpression := of_decide_eq_true hk
    have hle := hopens.le_start hparse hmem (by simp [isOwner, hk])
    have hbounds := ((Code.parse?_laid hparse).of_mem_walk hmem).row.bounds_of_mem
      (Tree.mem_of_child? hlist).1
    rw [(leadingItem_start ..).1]
    omega

end Behind

/-- Text inserted in front of all other edits stands in front of what they make of the rest. -/
theorem exists_splice_insertion {src plain : Bytes} {front back : List Edit} {p : Nat}
    (hp : p < src.length)
    (hothers : ∀ e ∈ front ++ back, (p : Int) < e.start ∧ e.start ≤ src.length)
    (h : splice src (front ++ back) = .ok plain) (text : String) :
    ∃ y, weave src p (Order.sort le (front ++ back)) = .ok y ∧ y.head? = src[p]? ∧
      plain = src.take p ++ y ∧ splice src (front ++ .insertion p text :: back) =
        .ok (src.take p ++ (Bytes.ofString text ++ y)) := by
  have hhead : ∀ e ∈ (Order.sort le (front ++ back)).head?,
      (p : Int) < e.start ∧ e.start ≤ src.length := fun e he =>
    hothers e (mem_sort.mp (List.mem_of_mem_head? he))
  have hslice : src.slice 0 p = src.take p := List.drop_zero
  obtain ⟨y, hy, rfl⟩ := weave_jump (Nat.zero_le p) hp.le
    (fun e he => ⟨(hhead e he).1.le, (hhead e he).2⟩) h
  obtain ⟨z, -, hz⟩ := weave_jump (Nat.le_succ p) hp
    (fun e he => ⟨(hhead e he).1, (hhead e he).2⟩) hy
  have hone : src.slice p (p + 1) = [src[p]] := by
    rw [Bytes.slice_succ le_rfl (List.getElem?_eq_getElem hp), Bytes.slice_self, List.nil_append]
  refine ⟨y, hy, ?_, by rw [hslice], ?_⟩
  · rw [hz, hone, List.getElem?_eq_getElem hp]
    rfl
  · rw [splice, sort_eq_cons fun e he => (hothers e he).1,
      weave_cons_ok (e := insertion p text) (Int.natCast_nonneg p) hy]
    change Except.ok (src.between (0 : Nat) (p : Nat) ++ _ ++ _) = _
    rw [Bytes.between_natCast (Nat.zero_le p) hp.le, hslice, List.append_assoc]
    rfl

/-- Where an open comment would end is not changed by what the edits make of the text behind a line
feed. -/
theorem commentClose?_of_weave {src y : Bytes} {root : Tree} {p : Nat} {es : List Edit}
    (hparse : Code.parse? src = some root) (hclear : Token.Clear src p)
    (hfeed : src[p]? = some Bytes.lineFeed) (hfine : ∀ e ∈ es, Fine src e)
    (hunshared : es.Pairwise Unshared) (hy : weave src p (Order.sort le es) = .ok y)
    (hnone : Token.commentClose? (src.drop p) = none) : Token.commentClose? y = none := by
  have hbase : Token.base src ≤ p := Token.base_le hfeed (by decide)
  have hle : p ≤ src.length := (List.getElem?_eq_some_iff.mp hfeed).1.le
  obtain ⟨ws, -, hcuts⟩ := Code.cuts_from hparse hclear hbase hle
  obtain ⟨m, hm, -⟩ := Import.exists_readTo hparse p
  have hfine' : ∀ e ∈ Order.sort le es, Fine src e := fun e he => hfine e (mem_sort.mp he)
  have hweaves := (weaves hparse hfine' (meets_sort hfine' hunshared)).1
  exact (hweaves p m ws y hbase hle hclear hm hcuts hy).2 hnone

end Edit

namespace FileUpdate

variable {s : Settings} {f : SourceFile} {hits : List (Option (Tree × String))}
  (hparse : Code.parse? f.src = some f.root) (hhits : Hits (f.root.walk.zip hits))
  (hlen : hits.length = f.root.walk.length) (hchanged : (planned s f hits).finish.changed = true)
  (hcount : f.importCount Naming.contextPath = 0) {clause : Tree}
  (hclause : f.clause? = some clause) {p : Nat} (hp : f.src.lineEnd? clause.stop = some p)
  (hopens : f.root.Opens clause p)

include hparse hhits hlen hchanged hcount hclause hp hopens

/-- The import is one of the edits, and all others stand behind it. -/
theorem exists_edits_eq : ∃ nodes calls,
    (planned s f hits).finish.plan.edits =
        nodes ++ .insertion p ("\n\n" ++ ContextImport.group) :: calls ∧
      (planned s f hits).finish.plan.edits.filter (!·.isGroup) = nodes ++ calls ∧
      (∀ e ∈ nodes ++ calls, Edit.Fine f.src e ∧ (p : Int) < e.start) ∧
      (nodes ++ calls).Pairwise Edit.Unshared := by
  set nodes := (f.root.walk.zip hits).flatMap (ownEdits s f.src) with hnodes
  set calls := (planned s f hits).finish.plan.calls.map (·.2) with hcalls
  have hfeed := (Bytes.getElem?_of_lineEnd? hp).2
  have hfine : ∀ e ∈ nodes ++ calls, Edit.Fine f.src e ∧ e.isGroup = false := fun e =>
    Edit.fine_nodeEdits hparse hhits
  have himport : ContextImport.edits f = [.insertion p ("\n\n" ++ ContextImport.group)] := by
    rw [ContextImport.edits, if_neg (not_not.mpr hcount), hclause]
    dsimp only
    rw [hp]
  have hedits : (planned s f hits).finish.plan.edits =
      nodes ++ .insertion p ("\n\n" ++ ContextImport.group) :: calls := by
    rw [Plan.edits, planned_plain s hhits, if_pos hchanged, himport, List.append_assoc,
      List.singleton_append]
  have hkeep : ∀ es : List Edit, (∀ e ∈ es, e ∈ nodes ++ calls) → es.filter (!·.isGroup) = es :=
    fun es hes => List.filter_eq_self.mpr fun e he => by simp [(hfine e (hes e he)).2]
  have hfilter : (planned s f hits).finish.plan.edits.filter (!·.isGroup) = nodes ++ calls := by
    rw [hedits, List.filter_append,
      List.filter_cons_of_neg (by simp [Edit.isGroup, Edit.insertion]),
      hkeep nodes fun e he => List.mem_append_left _ he,
      hkeep calls fun e he => List.mem_append_right _ he]
  refine ⟨nodes, calls, hedits, hfilter, fun e he =>
    ⟨(hfine e he).1, Edit.lt_start_nodeEdits hparse hopens hfeed hhits he⟩, ?_⟩
  rw [← hfilter]
  exact (Edit.unshared_edits hparse hhits hlen).filter _

/-- Where a file holds its package clause only, up to the line end that the import is planned for,
the import is the first declaration of the new text, if the other edits leave a text that parses. -/
theorem exists_putFirst {plain : Bytes}
    (hplain : Edit.splice f.src ((planned s f hits).finish.plan.edits.filter (!·.isGroup)) =
      .ok plain) {root₁ : Tree} (hparse₁ : Code.parse? plain = some root₁) :
    ∃ (out : Bytes) (root₂ x : Tree),
      Edit.splice f.src (planned s f hits).finish.plan.edits = .ok out ∧
        Code.parse? out = some root₂ ∧ x.PutFirst Code.groupText.length root₁ root₂ ∧
        x.kind = .importDeclaration ∧ x.start = p + 2 ∧
        out.slice x.start x.stop = Bytes.ofString ContextImport.group := by
  have hfeed := (Bytes.getElem?_of_lineEnd? hp).2
  have hlt : p < f.src.length := (List.getElem?_eq_some_iff.mp hfeed).1
  obtain ⟨nodes, calls, hedits, hfilter, hothers, hunshared⟩ :=
    exists_edits_eq hparse hhits hlen hchanged hcount hclause hp hopens
  rw [hfilter] at hplain
  obtain ⟨y, hy, hyHead, rfl, hout⟩ := Edit.exists_splice_insertion hlt
    (fun e he => ⟨(hothers e he).2, (hothers e he).1.bounds.2⟩) hplain
    ("\n\n" ++ ContextImport.group)
  have hclose := Edit.commentClose?_of_weave hparse ((hopens.clear hparse).scanned hparse) hfeed
    (fun e he => (hothers e he).1) hunshared hy
  obtain ⟨root₂, x, hparse₂, hput, hk, hstart, hstop⟩ := Code.exists_putFirst hparse hopens hfeed
    (hopens.getLast?_take_ne hparse hp) (hyHead.trans hfeed) hclose hparse₁
  refine ⟨_, root₂, x, hedits ▸ hout, hparse₂, hput, hk, hstart, ?_⟩
  have hfront : (f.src.take p).length = p := List.length_take_of_le hlt.le
  have hslice := Code.slice_groupText (f.src.take p) y
  rw [hfront] at hslice
  rwa [hstart, hstop]

end FileUpdate

/-- A file that is changed gains one import of the context package if it has none, and keeps those
that it has. Where it holds its package clause only, up to the end of the line of the clause, the
new one is the first declaration of the new text, and what the other edits make of the file by
themselves is read as it would be without it. -/
theorem updateFile_imports {path : Path} {src : Bytes} {f : SourceFile} {env : Env} {s : Settings}
    {i : Nat} {m m' : Memo} {u : FileUpdate} (hf : SourceFile.read? path src = some f)
    (hu : updateFile env s i f m = some (u, m')) (hchanged : u.changed = true) :
    u.plan.edits.countP Edit.isGroup =
        (if f.importCount Naming.contextPath = 0 then 1 else 0) ∧
      ∃ out plain, u.output = .ok out ∧
        Edit.splice f.src (u.plan.edits.filter (!·.isGroup)) = .ok plain ∧
        (f.importCount Naming.contextPath ≠ 0 → ∀ f', SourceFile.read? path out = some f' →
          f'.importCount Naming.contextPath = f.importCount Naming.contextPath) ∧
        (f.importCount Naming.contextPath = 0 → ∀ clause p g, f.clause? = some clause →
          f.src.lineEnd? clause.stop = some p → f.root.Opens clause p →
          SourceFile.read? path plain = some g →
            ∃ (f' : SourceFile) (x : Tree), SourceFile.read? path out = some f' ∧
              f'.importCount Naming.contextPath = 1 ∧
              x.PutFirst Code.groupText.length g.root f'.root ∧ x.kind = .importDeclaration ∧
              x.start = p + 2 ∧ out.slice x.start x.stop = Bytes.ofString ContextImport.group) := by
  have hparse : Code.parse? f.src = some f.root := by
    obtain ⟨root, hparse, rfl⟩ := Option.map_eq_some_iff.mp hf
    exact hparse
  have hroot := Code.parse?_laid hparse
  obtain ⟨hfile, hsound⟩ := updateFile_sound hroot hu
  obtain ⟨out, hout⟩ := FileUpdate.output_ok (hfile.symm ▸ hsound)
  obtain ⟨plain, hplain⟩ := Edit.splice_ok (hsound.pairwise.filter (!·.isGroup))
    fun e he => hsound.fits (List.mem_of_mem_filter he)
  have hspells := fun f' hline (hf' : SourceFile.read? path out = some f') =>
    updateFile_spells hf hu hchanged hline hout hf'
  have hout' := hout
  rw [FileUpdate.output, hfile] at hout'
  obtain ⟨hits, hhits, rfl⟩ := updateFile_eq_some.mp hu
  obtain ⟨hlen, hspec⟩ := hits_of_laid hroot hhits
  refine ⟨countP_edits hparse hspec hchanged, out, plain, hout, hplain, fun hcount f' hf' => ?_,
    fun hcount clause p g hclause hp hopens hg => ?_⟩
  · obtain ⟨its, its', hits, hits', hperm⟩ := hspells f' (fun p hp => absurd hp.1 hcount) hf'
    rw [if_neg hcount, List.replicate_zero, List.append_nil] at hperm
    rw [SourceFile.importCount_of_spells hits, SourceFile.importCount_of_spells hits',
      (hperm.map _).count_eq]
  · obtain ⟨root₁, hparse₁, rfl⟩ := Option.map_eq_some_iff.mp hg
    obtain ⟨out', root₂, x, hsplice, hparse₂, hput, hk, hstart, hgroup⟩ :=
      exists_putFirst hparse hspec hlen hchanged hcount hclause hp hopens hplain hparse₁
    obtain rfl : out' = out := Except.ok.inj (hsplice.symm.trans hout')
    have hf' : SourceFile.read? path out' = some ⟨path, out', root₂⟩ := by
      rw [SourceFile.read?, hparse₂]
      rfl
    refine ⟨_, x, hf', ?_, hput, hk, hstart, hgroup⟩
    have hline : ∀ q : Nat, ContextImport.AtLine f q → f.root.Clear q := by
      rintro q ⟨-, clause', hclause', hq⟩
      obtain rfl : clause = clause' := Option.some.inj (hclause.symm.trans hclause')
      obtain rfl : p = q := Option.some.inj (hp.symm.trans hq)
      exact hopens.clear hparse
    obtain ⟨its, its', hits, hits', hperm⟩ := hspells _ hline hf'
    rw [if_pos hcount] at hperm
    rw [SourceFile.importCount_of_spells hits] at hcount
    rw [SourceFile.importCount_of_spells hits', (hperm.map _).count_eq, List.map_append,
      List.count_append, hcount]
    simp [Import.added_names.2]

/-- A file with comments around its package clause and a semicolon behind it. -/
def commentedClause : Bytes := Bytes.ofString <|
  "// The package a.\npackage a; /* and */ // more\n\nimport c \"example.com/context\"\n\n" ++
  "func f(s string) \x7b\n\tg()\n\x7d\n"

/-- The import is the first declaration of the new text of that file. -/
theorem updateFile_imports_commentedClause :
    ∃ f u m' out f' x, SourceFile.read? ⟨"", ["a.go"]⟩ commentedClause = some f ∧
      f.importCount Naming.contextPath = 0 ∧
      updateFile (.ofPackage ⟨"a", [f]⟩) {} 0 f {} = some (u, m') ∧ u.changed = true ∧
      u.output = .ok out ∧ SourceFile.read? ⟨"", ["a.go"]⟩ out = some f' ∧
      f'.importCount Naming.contextPath = 1 ∧ x ∈ f'.root.children ∧
      x.kind = .importDeclaration ∧ x.start = 48 ∧
      out.slice x.start x.stop = Bytes.ofString ContextImport.group := by
  have h : ((SourceFile.read? ⟨"", ["a.go"]⟩ commentedClause).bind fun f =>
      f.clause?.bind fun clause => (f.src.lineEnd? clause.stop).bind fun p =>
        (updateFile (.ofPackage ⟨"a", [f]⟩) {} 0 f {}).bind fun r =>
          (Edit.splice f.src (r.1.plan.edits.filter (!·.isGroup))).toOption.bind fun plain =>
            (SourceFile.read? ⟨"", ["a.go"]⟩ plain).map fun _ =>
              decide (f.importCount Naming.contextPath = 0 ∧ r.1.changed = true ∧ p = 46 ∧
                ∀ t ∈ f.root.children, t.start < p →
                  t = clause ∨ t.isMute = true ∧ t.stop ≤ p)) = some true := by
    decide +kernel
  obtain ⟨f, hf, h⟩ := Option.bind_eq_some_iff.mp h
  obtain ⟨clause, hclause, h⟩ := Option.bind_eq_some_iff.mp h
  obtain ⟨p, hp, h⟩ := Option.bind_eq_some_iff.mp h
  obtain ⟨⟨u, m'⟩, hu, h⟩ := Option.bind_eq_some_iff.mp h
  obtain ⟨plain, hplain, h⟩ := Option.bind_eq_some_iff.mp h
  obtain ⟨g, hg, h⟩ := Option.map_eq_some_iff.mp h
  obtain ⟨hcount, hchanged, rfl, hothers⟩ := of_decide_eq_true h
  have hopens : f.root.Opens clause 46 :=
    ⟨List.mem_of_find?_eq_some hclause, by simpa using List.find?_some hclause,
      (Bytes.getElem?_of_lineEnd? hp).1, hothers⟩
  obtain ⟨-, out, plain', hout, hplain', -, hfirst⟩ := updateFile_imports hf hu hchanged
  dsimp only at hplain
  rw [hplain'] at hplain
  obtain rfl : plain' = plain := Option.some.inj hplain
  obtain ⟨f', x, hf', hone, ⟨front, back, -, hchildren, -, -⟩, hk, hstart, hgroup⟩ :=
    hfirst hcount clause 46 g hclause hp hopens hg
  exact ⟨f, u, m', out, f', x, hf, hcount, hu, hchanged, hout, hf', hone, by simp [hchildren], hk,
    hstart, hgroup⟩

/-- A file in which the body of a function starts on the line of the package clause. -/
def bodyOnClauseLine : Bytes := Bytes.ofString "package a; func f() \x7b\n\tg()\n\x7d\n"

/-- The import falls inside that body, so that the new text does not parse. -/
theorem read?_eq_none_bodyOnClauseLine :
    ∃ f clause u m' out, SourceFile.read? ⟨"", ["a.go"]⟩ bodyOnClauseLine = some f ∧
      f.clause? = some clause ∧ f.importCount Naming.contextPath = 0 ∧
      updateFile (.ofPackage ⟨"a", [f]⟩) {} 0 f {} = some (u, m') ∧ u.changed = true ∧
      u.output = .ok out ∧ SourceFile.read? ⟨"", ["a.go"]⟩ out = none := by
  have h : ((SourceFile.read? ⟨"", ["a.go"]⟩ bodyOnClauseLine).bind fun f =>
      f.clause?.bind fun _ => (updateFile (.ofPackage ⟨"a", [f]⟩) {} 0 f {}).bind fun r =>
        r.1.output.toOption.map fun out =>
          decide (f.importCount Naming.contextPath = 0 ∧ r.1.changed = true ∧
            (SourceFile.read? ⟨"", ["a.go"]⟩ out).isNone = true)) = some true := by
    decide +kernel
  obtain ⟨f, hf, h⟩ := Option.bind_eq_some_iff.mp h
  obtain ⟨clause, hclause, h⟩ := Option.bind_eq_some_iff.mp h
  obtain ⟨⟨u, m'⟩, hu, h⟩ := Option.bind_eq_some_iff.mp h
  obtain ⟨out, hout, h⟩ := Option.map_eq_some_iff.mp h
  obtain ⟨hcount, hchanged, hnone⟩ := of_decide_eq_true h
  refine ⟨f, clause, u, m', out, hf, hclause, hcount, hu, hchanged, ?_,
    Option.isNone_iff_eq_none.mp hnone⟩
  cases hresult : u.output with
  | ok bytes =>
    rw [hresult] at hout
    exact congrArg Except.ok (Option.some.inj hout)
  | error o =>
    rw [hresult] at hout
    cases hout

end CtxThread
