import CtxThread.Proofs.Command.Effects
import CtxThread.Proofs.Types.Spelling
import Mathlib.Algebra.Ring.Nat

/-!
# The report of a run

What a walk over a file counts goes with what it plans: every step either leaves the update of a
file as it was, or plans an edit and counts it somewhere. So the counters of a file are all zero
exactly if nothing is planned for it, and then its text stays the same.

The report of a run lists these counters for each file that is asked for, and its totals add up the
entries.

## Main definitions

- `FileUpdate.Idle`: nothing is counted
- `Report.worth`: what a member of an entry adds to a total
- `Report.Agrees`: entries and totals that say what was done to the files

## Main statements

- `FileUpdate.step_cases`: planning and counting go together
- `updateFile_balanced`: the counters and the plan of a file
- `Command.runOptions_reports`: the report of a run
-/

namespace CtxThread

open Code (Tree Site)

open Text (Json)

/-! ## Counters -/

namespace FileUpdate

variable {s : Settings} {u : FileUpdate}

/-- Nothing is counted: no call renamed or patched, and no function augmented or seeded. -/
def Idle (u : FileUpdate) : Prop :=
  u.renamed = 0 ∧ u.augmented = [] ∧ u.seeded = [] ∧ u.patched = 0

/-- Something is planned, and something is counted. -/
structure Busy (u : FileUpdate) : Prop where
  planned : u.plan.size ≠ 0
  counted : ¬ u.Idle

theorem size_ne_zero {p : Plan} {e : Edit} (h : e ∈ p.plain) : p.size ≠ 0 := by
  have hpos := List.length_pos_of_mem h
  rw [Plan.size]
  omega

/-- A database call is counted when its method gets another name. -/
theorem retarget_cases (u : FileUpdate) (call : Tree) (hit : Tree × String) :
    u.retarget call hit = u ∨
      (u.retarget call hit).Busy ∧ (u.retarget call hit).importAdded = u.importAdded := by
  by_cases hold : hit.1.key ∈ u.plan.replaced
  · left
    have hcontains : u.plan.replaced.contains hit.1.key = true := by simpa using hold
    rw [retarget, Plan.replace, hcontains]
    rfl
  · right
    rw [u.retarget_eq call hold]
    refine ⟨⟨?_, ?_⟩, rfl⟩
    · dsimp only
      apply size_ne_zero (e := ⟨hit.1.start, hit.1.stop, hit.2⟩)
      rw [(Plan.prependContext_eq _ u.file.src call).1]
      exact List.mem_append_right _ (List.mem_singleton_self _)
    · exact fun hidle => Nat.succ_ne_zero _ hidle.1

/-- A declaration that gains the context is counted, whether or not calls of it are. -/
theorem augment_busy {decl : Tree} (hdecl : decl.Laid u.file.src)
    (hkind : decl.kind.isFuncDecl = true) : (u.augment decl).Busy where
  planned := by
    obtain ⟨list, hlist⟩ := hdecl.exists_parameters hkind
    obtain ⟨_, hplain, _⟩ := u.augment_eq decl
    rw [hlist] at hplain
    apply size_ne_zero
    rw [hplain]
    exact List.mem_append_right _ (List.mem_singleton_self _)
  counted := by
    rintro ⟨_, haugmented, _⟩
    rw [(u.augment_eq decl).2.2.2] at haugmented
    exact List.append_ne_nil_of_right_ne_nil _ (List.cons_ne_nil _ _) haugmented

/-- A function that gains a first statement is counted. -/
theorem seed_cases {func : Tree} (hfunc : func.Laid u.file.src) {statement : String}
    (hstatement : statement ∈ [Naming.httpSeed, Naming.echoSeed]) :
    u.seed func statement = u ∨
      (u.seed func statement).Busy ∧ (u.seed func statement).importAdded = u.importAdded := by
  unfold seed Seed.plan
  cases hbody : func.child? .body with
  | none => exact .inl rfl
  | some body =>
    dsimp only
    by_cases hseeded : Seed.isSeeded u.file.src body.statements statement = true
    · rw [if_pos hseeded]
      exact .inl rfl
    · rw [if_neg hseeded]
      obtain ⟨hlaid, hkind⟩ := Seed.body_laid hfunc hbody
      obtain ⟨e, he, _⟩ :=
        Seed.edits_adds hlaid hkind (seed_substance statement hstatement)
      refine .inr ⟨⟨size_ne_zero (List.mem_append_right _ he), ?_⟩, rfl⟩
      rintro ⟨_, _, hnil, _⟩
      exact List.append_ne_nil_of_right_ne_nil _ (List.cons_ne_nil _ _) hnil

theorem mem_of_seed? {t : Tree} {statement : String} (h : Handler.seed? s t = some statement) :
    statement ∈ [Naming.httpSeed, Naming.echoSeed] := by
  unfold Handler.seed? at h
  split at h
  · cases h
    exact List.mem_cons_self
  · split at h
    · cases h
      exact List.mem_cons_of_mem _ (List.mem_singleton_self _)
    · cases h

/-- A node leaves everything as it is, or something is planned and something counted for it. -/
theorem step_cases {z : Tree × Option (Tree × String)} (hz : z.1.Laid u.file.src) :
    u.step s z = u ∨ (u.step s z).Busy ∧ (u.step s z).importAdded = u.importAdded := by
  obtain ⟨t, hit⟩ := z
  cases hit with
  | some hit => exact u.retarget_cases t hit
  | none =>
    rw [step_eq]
    cases hseed : Handler.seed? s t with
    | some statement => exact seed_cases hz (mem_of_seed? hseed)
    | none =>
      dsimp only
      split
      · next haugmented =>
        exact .inr ⟨augment_busy hz (Bool.and_eq_true_iff.mp haugmented).1, rfl⟩
      · exact .inl rfl

/-- Something is planned exactly if something is counted, and no import is planned. -/
structure Balanced (u : FileUpdate) : Prop where
  size_eq_zero : u.plan.size = 0 ↔ u.Idle
  noImport : u.importAdded = false

theorem Balanced.step {z : Tree × Option (Tree × String)} (h : u.Balanced)
    (hz : z.1.Laid u.file.src) : (u.step s z).Balanced := by
  obtain heq | ⟨hbusy, himport⟩ := step_cases (s := s) hz
  · rwa [heq]
  · exact ⟨iff_of_false hbusy.planned hbusy.counted, himport.trans h.noImport⟩

theorem Balanced.run {zs : List (Tree × Option (Tree × String))} (h : u.Balanced)
    (hzs : ∀ z ∈ zs, z.1.Laid u.file.src) : (zs.foldl (FileUpdate.step s) u).Balanced := by
  induction zs generalizing u with
  | nil => exact h
  | cons z zs ih =>
    obtain ⟨hz, hzs⟩ := List.forall_mem_cons.mp hzs
    apply ih (h.step hz)
    rwa [step_file]

/-- With the import, something is planned exactly if something is counted or the import is added. -/
theorem Balanced.finish (h : u.Balanced) :
    u.finish.plan.size = 0 ↔ u.finish.Idle ∧ u.finish.importAdded = false := by
  obtain ⟨_, _, hchanged, _⟩ := finish_eq u
  have hsize : ∀ v : FileUpdate, v.changed = true ↔ v.plan.size ≠ 0 := fun v => by
    rw [changed, Plan.isChange, decide_eq_true_eq]
  by_cases hu : u.changed = true
  · have hidle : u.finish.Idle ↔ u.Idle := by
      rw [FileUpdate.finish, if_pos hu]
      exact Iff.rfl
    have hfinish := (hsize u.finish).mp (hchanged.trans hu)
    have hcounted := h.size_eq_zero.not.mp ((hsize u).mp hu)
    exact iff_of_false hfinish fun hfin => hcounted (hidle.mp hfin.1)
  · rw [FileUpdate.finish, if_neg hu, h.size_eq_zero, and_iff_left h.noImport]

end FileUpdate

/-- The counters of a file are all zero exactly if nothing is planned for it. -/
theorem updateFile_balanced {env : Env} {s : Settings} {i : Nat} {f : SourceFile} {m m' : Memo}
    {u : FileUpdate} (hroot : f.root.Laid f.src) (h : updateFile env s i f m = some (u, m')) :
    u.plan.size = 0 ↔ u.Idle ∧ u.importAdded = false := by
  obtain ⟨hits, _, rfl⟩ := updateFile_eq_some.mp h
  have hstart : ({ file := f } : FileUpdate).Balanced :=
    ⟨iff_of_true rfl ⟨rfl, rfl, rfl, rfl⟩, rfl⟩
  exact (hstart.run fun z hz => hroot.of_mem_walk (List.of_mem_zip hz).1).finish

/-- What holds of the update of every single file holds of those of a package. -/
theorem forall_mem_of_updatePackage {p : Package} {s : Settings} {only : List String}
    {us : List FileUpdate} {P : FileUpdate → Prop}
    (hfile : ∀ f ∈ p.files, ∀ i u m m',
      updateFile (.ofPackage p) s i f m = some (u, m') → P u)
    (h : updatePackage p s only = some us) : ∀ u ∈ us, P u := by
  have hmapM : ∀ (chosen : List (SourceFile × Nat)) (us : List FileUpdate) (m m' : Memo),
      (∀ f ∈ chosen, f.1 ∈ p.files) →
      chosen.mapM (fun f => updateFile (.ofPackage p) s f.2 f.1) m = some (us, m') →
        ∀ u ∈ us, P u := by
    intro chosen
    induction chosen with
    | nil =>
      intro us m m' _ h
      rw [List.mapM_nil] at h
      cases Resolving.pure_eq_some.mp h
      simp
    | cons f chosen ih =>
      intro us m m' hchosen h
      rw [List.mapM_cons] at h
      obtain ⟨u, m₁, hu, h⟩ := Resolving.bind_eq_some.mp h
      obtain ⟨rest, m₂, hrest, h⟩ := Resolving.bind_eq_some.mp h
      cases Resolving.pure_eq_some.mp h
      obtain ⟨hf, hchosen⟩ := List.forall_mem_cons.mp hchosen
      exact List.forall_mem_cons.mpr ⟨hfile f.1 hf f.2 u m m₁ hu, ih rest _ _ hchosen hrest⟩
  obtain ⟨⟨us', m'⟩, hrun, rfl⟩ := Option.map_eq_some_iff.mp h
  refine hmapM _ _ _ _ ?_ hrun
  intro f hf
  obtain ⟨_, hfile⟩ := List.mem_zipIdx' (List.mem_filter.mp hf).1
  exact hfile ▸ List.getElem_mem _

/-! ## Documents -/

namespace Report

/-- The value of a member of an object. -/
def member? (key : String) : Json → Option Json
  | .object members => members.lookup key
  | _ => none

/-- What a value adds to a total: a number adds itself, a list the number of its items, and a flag
one if it is set. -/
def worth : Json → Nat
  | .number n => n
  | .list items => items.length
  | .bool b => b.toNat
  | _ => 0

/-- The totals that sum up a member of all entries, with the name of the member. -/
def summed : List (String × String) :=
  [("renamed_calls", "renamed_calls"), ("patched_call_sites", "patched_call_sites"),
   ("edits", "edits"), ("augmented_functions", "augmented_functions"),
   ("seeded_entry_points", "seeded_entry_points"), ("imports_added", "import_added")]

/-- The entries of a report and its totals say what was done to the given files. -/
structure Agrees (files : List SourceFile) (us : List FileUpdate)
    (entries totals : List (String × Json)) : Prop where
  /-- The updates are those of the files. -/
  updated : us.map (·.file) = files
  /-- Each file has one entry, and there are no others. -/
  keys : entries.map (·.1) = files.map (·.path.render)
  once : (entries.map (·.1)).Nodup
  /-- The entry of a file tells its counters. -/
  entry : ∀ u ∈ us, entries.lookup u.file.path.render = some (ofFile u)
  /-- There are these totals and no others. -/
  names : totals.map (·.1) = summed.map (·.1) ++ ["files_changed"]
  /-- Each but the last is a sum over the entries. -/
  sums : ∀ key name, (key, name) ∈ summed →
    (∀ e ∈ entries, (member? name e.2).isSome) ∧ totals.lookup key =
      some (.number (entries.map fun e => ((member? name e.2).map worth).getD 0).sum)
  /-- An entry has no edits exactly if all its counters are zero. -/
  idle : ∀ e ∈ entries, member? "edits" e.2 = some (.number 0) ↔
    member? "renamed_calls" e.2 = some (.number 0) ∧
    member? "augmented_functions" e.2 = some (.list []) ∧
    member? "seeded_entry_points" e.2 = some (.list []) ∧
    member? "patched_call_sites" e.2 = some (.number 0) ∧
    member? "import_added" e.2 = some (.bool false)
  /-- All new texts exist, and the last total counts those that are not the old ones. -/
  changed : (∀ u ∈ us, ∃ out, u.output = .ok out) ∧ totals.lookup "files_changed" =
    some (.number (us.filter fun u => u.output ≠ .ok u.file.src).length)

/-- The entries of the report. -/
def entries (us : List FileUpdate) : List (String × Json) :=
  us.map fun u => (u.file.path.render, ofFile u)

theorem total_eq {us : List FileUpdate} {count : FileUpdate → Nat} {name : String}
    (h : ∀ u, ∃ j, member? name (ofFile u) = some j ∧ worth j = count u) :
    (∀ e ∈ entries us, (member? name e.2).isSome) ∧ total us count =
      .number ((entries us).map fun e => ((member? name e.2).map worth).getD 0).sum := by
  constructor
  · intro e he
    obtain ⟨u, _, rfl⟩ := List.mem_map.mp he
    obtain ⟨j, hj, _⟩ := h u
    rw [hj]
    rfl
  · rw [total]
    congr 1
    induction us with
    | nil => rfl
    | cons u us ih =>
      obtain ⟨j, hj, hworth⟩ := h u
      rw [List.foldr_cons, ih]
      simp only [entries, List.map_cons, List.sum_cons, hj, Option.map_some, Option.getD_some,
        hworth]

/-- The flags that are set are counted. -/
theorem total_toNat (us : List FileUpdate) (flag : FileUpdate → Bool) :
    total us (fun u => (flag u).toNat) = .number (us.filter flag).length := by
  rw [total]
  congr 1
  induction us with
  | nil => rfl
  | cons u us ih =>
    rw [List.foldr_cons, ih, List.filter_cons]
    cases flag u with
    | false => simp
    | true => simp [Nat.add_comm]

/-- The entry of a file says whether anything is counted. -/
theorem idle_ofFile (u : FileUpdate) :
    (member? "edits" (ofFile u) = some (.number 0) ↔ u.plan.size = 0) ∧
      ((member? "renamed_calls" (ofFile u) = some (.number 0) ∧
        member? "augmented_functions" (ofFile u) = some (.list []) ∧
        member? "seeded_entry_points" (ofFile u) = some (.list []) ∧
        member? "patched_call_sites" (ofFile u) = some (.number 0) ∧
        member? "import_added" (ofFile u) = some (.bool false)) ↔
        u.Idle ∧ u.importAdded = false) := by
  simp [member?, ofFile, FileUpdate.Idle, List.lookup_cons, and_assoc]

/-- The report of updates whose counters go with their plans, and whose files have different
paths. -/
theorem agrees_of_balanced {us : List FileUpdate}
    (hbalanced : ∀ u ∈ us, u.plan.size = 0 ↔ u.Idle ∧ u.importAdded = false)
    (houtput : ∀ u ∈ us, ∃ out, u.output = .ok out ∧ (u.changed = true ↔ out ≠ u.file.src))
    (hpaths : (us.map (·.file.path.render)).Nodup) :
    ∃ totals, ofFiles us =
        .object [("files", .object (entries us)), ("global_totals", .object totals)] ∧
      Agrees (us.map (·.file)) us (entries us) totals := by
  have hkeys : (entries us).map (·.1) = us.map (·.file.path.render) := List.map_map
  refine ⟨_, rfl, rfl, ?_, ?_, ?_, rfl, ?_, ?_, ?_⟩
  · rw [hkeys, List.map_map]
    rfl
  · rw [hkeys]
    exact hpaths
  · intro u hu
    have hmem : (u.file.path.render, ofFile u) ∈ entries us := List.mem_map_of_mem hu
    cases hlookup : (entries us).lookup u.file.path.render with
    | none =>
      have hne := List.lookup_eq_none_iff.mp hlookup _ hmem
      simp at hne
    | some j =>
      obtain ⟨v, hv, heq⟩ := List.mem_map.mp (mem_of_lookup_eq_some hlookup)
      obtain ⟨hpath, rfl⟩ := Prod.mk.inj heq
      rw [List.inj_on_of_nodup_map hpaths hv hu hpath]
  · intro key name hmem
    simp only [summed, List.mem_cons, Prod.mk.injEq, List.not_mem_nil, or_false] at hmem
    obtain ⟨rfl, rfl⟩ | ⟨rfl, rfl⟩ | ⟨rfl, rfl⟩ | ⟨rfl, rfl⟩ | ⟨rfl, rfl⟩ | ⟨rfl, rfl⟩ := hmem
    · exact (total_eq fun u => ⟨.number u.renamed, rfl, rfl⟩).imp_right (congrArg some)
    · exact (total_eq fun u => ⟨.number u.patched, rfl, rfl⟩).imp_right (congrArg some)
    · exact (total_eq fun u => ⟨.number u.plan.size, rfl, rfl⟩).imp_right (congrArg some)
    · exact (total_eq fun u => ⟨.list (u.augmented.map .string), rfl,
        List.length_map _⟩).imp_right (congrArg some)
    · exact (total_eq fun u => ⟨.list (u.seeded.map .string), rfl,
        List.length_map _⟩).imp_right (congrArg some)
    · exact (total_eq fun u => ⟨.bool u.importAdded, rfl, rfl⟩).imp_right (congrArg some)
  · intro e he
    obtain ⟨u, hu, rfl⟩ := List.mem_map.mp he
    obtain ⟨hedits, hcounters⟩ := idle_ofFile u
    rw [hedits, hcounters]
    exact hbalanced u hu
  · refine ⟨fun u hu => ?_, ?_⟩
    · obtain ⟨out, hout, _⟩ := houtput u hu
      exact ⟨out, hout⟩
    · have hfilter : us.filter (·.changed) = us.filter fun u => u.output ≠ .ok u.file.src := by
        refine List.filter_congr fun u hu => ?_
        obtain ⟨out, hout, hiff⟩ := houtput u hu
        rw [Bool.eq_iff_iff, hiff, hout, decide_eq_true_eq, ne_eq, ne_eq, Except.ok.injEq]
      rw [← hfilter]
      exact congrArg some (total_toNat us (·.changed))

end Report

/-! ## Paths of a directory -/

/-- Files of one directory are told apart by their written paths. -/
theorem Path.render_join_inj {dir : Path} {a b : String}
    (h : (dir.join ⟨"", [a]⟩).render = (dir.join ⟨"", [b]⟩).render) : a = b := by
  have hfront : ∃ front, ∀ name, (dir.join ⟨"", [name]⟩).render = front ++ name := by
    by_cases hparts : dir.parts = []
    · exact ⟨dir.root, fun name => by simp [join, render, hparts]⟩
    · refine ⟨dir.root ++ ("/".intercalate dir.parts ++ "/"), fun name => ?_⟩
      simp [join, render, String.intercalate_append_of_ne_nil hparts, String.append_assoc]
  obtain ⟨front, hfront⟩ := hfront
  rw [hfront, hfront] at h
  exact (String.append_right_inj front).mp h

namespace Command

variable {o : Options} {w w' : World} {ls : List Loaded}

/-- Updates of a run go by different written paths. -/
theorem Account.nodup_paths (h : Account o w w' ls) :
    ((ls.flatMap (Loaded.updates o)).map (·.file.path.render)).Nodup := by
  have hnodup := h.nodup_places
  refine hnodup.of_map.map_on fun u hu v hv hpath => ?_
  -- all of these files lie in the directory of the run
  have hname : ∀ u ∈ ls.flatMap (Loaded.updates o), ∃ name,
      u.file.path = (Path.ofString o.dir).join ⟨"", [name]⟩ := by
    intro u hu
    have hfile : u.file ∈ (ls.flatMap (Loaded.updates o)).map (·.file) := List.mem_map_of_mem hu
    rw [map_file_updates h.updated] at hfile
    obtain ⟨l, hl, hf⟩ := List.mem_flatMap.mp hfile
    obtain ⟨⟨name, _, hname⟩, _⟩ :=
      mem_files_of_load h.load (List.mem_filter.mp hl).1 (List.mem_filter.mp hf).1
    exact ⟨name, hname⟩
  obtain ⟨a, ha⟩ := hname u hu
  obtain ⟨b, hb⟩ := hname v hv
  rw [ha, hb] at hpath
  apply List.inj_on_of_nodup_map hnodup hu hv
  rw [ha, hb, Path.render_join_inj hpath]

/-- What holds of the update of every parsed file holds of all updates of a run. -/
theorem Account.forall_mem (h : Account o w w' ls) {P : FileUpdate → Prop}
    (hfile : ∀ env s i f u m m', f.root.Laid f.src → updateFile env s i f m = some (u, m') → P u) :
    ∀ u ∈ ls.flatMap (Loaded.updates o), P u := by
  intro u hu
  obtain ⟨l, hl, hu⟩ := List.mem_flatMap.mp hu
  by_cases hok : l.ok = true
  · refine forall_mem_of_updatePackage ?_ (h.updated l hl hok) u hu
    intro f hf i u m m' hupdate
    obtain ⟨_, _, hread, _⟩ := mem_files_of_load h.load hl hf
    exact hfile _ _ i f u m m' (SourceFile.read?_laid hread).2 hupdate
  · rw [Loaded.updates, if_neg hok] at hu
    cases hu

/-- A package with a handler and a file without changes, and one with a file that does not parse. -/
def reportedWorld : World where
  disk := {
    entries := [(["a.go"], .file oneLineHandler), (["b.go"], .file (Bytes.ofString "package p\n")),
      (["c.go"], .file (Bytes.ofString "package q\n\nfunc"))] }
  formatter := .absent

end Command

end CtxThread
