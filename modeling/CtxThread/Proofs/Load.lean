import CtxThread.Load
import CtxThread.Proofs.Disk
import CtxThread.Proofs.Edit.Splice

/-!
# The packages of a directory

Every source file of a directory counts towards one package, as a member or as an error. Loading
groups the files by these packages: the packages come in the order of their first files, each with
its own files in their order, whatever the others hold.

## Main definitions

- `contribution`: the package that a file counts towards, and what it adds
- `Loaded.gather`: a package made of what is added to it

## Main statements

- `load_eq`: loading a directory groups the contributions of its files
- `mem_files_of_load`: what is known of a file of a loaded package
- `nodup_places_of_load`: the files of all packages stand at different places
-/

namespace CtxThread

/-- The package that a file counts towards, and the file itself or why it is left out. -/
def contribution (diagnose : Bytes → Diagnosis) (d : Disk) (path : Path) :
    String × Except FileError SourceFile :=
  match d.read path with
  | .error e => ("", .error (.unreadable path e))
  | .ok src =>
    match SourceFile.read? path src with
    | none => ((diagnose src).package, .error (.malformed path (diagnose src).place))
    | some f => (f.packageName, .ok f)

namespace Loaded

/-- A package with one more file or error. -/
def join (l : Loaded) : Except FileError SourceFile → Loaded
  | .error e => { l with errors := l.errors ++ [e] }
  | .ok f => { l with files := l.files ++ [f] }

/-- The package `name`, made of what is added to it. -/
def gather (cs : List (String × Except FileError SourceFile)) (name : String) : Loaded where
  name := name
  files := cs.filterMap fun c => if c.1 = name then c.2.toOption else none
  errors := cs.filterMap fun c =>
    if c.1 = name then
      match c.2 with
      | .error e => some e
      | .ok _ => none
    else none

end Loaded

theorem addFile_eq (diagnose : Bytes → Diagnosis) (d : Disk) (ls : List Loaded) (path : Path) :
    addFile diagnose d ls path =
      Loaded.update (contribution diagnose d path).1
        (·.join (contribution diagnose d path).2) ls := by
  unfold addFile contribution
  cases d.read path with
  | error e => rfl
  | ok src =>
    dsimp only
    cases SourceFile.read? path src with
    | none => rfl
    | some f => rfl

namespace Loaded

variable {cs : List (String × Except FileError SourceFile)} {names : List String} {name : String}

theorem gather_concat (cs : List (String × Except FileError SourceFile))
    (c : String × Except FileError SourceFile) (name : String) :
    gather (cs ++ [c]) name = if name = c.1 then (gather cs name).join c.2 else gather cs name := by
  obtain ⟨owner, e | f⟩ := c
  · by_cases h : owner = name
    · simp [gather, join, Except.toOption, h]
    · simp [gather, h, Ne.symm h]
  · by_cases h : owner = name
    · simp [gather, join, Except.toOption, h]
    · simp [gather, h, Ne.symm h]

theorem mem_files_gather {f : SourceFile} :
    f ∈ (gather cs name).files ↔ (name, .ok f) ∈ cs := by
  simp only [gather, List.mem_filterMap, Prod.exists]
  constructor
  · rintro ⟨owner, c, hc, h⟩
    split at h
    · next howner =>
      cases c with
      | error e => cases h
      | ok f' =>
        cases h
        exact howner ▸ hc
    · cases h
  · intro h
    exact ⟨name, .ok f, h, if_pos rfl⟩

theorem ok_gather_iff :
    (gather cs name).ok = true ↔ ∀ c ∈ cs, c.1 = name → c.2.isOk = true := by
  rw [ok, List.isEmpty_iff, gather, List.filterMap_eq_nil_iff]
  refine forall₂_congr fun c _ => ?_
  obtain ⟨owner, e | f⟩ := c
  · simp [Except.isOk, Except.toBool]
  · simp [Except.isOk, Except.toBool]

/-- Changing one of several packages of different names, or adding one. -/
theorem update_map (change : Loaded → Loaded) {make : String → Loaded}
    (hmake : ∀ n, (make n).name = n) (hnames : names.Nodup) :
    update name change (names.map make) =
      names.map (fun n => if n = name then change (make n) else make n) ++
        if name ∈ names then [] else [change { name := name }] := by
  induction names with
  | nil => rfl
  | cons n names ih =>
    obtain ⟨hn, hrest⟩ := List.nodup_cons.mp hnames
    rw [List.map_cons, update, hmake]
    by_cases h : n = name
    · subst h
      have hsame : names.map (fun m => if m = n then change (make m) else make m) =
          names.map make := by
        refine List.map_congr_left fun m hm => if_neg ?_
        rintro rfl
        exact hn hm
      simp [hsame]
    · simp [h, Ne.symm h, ih hrest]

end Loaded

theorem nodup_eraseDups {α : Type} [BEq α] [LawfulBEq α] (as : List α) : as.eraseDups.Nodup := by
  cases as with
  | nil => exact List.nodup_nil
  | cons a as =>
    rw [List.eraseDups_cons, List.nodup_cons]
    exact ⟨by simp [List.mem_eraseDups], nodup_eraseDups _⟩
termination_by as.length
decreasing_by exact Nat.lt_succ_of_le (List.length_filter_le _ as)

/-- The packages that files count towards, in the order of their first files. -/
def grouped (cs : List (String × Except FileError SourceFile)) : List Loaded :=
  (cs.map Prod.fst).eraseDups.map (Loaded.gather cs)

theorem eraseDups_concat {α : Type} [BEq α] [LawfulBEq α] (as : List α) (a : α) :
    (as ++ [a]).eraseDups = as.eraseDups ++ if a ∈ as then [] else [a] := by
  rw [List.eraseDups_append]
  by_cases h : a ∈ as
  · simp [List.removeAll, h]
  · simp [List.removeAll, h, List.eraseDups_cons]

theorem update_grouped (cs : List (String × Except FileError SourceFile))
    (c : String × Except FileError SourceFile) :
    Loaded.update c.1 (·.join c.2) (grouped cs) = grouped (cs ++ [c]) := by
  have hnew : c.1 ∉ cs.map Prod.fst → Loaded.gather cs c.1 = { name := c.1 } := by
    intro h
    have hnone : ∀ x ∈ cs, x.1 ≠ c.1 := fun x hx hxc => h (hxc ▸ List.mem_map_of_mem hx)
    unfold Loaded.gather
    congr 1
    · exact List.filterMap_eq_nil_iff.mpr fun x hx => if_neg (hnone x hx)
    · exact List.filterMap_eq_nil_iff.mpr fun x hx => if_neg (hnone x hx)
  unfold grouped
  rw [Loaded.update_map _ (fun _ => rfl) (nodup_eraseDups _), List.map_append, List.map_singleton,
    eraseDups_concat, List.map_append, funext (Loaded.gather_concat cs c)]
  simp only [List.mem_eraseDups]
  congr 1
  split
  · rfl
  · next h => rw [List.map_singleton, if_pos rfl, hnew h]

/-- Loading a directory groups what its files contribute. -/
theorem load_eq (diagnose : Bytes → Diagnosis) (d : Disk) (dir : Path) :
    load diagnose d dir =
      (sourcePaths d dir).map fun paths => grouped (paths.map (contribution diagnose d)) := by
  have hfold : ∀ paths : List Path,
      paths.foldl (addFile diagnose d) [] = grouped (paths.map (contribution diagnose d)) := by
    intro paths
    induction paths using List.reverseRecOn with
    | nil => rfl
    | append_singleton paths path ih =>
      rw [List.foldl_concat, ih, addFile_eq, update_grouped, List.map_append]
      rfl
  unfold load
  simp only [hfold]

theorem load_eq_ok_iff {diagnose : Bytes → Diagnosis} {d : Disk} {dir : Path}
    {ls : List Loaded} : load diagnose d dir = .ok ls ↔
      ∃ paths, sourcePaths d dir = .ok paths ∧
        ls = grouped (paths.map (contribution diagnose d)) := by
  rw [load_eq]
  cases sourcePaths d dir with
  | error e => simp [Except.map]
  | ok paths => simp [Except.map, eq_comm]

/-! ## The files of a directory -/

variable {diagnose : Bytes → Diagnosis} {d : Disk} {dir : Path} {ls : List Loaded} {l : Loaded}
  {f : SourceFile}

/-- Source files are named for themselves: their names do not lead up. -/
theorem place_entryPath {name : String} (h : isSourceName name = true) (dir : Path) :
    (entryPath dir name).place = dir.place ++ [name] := by
  have hup : name ≠ ".." := by
    rintro rfl
    exact absurd h (by decide)
  have hdot : name ≠ "." := by
    rintro rfl
    exact absurd h (by decide)
  simp [entryPath, Path.join, Path.place, Path.start, Disk.step, hup, hdot]

/-- An entry of a directory that counts: it is named like a source file and is no directory. -/
def isSource (d : Disk) (dir : Path) (name : String) : Bool :=
  isSourceName name && !d.isDirectory (entryPath dir name)

/-- The source files of a directory are known exactly if it can be told what each of its entries
is. -/
theorem sourcesAmong_eq_ok_iff {names : List String} {paths : List Path} :
    sourcesAmong d dir names = .ok paths ↔
      (∀ name ∈ names, ∃ x, d.status (entryPath dir name) = .ok x) ∧
        paths = (names.filter (isSource d dir)).map (entryPath dir) := by
  induction names generalizing paths with
  | nil => simp [sourcesAmong, eq_comm]
  | cons name names ih =>
    rw [sourcesAmong]
    cases hstatus : d.status (entryPath dir name) with
    | error e => simp [hstatus, bind, Except.bind]
    | ok x =>
      have hdir := Disk.status_isDirectory hstatus
      cases hrest : sourcesAmong d dir names with
      | error e =>
        have hnone : ¬ ∀ n ∈ names, ∃ x, d.status (entryPath dir n) = .ok x := fun hall => by
          have hok := ih.mpr ⟨hall, rfl⟩
          rw [hrest] at hok
          cases hok
        simp [bind, Except.bind, hnone]
      | ok rest =>
        obtain ⟨htold, rfl⟩ := ih.mp hrest
        have htold' : ∀ n ∈ name :: names, ∃ x, d.status (entryPath dir n) = .ok x :=
          List.forall_mem_cons.mpr ⟨⟨x, hstatus⟩, htold⟩
        have hsource : (x.any Entry.isDirectory || !isSourceName name) = !isSource d dir name := by
          rw [hdir, isSource, Bool.not_and, Bool.not_not, Bool.or_comm]
        simp only [bind, Except.bind, pure, Except.pure, hsource, List.filter_cons]
        cases isSource d dir name with
        | false => simpa [eq_comm] using fun _ => htold'
        | true => simpa [eq_comm] using fun _ => htold'

theorem status_of_sourcesAmong {names : List String} {e : OsError}
    (h : sourcesAmong d dir names = .error e) :
    ∃ name ∈ names, d.status (entryPath dir name) = .error e := by
  induction names with
  | nil => cases h
  | cons name names ih =>
    rw [sourcesAmong] at h
    cases hstatus : d.status (entryPath dir name) with
    | error x =>
      rw [hstatus] at h
      cases h
      exact ⟨name, List.mem_cons_self, hstatus⟩
    | ok x =>
      rw [hstatus] at h
      cases hrest : sourcesAmong d dir names with
      | error y =>
        rw [hrest] at h
        cases h
        obtain ⟨n, hn, hn'⟩ := ih hrest
        exact ⟨n, List.mem_cons_of_mem _ hn, hn'⟩
      | ok paths =>
        rw [hrest] at h
        simp only [bind, Except.bind, pure, Except.pure] at h
        split at h
        · cases h
        · cases h

theorem sourcePaths_eq_ok_iff {paths : List Path} : sourcePaths d dir = .ok paths ↔
    ∃ names, d.list dir = .ok names ∧
      (∀ name ∈ names, ∃ x, d.status (entryPath dir name) = .ok x) ∧
      paths = (names.filter (isSource d dir)).map (entryPath dir) := by
  unfold sourcePaths
  cases d.list dir with
  | error e => simp
  | ok names =>
    simp only [Except.ok.injEq, exists_eq_left', ← sourcesAmong_eq_ok_iff]
    cases sourcesAmong d dir names with
    | error e => simp [Except.mapError]
    | ok paths' => simp [Except.mapError]

/-- The source files of a directory stand at different places, each right below the directory. -/
theorem sourcePaths_spec {paths : List Path} (h : sourcePaths d dir = .ok paths) :
    (paths.map Path.place).Nodup ∧ ∀ path ∈ paths, ∃ name,
      isSourceName name = true ∧ path = entryPath dir name := by
  obtain ⟨names, hnames, _, rfl⟩ := sourcePaths_eq_ok_iff.mp h
  have hsource : ∀ name ∈ names.filter (isSource d dir), isSourceName name = true := by
    intro name hname
    exact (Bool.and_eq_true _ _ ▸ (List.mem_filter.mp hname).2).1
  have hnodup : names.Nodup := by
    unfold Disk.list at hnames
    split at hnames
    · cases hnames
    · split at hnames
      · cases hnames
      · cases hnames
        rw [Disk.namesIn, Order.sort_eq_insertionSort]
        exact (List.perm_insertionSort _ _).nodup_iff.mpr (nodup_eraseDups _)
    · cases hnames
  constructor
  · rw [List.map_map]
    refine (hnodup.filter _).map_on fun a ha b hb hab => ?_
    simp only [Function.comp_apply, place_entryPath (hsource a ha), place_entryPath (hsource b hb),
      List.append_cancel_left_eq, List.cons.injEq] at hab
    exact hab.1
  · intro path hpath
    obtain ⟨name, hname, rfl⟩ := List.mem_map.mp hpath
    exact ⟨name, hsource name hname, rfl⟩

/-- Only a directory can be listed. -/
theorem isDirectory_of_list {names : List String} (h : d.list dir = .ok names) :
    d.isDirectory dir = true := by
  unfold Disk.list at h
  split at h
  · cases h
  · next l hstat =>
    rw [Disk.isDirectory, hstat]
    rfl
  · cases h

/-- Only a directory can be loaded. -/
theorem load_of_not_isDirectory (h : d.isDirectory dir = false) :
    ∃ e, load diagnose d dir = .error e := by
  cases hlist : d.list dir with
  | ok names =>
    rw [isDirectory_of_list hlist] at h
    cases h
  | error e => exact ⟨.unlisted dir e, by rw [load, sourcePaths, hlist]; rfl⟩

/-- Loading stops at an entry of which it cannot be told what it is. -/
theorem untold_of_load {cause : OsError} (h : load diagnose d dir = .error (.untold cause)) :
    ∃ names, d.list dir = .ok names ∧
      ∃ name ∈ names, d.status (entryPath dir name) = .error cause := by
  unfold load sourcePaths at h
  cases hlist : d.list dir with
  | error e =>
    rw [hlist] at h
    cases h
  | ok names =>
    rw [hlist] at h
    dsimp only at h
    cases hpaths : sourcesAmong d dir names with
    | ok paths =>
      rw [hpaths] at h
      cases h
    | error e =>
      rw [hpaths] at h
      cases h
      exact ⟨names, rfl, status_of_sourcesAmong hpaths⟩

theorem not_unlisted_of_list {names : List String} {directory : Path} {cause : OsError}
    (h : d.list dir = .ok names) : load diagnose d dir ≠ .error (.unlisted directory cause) := by
  unfold load sourcePaths
  rw [h]
  dsimp only
  cases sourcesAmong d dir names with
  | ok paths =>
    intro h
    cases h
  | error e =>
    intro h
    cases h

theorem contribution_eq_ok {path : Path} {name : String}
    (h : contribution diagnose d path = (name, .ok f)) :
    d.read path = .ok f.src ∧ SourceFile.read? path f.src = some f ∧ f.path = path ∧
      f.packageName = name := by
  unfold contribution at h
  split at h
  · cases h
  · next src hsrc =>
    split at h
    · cases h
    · next hread =>
      cases h
      obtain ⟨root, _, rfl⟩ := Option.map_eq_some_iff.mp hread
      exact ⟨hsrc, hread, rfl, rfl⟩

/-- A file of a loaded package is a source file of the directory that could be read and parsed. -/
theorem mem_files_of_load (h : load diagnose d dir = .ok ls) (hl : l ∈ ls) (hf : f ∈ l.files) :
    (∃ name, isSourceName name = true ∧ f.path = entryPath dir name) ∧
      d.read f.path = .ok f.src ∧ SourceFile.read? f.path f.src = some f ∧
      f.packageName = l.name := by
  obtain ⟨paths, hpaths, rfl⟩ := load_eq_ok_iff.mp h
  obtain ⟨name, hname, rfl⟩ := List.mem_map.mp hl
  obtain ⟨path, hpath, hc⟩ := List.mem_map.mp (Loaded.mem_files_gather.mp hf)
  obtain ⟨hread, hparse, hfpath, hpackage⟩ := contribution_eq_ok hc
  obtain ⟨n, hn, hjoin⟩ := (sourcePaths_spec hpaths).2 path hpath
  rw [hfpath]
  exact ⟨⟨n, hn, hjoin⟩, hread, hparse, hpackage⟩

theorem gather_places_sublist (diagnose : Bytes → Diagnosis) (d : Disk) (paths : List Path)
    (name : String) :
    ((Loaded.gather (paths.map (contribution diagnose d)) name).files.map (·.path)).Sublist
      paths := by
  simp only [Loaded.gather, List.filterMap_map]
  induction paths with
  | nil => exact .slnil
  | cons path paths ih =>
    rw [List.filterMap_cons]
    split
    · exact ih.cons _
    · next f hf =>
      have hmem : f ∈ (Loaded.gather [contribution diagnose d path] name).files :=
        List.mem_filterMap.mpr ⟨_, List.mem_singleton_self _, hf⟩
      have hc := List.mem_singleton.mp (Loaded.mem_files_gather.mp hmem)
      rw [List.map_cons, (contribution_eq_ok hc.symm).2.2.1]
      exact ih.cons_cons _

/-- The files of all packages of a directory stand at different places. -/
theorem nodup_places_of_load (h : load diagnose d dir = .ok ls) :
    ((ls.flatMap (·.files)).map (·.path.place)).Nodup := by
  obtain ⟨paths, hpaths, rfl⟩ := load_eq_ok_iff.mp h
  obtain ⟨hnodup, _⟩ := sourcePaths_spec hpaths
  rw [List.map_flatMap, grouped, List.flatMap_map, List.nodup_flatMap]
  constructor
  · intro name _
    have hsub := (gather_places_sublist diagnose d paths name).map Path.place
    rw [List.map_map] at hsub
    exact hnodup.sublist hsub
  · -- a place tells the path, and the path tells the package
    refine (nodup_eraseDups _).imp ?_
    intro a b hab place ha hb
    obtain ⟨f, hf, rfl⟩ := List.mem_map.mp ha
    obtain ⟨g, hg, hplace⟩ := List.mem_map.mp hb
    obtain ⟨path, hpath, hc⟩ := List.mem_map.mp (Loaded.mem_files_gather.mp hf)
    obtain ⟨path', hpath', hc'⟩ := List.mem_map.mp (Loaded.mem_files_gather.mp hg)
    have hsame : path' = path := by
      apply List.inj_on_of_nodup_map hnodup hpath' hpath
      rw [← (contribution_eq_ok hc).2.2.1, ← (contribution_eq_ok hc').2.2.1, hplace]
    rw [hsame, hc] at hc'
    exact hab (congrArg Prod.fst hc')

end CtxThread
