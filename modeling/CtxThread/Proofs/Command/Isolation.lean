import CtxThread.Proofs.Command.Effects

/-!
# A package by itself

What a run does to the files of a package depends on the files of this package only, on the
options, the formatter and on which of these files are protected. Other packages in the directory,
their errors, and files that cannot be emitted make no difference.

## Main definitions

- `members`: the source files of a directory that count towards a package, with their contents

## Main statements

- `mem_load_iff_of_members`: a package without errors is loaded from its own files
- `Command.runOptions_isolated`: two runs do the same with a package that has the same files
-/

namespace CtxThread

/-- The source files of a directory that count towards a package: their names, and their contents
if they can be read. -/
def members (diagnose : Bytes → Diagnosis) (d : Disk) (dir : Path) (name : String) :
    Except LoadError (List (String × Option Bytes)) :=
  (sourcePaths d dir).map fun paths =>
    (paths.filter fun path => (contribution diagnose d path).1 = name).map fun path =>
      (path.name, (d.read path).toOption)

/-! ## Loading one package -/

variable {diagnose diagnose' : Bytes → Diagnosis} {d e : Disk} {dir : Path} {name : String}
  {l : Loaded} {ls ls' : List Loaded} {ms : List (String × Option Bytes)}

/-- What a member contributes, if it can be read and parsed. -/
def contributionOf? (dir : Path) (m : String × Option Bytes) :
    Option (String × Except FileError SourceFile) :=
  (m.2.bind (SourceFile.read? (entryPath dir m.1))).map fun f => (f.packageName, .ok f)

/-- A package is gathered from the files that count towards it. -/
theorem Loaded.gather_filter (cs : List (String × Except FileError SourceFile)) (name : String) :
    gather cs name = gather (cs.filter (·.1 = name)) name := by
  induction cs using List.reverseRecOn with
  | nil => rfl
  | append_singleton cs c ih =>
    rw [List.filter_append, gather_concat]
    by_cases h : c.1 = name
    · rw [if_pos h.symm, List.filter_cons_of_pos (by simpa using h), List.filter_nil, gather_concat,
        if_pos h.symm, ih]
    · rw [if_neg (Ne.symm h), List.filter_cons_of_neg (by simpa using h), List.filter_nil,
        List.append_nil, ih]

theorem mem_grouped {cs : List (String × Except FileError SourceFile)} :
    l ∈ grouped cs ↔ cs.filter (·.1 = l.name) ≠ [] ∧
      l = Loaded.gather (cs.filter (·.1 = l.name)) l.name := by
  simp only [grouped, List.mem_map, List.mem_eraseDups, ← Loaded.gather_filter, ne_eq,
    List.filter_eq_nil_iff, not_forall]
  constructor
  · rintro ⟨_, ⟨c, hc, rfl⟩, rfl⟩
    exact ⟨⟨c, hc, by simp [Loaded.gather]⟩, rfl⟩
  · rintro ⟨⟨c, hc, hname⟩, hl⟩
    exact ⟨l.name, ⟨c, hc, by simpa using hname⟩, hl.symm⟩

/-- What is added to a package whose members can be read and parsed depends on their names and
contents. -/
theorem contributions_of_members {paths : List Path} (hpaths : sourcePaths d dir = .ok paths)
    (hm : members diagnose d dir name = .ok ms)
    (hsound : ∀ m ∈ ms, (contributionOf? dir m).isSome = true) :
    ((paths.map (contribution diagnose d)).filter (·.1 = name)).map some =
      ms.map (contributionOf? dir) := by
  rw [members, hpaths] at hm
  cases hm
  rw [List.filter_map, List.map_map, List.map_map]
  refine List.map_congr_left fun path hpath => ?_
  have hsome := hsound _ (List.mem_map_of_mem hpath)
  obtain ⟨n, _, rfl⟩ := (sourcePaths_spec hpaths).2 path (List.mem_filter.mp hpath).1
  have hname : (entryPath dir n).name = n := by simp [entryPath, Path.join, Path.name]
  simp only [Function.comp_apply, contributionOf?, hname] at hsome ⊢
  unfold contribution
  cases hsrc : d.read (entryPath dir n) with
  | error x =>
    rw [hsrc] at hsome
    cases hsome
  | ok src =>
    rw [hsrc] at hsome
    dsimp only [Except.toOption, Option.bind_some] at hsome ⊢
    cases hparse : SourceFile.read? (entryPath dir n) src with
    | none =>
      rw [hparse] at hsome
      cases hsome
    | some f => rfl

/-- The files of a package without errors could be read and parsed. -/
theorem isSome_of_members (hm : members diagnose d dir name = .ok ms)
    (hload : load diagnose d dir = .ok ls) (hok : ∀ l ∈ ls, l.name = name → l.ok = true) :
    ∀ m ∈ ms, (contributionOf? dir m).isSome = true := by
  obtain ⟨paths, hpaths, rfl⟩ := load_eq_ok_iff.mp hload
  rw [members, hpaths] at hm
  cases hm
  intro m hmem
  obtain ⟨path, hpath, rfl⟩ := List.mem_map.mp hmem
  obtain ⟨hpath, hname⟩ := List.mem_filter.mp hpath
  have hc : contribution diagnose d path ∈ paths.map (contribution diagnose d) :=
    List.mem_map_of_mem hpath
  have hname' : (contribution diagnose d path).1 = name := by simpa using hname
  have hgathered : Loaded.gather (paths.map (contribution diagnose d)) name ∈
      grouped (paths.map (contribution diagnose d)) :=
    List.mem_map_of_mem (List.mem_eraseDups.mpr (hname' ▸ List.mem_map_of_mem hc))
  have hgood := Loaded.ok_gather_iff.mp (hok _ hgathered rfl) _ hc hname'
  cases hcontribution : contribution diagnose d path with
  | mk owner c =>
    cases c with
    | error e =>
      rw [hcontribution] at hgood
      cases hgood
    | ok f =>
      obtain ⟨hread, hparse, _, _⟩ := contribution_eq_ok hcontribution
      obtain ⟨n, _, rfl⟩ := (sourcePaths_spec hpaths).2 path hpath
      have hn : (entryPath dir n).name = n := by simp [entryPath, Path.join, Path.name]
      simp [contributionOf?, hn, hread, hparse, Except.toOption]

/-- A package without errors is loaded alike from two directories in which the same files count
towards it. -/
theorem mem_load_iff_of_members (hd : members diagnose d dir l.name = .ok ms)
    (he : members diagnose' e dir l.name = .ok ms) (hload : load diagnose d dir = .ok ls)
    (hload' : load diagnose' e dir = .ok ls') (hok : ∀ k ∈ ls, k.name = l.name → k.ok = true) :
    l ∈ ls ↔ l ∈ ls' := by
  have hsound := isSome_of_members hd hload hok
  obtain ⟨paths, hpaths, rfl⟩ := load_eq_ok_iff.mp hload
  obtain ⟨paths', hpaths', rfl⟩ := load_eq_ok_iff.mp hload'
  have hsame : (paths.map (contribution diagnose d)).filter (·.1 = l.name) =
      (paths'.map (contribution diagnose' e)).filter (·.1 = l.name) := by
    refine List.map_injective_iff.mpr (Option.some_injective _) ?_
    rw [contributions_of_members hpaths hd hsound, contributions_of_members hpaths' he hsound]
  rw [mem_grouped, mem_grouped, hsame]

/-- The files of a loaded package are among those that count towards it. -/
theorem mem_members_of_load {f : SourceFile} (hm : members diagnose d dir l.name = .ok ms)
    (hload : load diagnose d dir = .ok ls) (hl : l ∈ ls) (hf : f ∈ l.files) :
    ∃ n, f.path.place = dir.place ++ [n] ∧ (n, some f.src) ∈ ms := by
  obtain ⟨paths, hpaths, rfl⟩ := load_eq_ok_iff.mp hload
  rw [members, hpaths] at hm
  cases hm
  obtain ⟨name, _, rfl⟩ := List.mem_map.mp hl
  obtain ⟨path, hpath, hc⟩ := List.mem_map.mp (Loaded.mem_files_gather.mp hf)
  obtain ⟨hread, _, hfpath, _⟩ := contribution_eq_ok hc
  obtain ⟨n, hn, rfl⟩ := (sourcePaths_spec hpaths).2 path hpath
  refine ⟨n, by rw [hfpath, place_entryPath hn], List.mem_map.mpr ⟨entryPath dir n, ?_, ?_⟩⟩
  · exact List.mem_filter.mpr ⟨hpath, by rw [hc]; exact decide_eq_true rfl⟩
  · rw [hread]
    simp [entryPath, Path.join, Path.name, Except.toOption]

namespace Command

variable {o : Options} {w₁ w₂ w₁' w₂' : World} {c₁ c₂ : Nat}

/-- A run on a directory that can be listed is told by its account. -/
theorem account_of_members (h : runOptions o w₁ = (.ok c₁, w₁'))
    (hm : members w₁.diagnose w₁.disk (.ofString o.dir) name = .ok ms) :
    ∃ ls, Account o w₁ w₁' ls := by
  obtain ⟨_, ⟨e, he⟩, _⟩ | ⟨_, haccount⟩ := runOptions_eq_ok h
  · rw [load_eq] at he
    rw [members] at hm
    cases hpaths : sourcePaths w₁.disk (.ofString o.dir) with
    | error x =>
      rw [hpaths] at hm
      cases hm
    | ok paths =>
      rw [hpaths] at he
      cases he
  · exact haccount

theorem mem_files_of_mem_updates {u : FileUpdate} (h : ∀ l ∈ ls, l.ok = true →
      updatePackage l.package ⟨o.http, o.echo⟩ o.files = some (l.updates o))
    (hl : l ∈ ls) (hu : u ∈ l.updates o) : u.file ∈ l.files := by
  by_cases hok : l.ok = true
  · have hmem : u.file ∈ (l.updates o).map (·.file) := List.mem_map_of_mem hu
    rw [updatePackage_files (h l hl hok)] at hmem
    exact (List.mem_filter.mp hmem).1
  · rw [Loaded.updates, if_neg hok] at hu
    cases hu

/-- What stands in the end at the place of an updated file: what was written back, or else what
was read. -/
theorem Account.entry?_of_mem {u : FileUpdate} (h : Account o w₁ w₁' ls) (hl : l ∈ ls)
    (hu : u ∈ l.updates o)
    (haside : u.file.path.place ∉ asidePlaces o (ls.flatMap (Loaded.updates o))) :
    w₁'.disk.entry? u.file.path.place = some (.file ((u.written? o w₁).getD u.file.src)) := by
  obtain ⟨last, _, hdoes⟩ := h.does
  have hcontent := content?_of_mem (o := o) (w := w₁) h.nodup_places
    (List.mem_flatMap.mpr ⟨l, hl, hu⟩)
  cases hwritten : u.written? o w₁ with
  | some data =>
    rw [hwritten] at hcontent
    exact hdoes.written _ haside data hcontent
  | none =>
    rw [hwritten] at hcontent
    have hfile := mem_files_of_mem_updates h.updated hl hu
    have hentry := (Disk.read_eq_ok_iff.mp (mem_files_of_load h.load hl hfile).2.1).2.1
    obtain hkept | ⟨_, hnone, _⟩ := hdoes.kept _ haside hcontent
    · rw [hkept, hentry]
      rfl
    · rw [hentry] at hnone
      cases hnone

/-- Two runs with the same options and the same formatter that both end with a code do the same
with every file of a package without errors that has the same files in both directories, the same
of them protected: the package is loaded alike, and what is printed or written of each of its
files, what is logged about it and its account in the report are the same, whatever else is in the
two directories. -/
theorem runOptions_isolated (h₁ : runOptions o w₁ = (.ok c₁, w₁'))
    (h₂ : runOptions o w₂ = (.ok c₂, w₂')) (hformatter : w₂.formatter = w₁.formatter)
    (hd : members w₁.diagnose w₁.disk (.ofString o.dir) name = .ok ms)
    (he : members w₂.diagnose w₂.disk (.ofString o.dir) name = .ok ms)
    (hok : ∀ ls, load w₁.diagnose w₁.disk (.ofString o.dir) = .ok ls →
      ∀ k ∈ ls, k.name = name → k.ok = true)
    (hlocked : ∀ m ∈ ms, (Path.ofString o.dir).place ++ [m.1] ∈ w₂.disk.readonly ↔
      (Path.ofString o.dir).place ++ [m.1] ∈ w₁.disk.readonly) :
    ∃ ls₁ ls₂, Account o w₁ w₁' ls₁ ∧ Account o w₂ w₂' ls₂ ∧
      ∀ l, l.name = name → (l ∈ ls₁ ↔ l ∈ ls₂) ∧
        (l ∈ ls₁ → l.log o w₂ = l.log o w₁ ∧ ∀ u ∈ l.updates o,
          u.printed o w₂ = u.printed o w₁ ∧ u.written? o w₂ = u.written? o w₁ ∧
          u.notices o w₂ = u.notices o w₁ ∧
          (u.file.path.place ∉ asidePlaces o (ls₁.flatMap (Loaded.updates o)) →
            u.file.path.place ∉ asidePlaces o (ls₂.flatMap (Loaded.updates o)) →
            w₂'.disk.entry? u.file.path.place = w₁'.disk.entry? u.file.path.place)) := by
  obtain ⟨ls₁, haccount₁⟩ := account_of_members h₁ hd
  obtain ⟨ls₂, haccount₂⟩ := account_of_members h₂ he
  refine ⟨ls₁, ls₂, haccount₁, haccount₂, ?_⟩
  rintro l rfl
  have hmem : l ∈ ls₁ ↔ l ∈ ls₂ :=
    mem_load_iff_of_members hd he haccount₁.load haccount₂.load (hok ls₁ haccount₁.load)
  refine ⟨hmem, fun hl => ?_⟩
  have hemission : ∀ u ∈ l.updates o, u.emission o w₂ = u.emission o w₁ := by
    intro u hu
    obtain ⟨n, hplace, hn⟩ := mem_members_of_load hd haccount₁.load hl
      (mem_files_of_mem_updates haccount₁.updated hl hu)
    have hsame : w₂.disk.readonly.contains u.file.path.place =
        w₁.disk.readonly.contains u.file.path.place := by
      rw [Bool.eq_iff_iff, List.contains_iff_mem, List.contains_iff_mem, hplace]
      exact hlocked _ hn
    rw [FileUpdate.emission, FileUpdate.emission, hformatter, hsame]
  have hnotices : ∀ u ∈ l.updates o, u.notices o w₂ = u.notices o w₁ := by
    intro u hu
    rw [FileUpdate.notices, FileUpdate.notices, FileUpdate.verdict, FileUpdate.verdict,
      hemission u hu]
  constructor
  · rw [Loaded.log, Loaded.log, List.map_congr_left hnotices]
  intro u hu
  have hwritten : u.written? o w₂ = u.written? o w₁ := by
    rw [FileUpdate.written?, FileUpdate.written?, hemission u hu]
  refine ⟨?_, hwritten, hnotices u hu, fun haside₁ haside₂ => ?_⟩
  · rw [FileUpdate.printed, FileUpdate.printed, hemission u hu]
  · rw [haccount₁.entry?_of_mem hl hu haside₁, haccount₂.entry?_of_mem (hmem.mp hl) hu haside₂,
      hwritten]

/-- The two files of the package by themselves. -/
def sparseWorld : World where
  disk := {
    entries := [(["a.go"], .file oneLineHandler), (["b.go"], .file oneLineHandler)]
    readonly := [["b.go"]] }
  formatter := .absent

/-- A broken package in the directory makes no difference to the other one. -/
theorem runOptions_isolated_sparseWorld :
    ∃ w₁' w₂' ls₁ ls₂, runOptions { write := true } sparseWorld = (.ok 0, w₁') ∧
      runOptions { write := true } protectedWorld = (.ok 0, w₂') ∧
      load sparseWorld.diagnose sparseWorld.disk (.ofString ".") = .ok ls₁ ∧
      load protectedWorld.diagnose protectedWorld.disk (.ofString ".") = .ok ls₂ ∧
      ∀ l, l.name = "p" → (l ∈ ls₁ ↔ l ∈ ls₂) ∧
        (l ∈ ls₁ → l.log { write := true } protectedWorld = l.log { write := true } sparseWorld) := by
  have hrun₁ : runOptions { write := true } sparseWorld =
      (.ok 0, (runOptions { write := true } sparseWorld).2) := run_eq_ok (by decide +kernel)
  have hrun₂ : runOptions { write := true } protectedWorld =
      (.ok 0, (runOptions { write := true } protectedWorld).2) := run_eq_ok (by decide +kernel)
  have hd : (members sparseWorld.diagnose sparseWorld.disk (.ofString ".") "p").toOption =
      some [("a.go", some oneLineHandler), ("b.go", some oneLineHandler)] := by
    decide +kernel
  have he : (members protectedWorld.diagnose protectedWorld.disk (.ofString ".") "p").toOption =
      some [("a.go", some oneLineHandler), ("b.go", some oneLineHandler)] := by
    decide +kernel
  have hall : ((load sparseWorld.diagnose sparseWorld.disk (.ofString ".")).toOption.getD []).all
      (fun k => k.name ≠ "p" || k.ok) = true := by
    decide +kernel
  have hok : ∀ ls, load sparseWorld.diagnose sparseWorld.disk (.ofString ".") = .ok ls →
      ∀ k ∈ ls, k.name = "p" → k.ok = true := by
    intro ls hls k hk hname
    rw [hls] at hall
    simpa [hname] using List.all_eq_true.mp hall k hk
  obtain ⟨ls₁, ls₂, haccount₁, haccount₂, hsame⟩ := runOptions_isolated hrun₁ hrun₂ rfl
    (eq_ok_of_toOption hd) (eq_ok_of_toOption he) hok (by decide)
  exact ⟨_, _, ls₁, ls₂, hrun₁, hrun₂, haccount₁.load, haccount₂.load, fun l hl =>
    ⟨(hsame l hl).1, fun hmem => ((hsame l hl).2 hmem).1⟩⟩

end Command

end CtxThread
