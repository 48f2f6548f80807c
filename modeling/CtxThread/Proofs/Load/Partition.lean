import CtxThread.Proofs.Load
import Mathlib.Algebra.Ring.Nat

/-!
# How a directory falls into packages

Every source file of a directory counts once: as a file of the package that its clause names, or as
one error of one package. The packages are told apart by their names and come in the order in which
something first counts towards them.

A file that cannot be read is such an error. An entry of which it cannot be told whether it is a
directory is not: it stops the loading of the whole directory.

## Main definitions

- `Contributes`: what a source file counts towards, and as what
- `Partitions`: packages that the source files of a directory fall into

## Main statements

- `load_partitions`: when a directory that can be listed is loaded, and that it then falls into
  packages
- `load_untold_windingPath`: a directory that can be listed and is not loaded
-/

namespace CtxThread

/-- A source file counts as a member of the package that its clause names, or as an error of the
package that it claims to belong to, or of the one without a name if it cannot be read. -/
inductive Contributes (diagnose : Bytes → Diagnosis) (d : Disk) (path : Path) :
    String → Except FileError SourceFile → Prop
  | member {src : Bytes} {f : SourceFile} (hread : d.read path = .ok src)
      (hparse : SourceFile.read? path src = some f) :
      Contributes diagnose d path f.packageName (.ok f)
  | malformed {src : Bytes} (hread : d.read path = .ok src)
      (hparse : SourceFile.read? path src = none) :
      Contributes diagnose d path (diagnose src).package
        (.error (.malformed path (diagnose src).place))
  | unreadable {e : OsError} (hread : d.read path = .error e) :
      Contributes diagnose d path "" (.error (.unreadable path e))

/-- All that counts towards a package, each with the name of the package. -/
def Loaded.contributions (l : Loaded) : List (String × Except FileError SourceFile) :=
  l.files.map (fun f => (l.name, .ok f)) ++ l.errors.map fun e => (l.name, .error e)

/-- The entries `names` of a directory fall into the packages `ls`. -/
structure Partitions (diagnose : Bytes → Diagnosis) (d : Disk) (dir : Path) (names : List String)
    (ls : List Loaded) : Prop where
  /-- Every source file counts once, no other entry counts, and the packages come in the order in
  which something first counts towards them. -/
  once : ∃ cs : List (String × Except FileError SourceFile),
    List.Forall₂ (fun name c => Contributes diagnose d (entryPath dir name) c.1 c.2)
      (names.filter (isSource d dir)) cs ∧
    (ls.flatMap Loaded.contributions).Perm cs ∧ ls.map (·.name) = (cs.map Prod.fst).eraseDups ∧
    ∀ l ∈ ls, l.ok = true ↔ ∀ c ∈ cs, c.1 = l.name → c.2.isOk = true
  /-- No two packages have the same name. -/
  nodup : (ls.map (·.name)).Nodup
  /-- The files of a package are in the order of their names. -/
  sorted : ∀ l ∈ ls, (l.files.map (·.path.name)).Pairwise (· < ·)

variable {diagnose : Bytes → Diagnosis} {d : Disk} {dir : Path} {names : List String}
  {ls : List Loaded}

theorem contributes_contribution (diagnose : Bytes → Diagnosis) (d : Disk) (path : Path) :
    Contributes diagnose d path (contribution diagnose d path).1
      (contribution diagnose d path).2 := by
  unfold contribution
  split
  · next hread => exact .unreadable hread
  · next hread =>
    split
    · next hparse => exact .malformed hread hparse
    · next hparse => exact .member hread hparse

/-- The names in a directory are listed in their order, each once. -/
theorem pairwise_namesIn (d : Disk) (l : Location) : (d.namesIn l).Pairwise (· < ·) := by
  let le (a b : String) : Bool := decide (a ≤ b)
  let entries := d.entries.filterMap fun e =>
    if e.1.dropLast = l && !e.1.isEmpty then e.1.getLast? else none
  have htotal : Std.Total fun a b : String => le a b = true :=
    ⟨fun a b => by simpa [le] using String.le_total a b⟩
  have htrans : IsTrans String fun a b => le a b = true :=
    ⟨fun a b c hab hbc => by
      simp only [le, decide_eq_true_eq] at hab hbc ⊢
      exact String.le_trans hab hbc⟩
  have hsort : d.namesIn l = entries.eraseDups.insertionSort fun a b => le a b = true :=
    Order.sort_eq_insertionSort le _
  have hsorted : (d.namesIn l).Pairwise (· ≤ ·) := by
    rw [hsort]
    exact (List.pairwise_insertionSort _ _).imp of_decide_eq_true
  have hnodup : (d.namesIn l).Nodup := by
    rw [hsort]
    exact (List.perm_insertionSort _ _).nodup_iff.mpr (nodup_eraseDups _)
  exact hsorted.imp₂ (fun _ _ hle hne => Std.lt_of_le_of_ne hle hne) hnodup

/-- The entries of a directory are listed in the order of their names. -/
theorem pairwise_of_list (h : d.list dir = .ok names) : names.Pairwise (· < ·) := by
  unfold Disk.list at h
  split at h
  · cases h
  · next l _ =>
    split at h
    · cases h
    · cases h
      exact pairwise_namesIn d l
  · cases h

theorem name_entryPath (dir : Path) (name : String) : (entryPath dir name).name = name := by
  simp [entryPath, Path.join, Path.name]

/-! ## Nothing is lost and nothing counts twice -/

section

variable {cs : List (String × Except FileError SourceFile)} {keys : List String}

/-- What counts towards a package is what has its name. -/
theorem Loaded.contributions_gather (cs : List (String × Except FileError SourceFile))
    (name : String) : (gather cs name).contributions.Perm (cs.filter (·.1 = name)) := by
  induction cs with
  | nil => exact .nil
  | cons c cs ih =>
    obtain ⟨owner, e | f⟩ := c
    · by_cases h : owner = name
      · subst h
        have hfiles : (gather ((owner, .error e) :: cs) owner).files = (gather cs owner).files := by
          simp [gather, Except.toOption]
        have herrors : (gather ((owner, .error e) :: cs) owner).errors =
            e :: (gather cs owner).errors := by
          simp [gather]
        rw [contributions, hfiles, herrors, List.filter_cons_of_pos (by simp)]
        exact List.perm_middle.trans (ih.cons _)
      · simpa [gather, contributions, h] using ih
    · by_cases h : owner = name
      · subst h
        have hfiles : (gather ((owner, .ok f) :: cs) owner).files = f :: (gather cs owner).files := by
          simp [gather, Except.toOption]
        have herrors : (gather ((owner, .ok f) :: cs) owner).errors = (gather cs owner).errors := by
          simp [gather]
        rw [contributions, hfiles, herrors, List.filter_cons_of_pos (by simp)]
        exact ih.cons _
      · simpa [gather, contributions, h] using ih

/-- A list falls into the parts that its keys tell apart. -/
theorem perm_flatMap_filter (hkeys : keys.Nodup) (h : ∀ c ∈ cs, c.1 ∈ keys) :
    (keys.flatMap fun key => cs.filter (·.1 = key)).Perm cs := by
  induction keys generalizing cs with
  | nil =>
    have hnil : cs = [] := List.eq_nil_iff_forall_not_mem.mpr fun c hc => by simpa using h c hc
    rw [hnil]
    exact .nil
  | cons key keys ih =>
    obtain ⟨hkey, hkeys⟩ := List.nodup_cons.mp hkeys
    let rest := cs.filter fun c => !decide (c.1 = key)
    have hrest : ∀ c ∈ rest, c.1 ∈ keys := by
      intro c hc
      obtain ⟨hmem, hne⟩ := List.mem_filter.mp hc
      exact (List.mem_cons.mp (h c hmem)).resolve_left (by simpa using hne)
    -- what has one of the other keys is not affected
    have hsame : (keys.flatMap fun k => cs.filter (·.1 = k)) =
        keys.flatMap fun k => rest.filter (·.1 = k) := by
      refine List.flatMap_congr fun k hk => ?_
      rw [List.filter_filter]
      refine List.filter_congr fun c _ => ?_
      by_cases hc : c.1 = k
      · have hne : c.1 ≠ key := fun heq => hkey (heq ▸ hc ▸ hk)
        simp [hc, hc ▸ hne]
      · simp [hc]
    rw [List.flatMap_cons, hsame]
    exact ((ih hkeys hrest).append_left _).trans (List.filter_append_perm _ cs)

theorem contributions_grouped (cs : List (String × Except FileError SourceFile)) :
    ((grouped cs).flatMap Loaded.contributions).Perm cs := by
  rw [grouped, List.flatMap_map]
  refine (List.Perm.flatMap_left _ fun name _ => Loaded.contributions_gather cs name).trans ?_
  refine perm_flatMap_filter (nodup_eraseDups _) fun c hc => ?_
  exact List.mem_eraseDups.mpr (List.mem_map_of_mem hc)

end

/-- What is loaded from a directory are the packages that its entries fall into. -/
theorem partitions_of_load (hlist : d.list dir = .ok names) (h : load diagnose d dir = .ok ls) :
    Partitions diagnose d dir names ls := by
  obtain ⟨paths, hpaths, rfl⟩ := load_eq_ok_iff.mp h
  obtain ⟨names', hlist', _, rfl⟩ := sourcePaths_eq_ok_iff.mp hpaths
  rw [hlist] at hlist'
  cases hlist'
  let paths := (names.filter (isSource d dir)).map (entryPath dir)
  let cs := paths.map (contribution diagnose d)
  have hnames : (grouped cs).map (·.name) = (cs.map Prod.fst).eraseDups := by
    rw [grouped, List.map_map]
    exact List.map_id _
  refine ⟨⟨cs, ?_, contributions_grouped cs, hnames, ?_⟩, ?_, ?_⟩
  · rw [List.forall₂_map_right_iff, List.forall₂_map_right_iff]
    exact List.forall₂_same.mpr fun name _ =>
      contributes_contribution diagnose d (entryPath dir name)
  · intro l hl
    obtain ⟨name, -, rfl⟩ := List.mem_map.mp hl
    exact Loaded.ok_gather_iff
  · rw [hnames]
    exact nodup_eraseDups _
  · intro l hl
    obtain ⟨name, -, rfl⟩ := List.mem_map.mp hl
    have hsorted : (paths.map Path.name).Pairwise (· < ·) := by
      have hmap : paths.map Path.name = names.filter (isSource d dir) := by
        rw [List.map_map]
        exact (List.map_congr_left fun n _ => name_entryPath dir n).trans (List.map_id _)
      rw [hmap]
      exact (pairwise_of_list hlist).filter _
    have hsub := (gather_places_sublist diagnose d paths name).map Path.name
    rw [List.map_map] at hsub
    exact hsorted.sublist hsub

/-- A directory that can be listed is loaded exactly if each of its entries can be looked up: names
may be looked up in the directory, and neither the name nor the path of an entry is too long. Then
it falls into packages: every source file counts once and no other entry counts. Else nothing is
loaded, and the reason is that of an entry. -/
theorem load_partitions (diagnose : Bytes → Diagnosis) (h : d.list dir = .ok names) :
    ((∃ ls, load diagnose d dir = .ok ls) ↔ ∀ name ∈ names, dir.place ∉ d.sealed ∧
      name.utf8ByteSize ≤ Disk.nameLimit ∧
      (entryPath dir name).render.utf8ByteSize ≤ Disk.pathLimit) ∧
    (∀ ls, load diagnose d dir = .ok ls → Partitions diagnose d dir names ls) ∧
    ∀ e, load diagnose d dir = .error e → ∃ name ∈ names, ∃ cause,
      d.status (entryPath dir name) = .error cause ∧ e = .untold cause := by
  obtain ⟨hlocate, hdir⟩ := Disk.isDirectory_iff.mp (isDirectory_of_list h)
  have htold : ∀ name, (∃ x, d.status (entryPath dir name) = .ok x) ↔ dir.place ∉ d.sealed ∧
      name.utf8ByteSize ≤ Disk.nameLimit ∧
      (entryPath dir name).render.utf8ByteSize ≤ Disk.pathLimit := fun _ =>
    Disk.status_entryPath hlocate hdir
  refine ⟨?_, fun ls hload => partitions_of_load h hload, ?_⟩
  · simp only [load_eq_ok_iff, sourcePaths_eq_ok_iff, h, Except.ok.injEq, exists_eq_left', ← htold]
    constructor
    · rintro ⟨_, _, ⟨hall, _⟩, _⟩
      exact hall
    · exact fun hall => ⟨_, _, ⟨hall, rfl⟩, rfl⟩
  · intro e he
    cases e with
    | unlisted directory cause => exact absurd he (not_unlisted_of_list h)
    | untold cause =>
      obtain ⟨names', hlist, name, hname, hstatus⟩ := untold_of_load he
      rw [h] at hlist
      cases hlist
      exact ⟨name, hname, cause, hstatus, rfl⟩

/-- What a text that does not parse claims to belong to. -/
def claimed (src : Bytes) : Diagnosis := { package := Code.claimedPackage src }

/-- A directory with two packages, a file without a clause, one that does not parse, a link that
leads nowhere, a directory named like a file, and names that do not count. -/
def mixedDirectory : Disk where
  entries := [(["b.go"], .file (Bytes.ofString "package b\n")),
    (["f.go"], .file (Bytes.ofString "package a\n\nfunc (\n")),
    (["d.go"], .dangling), (["e.go"], .directory), (["e.go", "x.go"], .file []),
    (["c.go"], .file (Bytes.ofString "var x int\n")), ([".go"], .file []), (["go"], .file []),
    (["a.go"], .file (Bytes.ofString "package a\n"))]

theorem load_partitions_mixedDirectory :
    ∃ names ls, mixedDirectory.list ⟨"", []⟩ = .ok names ∧
      names = [".go", "a.go", "b.go", "c.go", "d.go", "e.go", "f.go", "go"] ∧
      load claimed mixedDirectory ⟨"", []⟩ = .ok ls ∧
      ls.map (fun l => (l.name, l.ok, l.files.map (·.path.name))) =
        [("a", false, ["a.go"]), ("b", true, ["b.go"]), ("", false, ["c.go"])] ∧
      Partitions claimed mixedDirectory ⟨"", []⟩ names ls := by
  have hlist : mixedDirectory.list ⟨"", []⟩ =
      .ok [".go", "a.go", "b.go", "c.go", "d.go", "e.go", "f.go", "go"] := by
    decide +kernel
  obtain ⟨hloads, hpartitions, _⟩ := load_partitions claimed hlist
  obtain ⟨ls, hload⟩ := hloads.mpr (by decide +kernel)
  refine ⟨_, ls, hlist, rfl, hload, ?_, hpartitions ls hload⟩
  have hshape : (load claimed mixedDirectory ⟨"", []⟩).toOption.map
      (·.map fun l => (l.name, l.ok, l.files.map (·.path.name))) =
        some [("a", false, ["a.go"]), ("b", true, ["b.go"]), ("", false, ["c.go"])] := by
    decide +kernel
  rw [hload] at hshape
  exact Option.some.inj hshape

/-! ## A directory that is not loaded -/

theorem Path.utf8ByteSize_render {p : Path} (hroot : p.root = "") (hparts : p.parts ≠ []) :
    p.render.utf8ByteSize + 1 = (p.parts.map fun name => name.utf8ByteSize + 1).sum := by
  obtain ⟨root, parts⟩ := p
  subst hroot
  have hrender : Path.render ⟨"", parts⟩ = "/".intercalate parts := by
    rw [Path.render]
    simp [hparts]
  rw [hrender]
  clear hrender
  dsimp only at hparts ⊢
  induction parts with
  | nil => exact absurd rfl hparts
  | cons name names ih =>
    cases names with
    | nil => simp
    | cons next names =>
      rw [String.intercalate_cons_cons, List.map_cons, List.sum_cons, ← ih (by simp)]
      simp only [String.utf8ByteSize_append]
      have h : "/".utf8ByteSize = 1 := by decide
      omega

theorem utf8ByteSize_render_entryPath {p : Path} (hroot : p.root = "") (hparts : p.parts ≠ [])
    (name : String) : (entryPath p name).render.utf8ByteSize =
      p.render.utf8ByteSize + 1 + name.utf8ByteSize := by
  have hentry : (entryPath p name).parts = p.parts ++ [name] := rfl
  have hdir := Path.utf8ByteSize_render hroot hparts
  have hsize := Path.utf8ByteSize_render (p := entryPath p name) hroot (by simp [hentry])
  rw [hentry, List.map_append, List.sum_append, List.map_singleton, List.sum_singleton] at hsize
  omega

/-- A directory with a source file. -/
def shallowDisk : Disk where
  entries := [(["a"], .directory), (["a", "abcdefgh.go"], .file (Bytes.ofString "package a\n"))]

/-- A long way to that directory. -/
def windingPath (turns : Nat) : Path := ⟨"", "a" :: (List.replicate turns ["..", "a"]).flatten⟩

theorem utf8ByteSize_windingPath (turns : Nat) :
    (windingPath turns).render.utf8ByteSize = 5 * turns + 1 := by
  have hsize := Path.utf8ByteSize_render (p := windingPath turns) rfl (by simp [windingPath])
  have hsum : ((windingPath turns).parts.map fun name => name.utf8ByteSize + 1).sum =
      5 * turns + 2 := by
    have hturn : (["..", "a"].map fun name => name.utf8ByteSize + 1).sum = 5 := by decide
    have hfirst : "a".utf8ByteSize = 1 := by decide
    rw [windingPath, List.map_cons, List.sum_cons, List.map_flatten, List.map_replicate,
      List.sum_flatten, List.map_replicate, hturn, List.sum_replicate, hfirst, Nat.nsmul_eq_mul]
    omega
  omega

theorem locate_windingPath {turns : Nat} (h : 5 * turns + 1 ≤ Disk.pathLimit) :
    shallowDisk.locate (windingPath turns) = .ok ["a"] := by
  have hturns : ∀ n, shallowDisk.follow ["a"] (List.replicate n ["..", "a"]).flatten =
      .ok ["a"] := by
    intro n
    induction n with
    | zero => rfl
    | succ n ih =>
      have hturn : shallowDisk.follow ["a"] ["..", "a"] = .ok ["a"] := by decide +kernel
      rw [List.replicate_succ, List.flatten_cons, Disk.follow_append hturn]
      exact ih
  rw [Disk.locate_eq_ok_iff, utf8ByteSize_windingPath]
  refine ⟨h, ?_⟩
  have hfirst : shallowDisk.follow [] ["a"] = .ok ["a"] := by decide +kernel
  exact (Disk.follow_append hfirst).trans (hturns turns)

/-- An entry of a directory that can be listed is out of reach under the long way. -/
theorem load_untold_windingPath :
    shallowDisk.list (windingPath 817) = .ok ["abcdefgh.go"] ∧
      load claimed shallowDisk (windingPath 817) = .error (.untold
        ⟨.nameTooLong, (entryPath (windingPath 817) "abcdefgh.go").render⟩) := by
  have hlocate : shallowDisk.locate (windingPath 817) = .ok ["a"] :=
    locate_windingPath (by decide)
  have hlist : shallowDisk.list (windingPath 817) = .ok ["abcdefgh.go"] := by
    have hdir : shallowDisk.entry? ["a"] = some .directory := by rfl
    rw [Disk.list, Disk.stat?_eq_ok_iff.mpr ⟨hlocate, hdir, by simp⟩]
    decide +kernel
  refine ⟨hlist, ?_⟩
  have hlong : Disk.pathLimit <
      (entryPath (windingPath 817) "abcdefgh.go").render.utf8ByteSize := by
    rw [utf8ByteSize_render_entryPath rfl (List.cons_ne_nil _ _), utf8ByteSize_windingPath]
    decide
  have hstatus : shallowDisk.status (entryPath (windingPath 817) "abcdefgh.go") =
      .error ⟨.nameTooLong, (entryPath (windingPath 817) "abcdefgh.go").render⟩ :=
    Disk.status_of_error (if_pos hlong) (by decide) (by decide)
  rw [load, sourcePaths, hlist]
  dsimp only
  rw [sourcesAmong, hstatus]
  rfl

/-- The same happens where names may not be looked up. -/
example : (match load claimed { shallowDisk with sealed := [["a"]] } ⟨"", ["a"]⟩ with
    | .error (.untold e) => some e
    | _ => none) = some ⟨.denied, "a/abcdefgh.go"⟩ := by
  decide +kernel

end CtxThread
