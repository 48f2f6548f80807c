import CtxThread.Proofs.Command.Account

/-!
# What a run prints and writes

A run that ends with code 2 has neither printed nor written anything. A run that ends with code 0
has, the report and the listings of trees aside, either printed the formatted texts of the files
asked for and left the disk alone, or printed nothing and written the texts of those files that
are changed. Where formatting or writing a file fails, the file stays as it was.

## Main definitions

- `Command.Untouched`: nothing happens at a place but that a directory is made on the way

## Main statements

- `Command.runOptions_effects`: what a run that ends with a code prints and writes
-/

namespace CtxThread.Command

variable {o : Options} {w w' : World} {u : FileUpdate} {us : List FileUpdate} {ls : List Loaded}
  {l : Location}

/-! ## The files that are emitted -/

/-- The files that are updated are those asked for in the packages without errors. -/
theorem map_file_updates
    (h : ∀ l ∈ ls, l.ok = true →
      updatePackage l.package ⟨o.http, o.echo⟩ o.files = some (l.updates o)) :
    (ls.flatMap (Loaded.updates o)).map (·.file) =
      (ls.filter (·.ok)).flatMap fun l => l.files.filter (isSelected o.files) := by
  induction ls with
  | nil => rfl
  | cons l ls ih =>
    have hrest := ih fun k hk => h k (List.mem_cons_of_mem _ hk)
    rw [List.flatMap_cons, List.map_append, hrest, List.filter_cons]
    by_cases hok : l.ok = true
    · rw [if_pos hok, List.flatMap_cons, updatePackage_files (h l List.mem_cons_self hok)]
      rfl
    · rw [if_neg hok, Loaded.updates, if_neg hok, List.map_nil, List.nil_append]

/-- No two files that are updated stand at the same place. -/
theorem Account.nodup_places (h : Account o w w' ls) :
    ((ls.flatMap (Loaded.updates o)).map (·.file.path.place)).Nodup := by
  have hfiles : ∀ ls : List Loaded,
      ((ls.filter (·.ok)).flatMap fun l => l.files.filter (isSelected o.files)).Sublist
        (ls.flatMap (·.files)) := by
    intro ls
    induction ls with
    | nil => exact .slnil
    | cons l ls ih =>
      rw [List.filter_cons, List.flatMap_cons]
      split
      · rw [List.flatMap_cons]
        exact List.filter_sublist.append ih
      · exact ih.trans (List.sublist_append_right _ _)
  have hplaces := (hfiles ls).map (·.path.place)
  rw [← map_file_updates h.updated, List.map_map] at hplaces
  exact (nodup_places_of_load h.load).sublist hplaces

theorem content?_eq_some {data : Bytes} (h : content? o w us l = some data) :
    ∃ u ∈ us, u.file.path.place = l ∧ u.written? o w = some data := by
  obtain ⟨u, hu, hdata⟩ := List.exists_of_findSome?_eq_some h
  split at hdata
  · next hl => exact ⟨u, List.mem_reverse.mp hu, hl, hdata⟩
  · cases hdata

theorem content?_of_mem (hnodup : (us.map (·.file.path.place)).Nodup) (hu : u ∈ us) :
    content? o w us u.file.path.place = u.written? o w := by
  cases hcontent : content? o w us u.file.path.place with
  | none =>
    have hnone := List.findSome?_eq_none_iff.mp hcontent u (List.mem_reverse.mpr hu)
    rwa [if_pos rfl, eq_comm] at hnone
  | some data =>
    obtain ⟨v, hv, hplace, hdata⟩ := content?_eq_some hcontent
    rw [← hdata, List.inj_on_of_nodup_map hnodup hv hu hplace]

/-! ## The effects of a run -/

/-- Nothing happens at a place, but that a directory may be made there on the way to the report or
the listings of trees. -/
def Untouched (o : Options) (d d' : Disk) (l : Location) : Prop :=
  d'.entry? l = d.entry? l ∨
    l ∈ asideWay o ∧ d.entry? l = none ∧ d'.entry? l = some .directory

theorem written?_eq_some_iff {data : Bytes} (ho : o.write = true) :
    u.written? o w = some data ↔ u.changed = true ∧ u.file.path.place ∉ w.disk.readonly ∧
      u.formatted w.formatter (!o.noFormat) = .ok data := by
  unfold FileUpdate.written? FileUpdate.emission
  cases u.changed with
  | false => simp
  | true =>
    cases u.formatted w.formatter (!o.noFormat) with
    | error e => simp [Except.bind, Except.toOption]
    | ok text =>
      by_cases hlocked : u.file.path.place ∈ w.disk.readonly
      · simp [ho, Except.bind, Except.toOption, hlocked]
      · simp [ho, Except.bind, Except.toOption, hlocked]

theorem printed_of_not_write (ho : o.write = false) (u : FileUpdate) :
    u.printed o w = (u.formatted w.formatter (!o.noFormat)).toOption.getD [] := by
  unfold FileUpdate.printed FileUpdate.emission
  rw [ho, if_neg (by decide)]
  cases u.formatted w.formatter (!o.noFormat) with
  | error e => rfl
  | ok data => rfl

/-- What a run that ends with a code prints and writes, for all options, formatters and protected
files. With code 2 nothing is printed or written. With code 0, where the report and the listings of
trees are put aside: without the option to write, the disk is left alone, and the formatted texts
of the files asked for in packages without errors are printed in their order, except for those
that cannot be formatted. With that option nothing is printed, and a file is written exactly if it
is asked for in a package without errors, changed, not protected, and could be formatted. -/
theorem runOptions_effects {code : Nat} (h : runOptions o w = (.ok code, w')) :
    (code = 2 ∧ w'.disk = w.disk ∧ w'.stdout = w.stdout) ∨
    (code = 0 ∧ ∃ ls us, load w.diagnose w.disk (.ofString o.dir) = .ok ls ∧
      us = ls.flatMap (Loaded.updates o) ∧
      us.map (·.file) =
        (ls.filter (·.ok)).flatMap (fun l => l.files.filter (isSelected o.files)) ∧
      (o.write = false →
        w'.stdout = w.stdout ++
          us.flatMap (fun u => (u.formatted w.formatter (!o.noFormat)).toOption.getD []) ∧
        ∀ l ∉ asidePlaces o us, Untouched o w.disk w'.disk l) ∧
      (o.write = true →
        w'.stdout = w.stdout ∧
        (∀ u ∈ us, u.file.path.place ∉ asidePlaces o us → u.changed = true →
          u.file.path.place ∉ w.disk.readonly → ∀ data,
          u.formatted w.formatter (!o.noFormat) = .ok data →
            w'.disk.entry? u.file.path.place = some (.file data)) ∧
        ∀ l ∉ asidePlaces o us,
          (∀ u ∈ us, u.file.path.place = l → u.changed = true → l ∉ w.disk.readonly →
            ∀ data, u.formatted w.formatter (!o.noFormat) ≠ .ok data) →
          Untouched o w.disk w'.disk l)) := by
  obtain ⟨rfl, _, message, rfl⟩ | ⟨rfl, ls, haccount⟩ := runOptions_eq_ok h
  · exact .inl ⟨rfl, rfl, rfl⟩
  obtain ⟨last, _, hdoes⟩ := haccount.does
  have hnodup := haccount.nodup_places
  refine .inr ⟨rfl, ls, _, haccount.load, rfl, map_file_updates haccount.updated, ?_, ?_⟩
  · intro ho
    constructor
    · rw [hdoes.stdout]
      simp only [printed_of_not_write ho]
    · intro l hl
      refine hdoes.kept l hl ?_
      cases hcontent : content? o w (ls.flatMap (Loaded.updates o)) l with
      | none => rfl
      | some data =>
        obtain ⟨u, _, _, hwritten⟩ := content?_eq_some hcontent
        rw [FileUpdate.written?, ho] at hwritten
        cases hwritten
  · intro ho
    refine ⟨?_, ?_, ?_⟩
    · rw [hdoes.stdout]
      simp [FileUpdate.printed, ho]
    · intro u hu hl hchanged hlocked data hdata
      refine hdoes.written _ hl data ?_
      rw [content?_of_mem hnodup hu, written?_eq_some_iff ho]
      exact ⟨hchanged, hlocked, hdata⟩
    · intro l hl hnone
      refine hdoes.kept l hl ?_
      cases hcontent : content? o w (ls.flatMap (Loaded.updates o)) l with
      | none => rfl
      | some data =>
        obtain ⟨u, hu, hplace, hwritten⟩ := content?_eq_some hcontent
        obtain ⟨hchanged, hlocked, hdata⟩ := (written?_eq_some_iff ho).mp hwritten
        exact absurd hdata (hnone u hu hplace hchanged (hplace ▸ hlocked) data)

/-- Two files of a package, one of which may not be written, and a file that does not parse. -/
def protectedWorld : World where
  disk := {
    entries := [(["a.go"], .file oneLineHandler), (["b.go"], .file oneLineHandler),
      (["c.go"], .file (Bytes.ofString "package q\n\nfunc"))]
    readonly := [["b.go"]] }
  formatter := .absent

/-- The first file is written, the second is not, though both are changed. -/
theorem runOptions_effects_protectedWorld :
    ∃ (w' : World) (u : FileUpdate) (data : Bytes),
      runOptions { write := true, http := "x" } protectedWorld = (.ok 0, w') ∧
      w'.stdout = [] ∧ u.file.path.place = ["a.go"] ∧ u.formatted .absent true = .ok data ∧
      w'.disk.entry? ["a.go"] = some (.file data) ∧
      w'.disk.entry? ["b.go"] = some (.file oneLineHandler) := by
  have hrun : runOptions { write := true, http := "x" } protectedWorld =
      (.ok 0, (runOptions { write := true, http := "x" } protectedWorld).2) :=
    run_eq_ok (by decide +kernel)
  obtain ⟨hcode, _⟩ | ⟨_, ls, us, hload, rfl, _, _, heffects⟩ := runOptions_effects hrun
  · cases hcode
  obtain ⟨hstdout, hwritten, hkept⟩ := heffects rfl
  have hupdates : ((load protectedWorld.diagnose protectedWorld.disk
      (.ofString ".")).toOption.getD []).any (fun l =>
        (l.updates { write := true, http := "x" }).any fun u =>
          u.file.path.place = ["a.go"] && u.changed && (u.formatted .absent true).isOk) = true := by
    decide +kernel
  rw [hload] at hupdates
  obtain ⟨l, hl, hu⟩ := List.any_eq_true.mp hupdates
  obtain ⟨u, hu, hfacts⟩ := List.any_eq_true.mp hu
  simp only [Bool.and_eq_true, decide_eq_true_eq] at hfacts
  obtain ⟨⟨hplace, hchanged⟩, hok⟩ := hfacts
  obtain ⟨data, hdata⟩ : ∃ data, u.formatted .absent true = .ok data := by
    cases hdata : u.formatted .absent true with
    | error e =>
      rw [hdata] at hok
      cases hok
    | ok data => exact ⟨data, rfl⟩
  have ha := hwritten u (List.mem_flatMap.mpr ⟨l, hl, hu⟩) (by simp [asidePlaces, treePlaces])
    hchanged (by rw [hplace]; decide) data hdata
  rw [hplace] at ha
  have hb := hkept ["b.go"] (by simp [asidePlaces, treePlaces]) fun v _ _ _ hlocked =>
    absurd (by decide) hlocked
  refine ⟨_, u, data, hrun, hstdout, hplace, hdata, ha, ?_⟩
  obtain hb | ⟨hway, _⟩ := hb
  · rw [hb]
    rfl
  · simp [asideWay, treeWay] at hway

end CtxThread.Command
