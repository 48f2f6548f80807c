import CtxThread.Command.Run
import CtxThread.Proofs.Update

/-!
# The new text of a file

The edits planned for a file that parses never overlap, so its new text can always be made, and it
holds the old text but for separators.

## Main statements

- `updateFile_apart`: planned edits stand apart, and no file is left out for an overlap
- `updateFile_substance`: what the new text keeps and when it is new
-/

namespace CtxThread

open Code (Tree)

theorem SourceFile.read?_laid {path : Path} {src : Bytes} {f : SourceFile}
    (h : SourceFile.read? path src = some f) : f.src = src ∧ f.root.Laid src := by
  obtain ⟨root, hroot, rfl⟩ := Option.map_eq_some_iff.mp h
  exact ⟨rfl, Code.parse?_laid hroot⟩

namespace FileUpdate

variable {u : FileUpdate} {done : List Tree} {out : Bytes}

theorem output_ok (h : u.plan.Sound u.file.src done) : ∃ out, u.output = .ok out :=
  Edit.splice_ok h.pairwise fun _ he => h.fits he

theorem output_of_unchanged (h : u.changed = false) : u.output = .ok u.file.src := by
  have hnone : u.plan.edits = [] := by
    by_contra hne
    rw [changed, (Plan.isChange_iff _).mpr hne] at h
    cases h
  rw [output, Plan.apply, hnone, Edit.splice_nil]

/-- A file that is changed gains more than separators. -/
theorem substance_lt_of_changed (h : u.plan.Sound u.file.src done) (hout : u.output = .ok out)
    (hchanged : u.changed = true) : u.file.src.substance.length < out.substance.length :=
  Edit.splice_substance_lt (fun _ he => h.fits he) (fun _ he => h.keeps he) hout
    (h.adds ((Plan.isChange_iff _).mp hchanged))

/-- The new text of a file is another one exactly if the file is changed. -/
theorem changed_iff_output_ne (h : u.plan.Sound u.file.src done) (hout : u.output = .ok out) :
    u.changed = true ↔ out ≠ u.file.src := by
  constructor
  · rintro hchanged rfl
    exact absurd (substance_lt_of_changed h hout hchanged) (lt_irrefl _)
  · intro hne
    by_contra hchanged
    rw [output_of_unchanged (Bool.eq_false_of_not_eq_true hchanged)] at hout
    exact hne (Except.ok.inj hout).symm

end FileUpdate

theorem formatSource_ne_overlap (formatter : Formatter) (use : Bool) (src : Bytes)
    (x : Edit.Overlap) : formatSource formatter use src ≠ .error (.overlap x) := by
  unfold formatSource
  split
  · split
    · simp
    · split <;> simp
    · next format =>
      cases format src with
      | ok out => simp [Except.mapError]
      | error e => simp [Except.mapError]
  · simp

namespace Command

/-- A step after one that has not crashed. -/
theorem bind_of_ok {α β : Type} {x : Command α} {f : α → Command β} {w w' : World} {a : α}
    (hx : x w = (.ok a, w')) : (x >>= f) w = f a w' := by
  change ExceptT.bindCont f (x w).1 (x w).2 = f a w'
  rw [hx]
  rfl

/-- An attempt to change the disk does not crash, whether it fails or not. -/
theorem change_eq (operation : Disk → Disk.Attempt) (w : World) :
    change operation w =
      (.ok (operation w.disk).failure, { w with disk := (operation w.disk).disk }) := rfl

/-- A file whose new text can be made is never left out for an overlap. -/
theorem emit_ne_overlap {u : FileUpdate} {out : Bytes} (hout : u.output = .ok out)
    (o : Options) (w : World) (x : Edit.Overlap) :
    (emit o u w).1 ≠ .ok (.error (.overlap x)) := by
  have hformatted : ∀ formatter use, u.formatted formatter use = formatSource formatter use out := by
    intro formatter use
    rw [FileUpdate.formatted, hout]
    rfl
  have hget : (get : Command World) w = (.ok w, w) := rfl
  intro h
  unfold emit at h
  rw [bind_of_ok hget, hformatted] at h
  cases hres : formatSource w.formatter (!o.noFormat) out with
  | error e =>
    rw [hres] at h
    cases e with
    | overlap y => exact formatSource_ne_overlap _ _ _ _ hres
    | unstarted _ => cases h
    | rejected _ => cases h
    | unwritable _ _ => cases h
  | ok data =>
    rw [hres] at h
    dsimp only at h
    split at h
    · split at h
      · rw [bind_of_ok (change_eq _ w)] at h
        cases hfailure : (Disk.Attempt.of w.disk (w.disk.write u.file.path data)).failure with
        | none =>
          rw [hfailure] at h
          cases h
        | some e =>
          rw [hfailure] at h
          cases h
      · cases h
    · cases h

end Command

/-- A file with a handler on one line that calls the database. -/
def oneLineHandler : Bytes := Bytes.ofString <|
  "package p\n\nimport \"database/sql\"\n\nvar d *sql.DB\n\n" ++
  "func h(w x.ResponseWriter, r *x.Request) \x7b d.Exec(1); g() \x7d\n"

section File

variable {path : Path} {src : Bytes} {f : SourceFile} {env : Env} {s : Settings} {i : Nat}
  {m m' : Memo} {u : FileUpdate}

/-- The edits planned for a file that parses stand apart, in every package and under all settings,
so its new text can be made and the file is never left out for an overlap. -/
theorem updateFile_apart (hf : SourceFile.read? path src = some f)
    (hu : updateFile env s i f m = some (u, m')) :
    u.plan.edits.Pairwise Edit.Apart ∧ (∃ out, u.output = .ok out) ∧
      ∀ o w x, (Command.emit o u w).1 ≠ .ok (.error (.overlap x)) := by
  obtain ⟨rfl, hroot⟩ := SourceFile.read?_laid hf
  obtain ⟨rfl, hsound⟩ := updateFile_sound hroot hu
  have hout := FileUpdate.output_ok hsound
  refine ⟨hsound.pairwise, hout, ?_⟩
  obtain ⟨out, hout⟩ := hout
  exact Command.emit_ne_overlap hout

/-- Six edits are planned for the handler: a name, an argument, three runs of separators and an
import. -/
theorem updateFile_apart_oneLineHandler :
    ∃ f u m', SourceFile.read? ⟨"", ["h.go"]⟩ oneLineHandler = some f ∧
      updateFile (.ofPackage ⟨"p", [f]⟩) ⟨"x", "x"⟩ 0 f {} = some (u, m') ∧
      u.plan.edits.length = 6 ∧ u.plan.edits.Pairwise Edit.Apart ∧
      (∃ out, u.output = .ok out) ∧
      ∀ o w x, (Command.emit o u w).1 ≠ .ok (.error (.overlap x)) := by
  have h : ((SourceFile.read? ⟨"", ["h.go"]⟩ oneLineHandler).bind fun f =>
      (updateFile (.ofPackage ⟨"p", [f]⟩) ⟨"x", "x"⟩ 0 f {}).map (·.1.plan.edits.length)) =
        some 6 := by
    decide +kernel
  obtain ⟨f, hf, h⟩ := Option.bind_eq_some_iff.mp h
  obtain ⟨⟨u, m'⟩, hu, hlen⟩ := Option.map_eq_some_iff.mp h
  exact ⟨f, u, m', hf, hu, hlen, updateFile_apart hf hu⟩

/-- The new text of a file that parses holds the old text but for separators, in order. It is the
old text if the file is not changed, and has more than it, separators aside, if the file is. -/
theorem updateFile_substance (hf : SourceFile.read? path src = some f)
    (hu : updateFile env s i f m = some (u, m')) :
    ∃ out, u.output = .ok out ∧ src.substance.Sublist out.substance ∧
      (u.changed = false → out = src) ∧
      (u.changed = true → src.substance.length < out.substance.length) ∧
      (u.changed = true ↔ out ≠ src) := by
  obtain ⟨rfl, hroot⟩ := SourceFile.read?_laid hf
  obtain ⟨rfl, hsound⟩ := updateFile_sound hroot hu
  obtain ⟨out, hout⟩ := FileUpdate.output_ok hsound
  have hkept := Edit.splice_substance (fun e he => hsound.fits he) (fun e he => hsound.keeps he) hout
  have hnew := FileUpdate.changed_iff_output_ne hsound hout
  refine ⟨out, hout, hkept, ?_, FileUpdate.substance_lt_of_changed hsound hout, hnew⟩
  intro hchanged
  by_contra hne
  rw [hnew.mpr hne] at hchanged
  cases hchanged

/-- The new text of the handler is new and holds the old one. -/
theorem updateFile_substance_oneLineHandler :
    ∃ f u m' out, SourceFile.read? ⟨"", ["h.go"]⟩ oneLineHandler = some f ∧
      updateFile (.ofPackage ⟨"p", [f]⟩) {} 0 f {} = some (u, m') ∧ u.changed = true ∧
      u.output = .ok out ∧ oneLineHandler.substance.Sublist out.substance ∧
      out ≠ oneLineHandler := by
  have h : ((SourceFile.read? ⟨"", ["h.go"]⟩ oneLineHandler).bind fun f =>
      (updateFile (.ofPackage ⟨"p", [f]⟩) {} 0 f {}).map (·.1.changed)) = some true := by
    decide +kernel
  obtain ⟨f, hf, h⟩ := Option.bind_eq_some_iff.mp h
  obtain ⟨⟨u, m'⟩, hu, hchanged⟩ := Option.map_eq_some_iff.mp h
  obtain ⟨out, hout, hkept, _, _, hnew⟩ := updateFile_substance hf hu
  exact ⟨f, u, m', out, hf, hu, hchanged, hout, hkept, hnew.mp hchanged⟩

end File

end CtxThread
