import CtxThread.Proofs.Import.Outputs
import CtxThread.Proofs.Import.Plans
import CtxThread.Proofs.Import.Table
import CtxThread.Proofs.Command.Report

/-!
# The name of the context package in new texts

A file that is changed keeps its imports, and gains one of the context package unless it imports
that already. So in the new text the name of the package stands for the package, but for files that
know it only under other names or under none: there nothing is added, and the name stays unbound.

## Main statements

- `updateFile_spells`: the imports of the new text of a file
- `updateFile_resolves`: when the name stands for the context package
-/

namespace CtxThread

open Code (Tree Token)
open Import (Mode Written)
open FileUpdate

namespace Import

/-- What is added imports the context package under its own name. -/
theorem added_names :
    added.boundName? = some Naming.contextPath ∧ added.path = Naming.contextPath := by
  decide +kernel

end Import

namespace FileUpdate

variable {s : Settings} {f : SourceFile} {hits : List (Option (Tree × String))} {out : Bytes}

/-- A file that parses without a package clause, and parses again once the context package is
imported in front of it, has no byte order mark. -/
theorem base_of_clauseless (hparse : Code.parse? f.src = some f.root)
    (hhits : Hits (f.root.walk.zip hits)) (hchanged : (planned s f hits).finish.changed = true)
    (hout : Edit.splice f.src (planned s f hits).finish.plan.edits = .ok out)
    (hparse' : Code.parse? out ≠ none) (hcount : f.importCount Naming.contextPath = 0)
    (hclause : f.clause? = none) : Token.base f.src = 0 := by
  have himport : ContextImport.edits f = [.insertion 0 (ContextImport.group ++ "\n\n")] := by
    rw [ContextImport.edits, if_neg (not_not.mpr hcount), hclause]
  rw [Plan.edits, planned_plain s hhits, if_pos hchanged, himport, List.append_assoc,
    List.singleton_append] at hout
  exact Edit.base_of_front (fun e he => (Edit.fine_nodeEdits hparse hhits he).1) hout hparse'

/-- One import group is inserted in a file that is changed and does not import the context
package. -/
theorem countP_edits (hparse : Code.parse? f.src = some f.root)
    (hhits : Hits (f.root.walk.zip hits)) (hchanged : (planned s f hits).finish.changed = true) :
    (planned s f hits).finish.plan.edits.countP Edit.isGroup =
      if f.importCount Naming.contextPath = 0 then 1 else 0 := by
  have hnone : ∀ es : List Edit, (∀ e ∈ es, e ∈ (f.root.walk.zip hits).flatMap (ownEdits s f.src) ++
      (planned s f hits).finish.plan.calls.map (·.2)) → es.countP Edit.isGroup = 0 := by
    intro es hes
    refine List.countP_eq_zero.mpr fun e he => ?_
    simp [(Edit.fine_nodeEdits hparse hhits (hes e he)).2]
  rw [Plan.edits, planned_plain s hhits, if_pos hchanged, List.countP_append, List.countP_append,
    Edit.countP_importEdits, hnone _ fun e he => List.mem_append_left _ he,
    hnone _ fun e he => List.mem_append_right _ he, Nat.zero_add, Nat.add_zero]

/-- The edits planned for a file that is changed leave its imports alone, and one import of the
context package comes with them if there is none. -/
theorem grows_output (hparse : Code.parse? f.src = some f.root)
    (hhits : Hits (f.root.walk.zip hits)) (hlen : hits.length = f.root.walk.length)
    (hchanged : (planned s f hits).finish.changed = true)
    (hline : ∀ p : Nat, ContextImport.AtLine f p → f.root.Clear p)
    (hout : Edit.splice f.src (planned s f hits).finish.plan.edits = .ok out)
    (hparse' : Code.parse? out ≠ none) :
    Import.Grows (if f.importCount Naming.contextPath = 0 then 1 else 0) .idle
      (Token.atoms (Token.scan f.src)) (Token.atoms (Token.scan out)) := by
  have hfine : ∀ e ∈ (planned s f hits).finish.plan.edits, Edit.Fine f.src e :=
    fun e he => Edit.fine_edits hparse hhits
      (base_of_clauseless hparse hhits hchanged hout hparse') hline he
  have hperm := (Edit.sorted_edits (planned s f hits).finish.plan.edits).1
  have hfine' := fun e he => hfine e (hperm.mem_iff.mp he)
  rw [← countP_edits hparse hhits hchanged, ← hperm.countP_eq]
  exact Edit.grows_weave hparse hfine'
    (Edit.meets_sort hfine' (Edit.unshared_edits hparse hhits hlen)) hout

end FileUpdate

section File

variable {path path' : Path} {src out : Bytes} {f f' : SourceFile} {env : Env} {s : Settings}
  {i : Nat} {m m' : Memo} {u : FileUpdate}

/-- A file with an augmented declaration is changed. -/
theorem changed_of_augmented (hroot : f.root.Laid f.src)
    (hu : updateFile env s i f m = some (u, m')) (h : u.augmented ≠ []) : u.changed = true := by
  rw [FileUpdate.changed, Plan.isChange, decide_eq_true_eq]
  exact fun hsize => h ((updateFile_balanced hroot hu).mp hsize).1.2.1

/-- The imports of the new text of a file that is changed are those of the file, and one of the
context package if there is none. -/
theorem updateFile_spells (hf : SourceFile.read? path src = some f)
    (hu : updateFile env s i f m = some (u, m')) (hchanged : u.changed = true)
    (hline : ∀ p : Nat, ContextImport.AtLine f p → f.root.Clear p)
    (hout : u.output = .ok out) (hf' : SourceFile.read? path' out = some f') :
    ∃ its its' : List Written, List.Forall₂ Written.Spells its f.importSpecs ∧
      List.Forall₂ Written.Spells its' f'.importSpecs ∧
      its'.Perm (its ++ List.replicate (if f.importCount Naming.contextPath = 0 then 1 else 0)
        Import.added) := by
  have hparse : Code.parse? f.src = some f.root := by
    obtain ⟨root, hparse, rfl⟩ := Option.map_eq_some_iff.mp hf
    exact hparse
  have hparse' : Code.parse? out = some f'.root := by
    obtain ⟨root, hparse, rfl⟩ := Option.map_eq_some_iff.mp hf'
    exact hparse
  have hroot := Code.parse?_laid hparse
  obtain ⟨hfile, -⟩ := updateFile_sound hroot hu
  obtain ⟨hits, hhits, rfl⟩ := updateFile_eq_some.mp hu
  obtain ⟨hlen, hspec⟩ := hits_of_laid hroot hhits
  have hsplice : Edit.splice f.src (planned s f hits).finish.plan.edits = .ok out := by
    rwa [FileUpdate.output, hfile] at hout
  have hgrows := grows_output hparse hspec hlen hchanged hline hsplice (by simp [hparse'])
  obtain ⟨its, hread, hspells, -⟩ := Code.parse?_imports hparse
  obtain ⟨its', hread', hspells', -⟩ := Code.parse?_imports hparse'
  exact ⟨its, its', hspells, hspells', (hgrows.read hread hread').2⟩

/-- In the new text of a file with augmented declarations, if that parses, the name of the context
package stands for the package exactly if the file did not import the package under any name, or
bound the name to it itself. The file does not bind the name to another path, and no comment goes
over the end of the line that an import is put at. -/
theorem updateFile_resolves (hf : SourceFile.read? path src = some f)
    (honly : ∀ spec ∈ f.importSpecs, Import.boundName? spec = some Naming.contextPath →
      Import.path? spec = some Naming.contextPath)
    (hu : updateFile env s i f m = some (u, m')) (haugmented : u.augmented ≠ [])
    (hline : ∀ p : Nat, ContextImport.AtLine f p → f.root.Clear p) :
    ∃ out, u.output = .ok out ∧ ∀ path' f', SourceFile.read? path' out = some f' →
      (f'.importPath? Naming.contextPath = some Naming.contextPath ↔
        f.importCount Naming.contextPath = 0 ∨
          f.importPath? Naming.contextPath = some Naming.contextPath) := by
  have hparse : Code.parse? f.src = some f.root := by
    obtain ⟨root, hparse, rfl⟩ := Option.map_eq_some_iff.mp hf
    exact hparse
  have hroot := Code.parse?_laid hparse
  obtain ⟨hfile, hsound⟩ := updateFile_sound hroot hu
  obtain ⟨out, hout⟩ := FileUpdate.output_ok (hfile.symm ▸ hsound)
  refine ⟨out, hout, fun path' f' hf' => ?_⟩
  obtain ⟨its, its', hspells, hspells', hperm⟩ := updateFile_spells hf hu
    (changed_of_augmented hroot hu haugmented) hline hout hf'
  obtain ⟨hname, hpath⟩ := Import.added_names
  have honly' := Import.path_of_spells hspells honly
  have hmem : ∀ i,
      i ∈ its' ↔ i ∈ its ∨ f.importCount Naming.contextPath = 0 ∧ i = Import.added := by
    intro i
    rw [hperm.mem_iff, List.mem_append, List.mem_replicate]
    split <;> simp [*]
  rw [SourceFile.importPath?_eq_some_iff hspells honly',
    SourceFile.importPath?_eq_some_iff hspells' fun i hi hbound => ?_]
  · constructor
    · rintro ⟨i, hi, hbound⟩
      rcases (hmem i).mp hi with hi | ⟨hcount, -⟩
      · exact .inr ⟨i, hi, hbound⟩
      · exact .inl hcount
    · rintro (hcount | ⟨i, hi, hbound⟩)
      · exact ⟨Import.added, (hmem _).mpr (.inr ⟨hcount, rfl⟩), hname⟩
      · exact ⟨i, (hmem i).mpr (.inl hi), hbound⟩
  · rcases (hmem i).mp hi with hi | ⟨-, rfl⟩
    · exact honly' i hi hbound
    · exact hpath

end File

/-- A file with imports under another name, under none and into the file itself, none of them of the
context package. -/
def foreignImports : Bytes := Bytes.ofString <|
  "package a // main\n\nimport (\n\tc \"example.com/context/v2\"\n\t. \"fmt\"\n\t_ \"os\"\n)\n\n" ++
  "func f(s string) \x7b\n\x7d\n"

/-- The new text of that file imports the context package under its own name. -/
theorem updateFile_resolves_foreignImports :
    ∃ f u m' out f', SourceFile.read? ⟨"", ["a.go"]⟩ foreignImports = some f ∧
      f.importCount "context" = 0 ∧
      updateFile (.ofPackage ⟨"a", [f]⟩) {} 0 f {} = some (u, m') ∧ u.augmented = ["f"] ∧
      u.output = .ok out ∧ SourceFile.read? ⟨"", ["a.go"]⟩ out = some f' ∧
      f'.importPath? "context" = some "context" := by
  have h : ((SourceFile.read? ⟨"", ["a.go"]⟩ foreignImports).bind fun f =>
      (updateFile (.ofPackage ⟨"a", [f]⟩) {} 0 f {}).bind fun r => r.1.output.toOption.bind fun out =>
        (SourceFile.read? ⟨"", ["a.go"]⟩ out).map fun _ =>
          decide (f.importCount "context" = 0 ∧ r.1.augmented = ["f"] ∧
            (∀ spec ∈ f.importSpecs, Import.boundName? spec = some Naming.contextPath →
              Import.path? spec = some Naming.contextPath) ∧
            ∀ clause ∈ f.clause?, ∀ p ∈ f.src.lineEnd? clause.stop, ∀ t ∈ f.root.walk,
              t.kind.isToken = true → p ≤ t.start ∨ t.stop ≤ p)) = some true := by
    decide +kernel
  obtain ⟨f, hf, h⟩ := Option.bind_eq_some_iff.mp h
  obtain ⟨⟨u, m'⟩, hu, h⟩ := Option.bind_eq_some_iff.mp h
  obtain ⟨out, hout, h⟩ := Option.bind_eq_some_iff.mp h
  obtain ⟨f', hf', h⟩ := Option.map_eq_some_iff.mp h
  obtain ⟨hcount, haugmented, honly, hclear⟩ := of_decide_eq_true h
  have hne : u.augmented ≠ [] := haugmented ▸ List.cons_ne_nil _ _
  have hline : ∀ p : Nat, ContextImport.AtLine f p → f.root.Clear p := by
    rintro p ⟨-, clause, hclause, hp⟩ t ht htoken
    have := hclear clause hclause p hp t ht htoken
    omega
  obtain ⟨out', hout', hresolves⟩ := updateFile_resolves hf honly hu hne hline
  rw [hout'] at hout
  obtain rfl : out' = out := Option.some.inj hout
  exact ⟨f, u, m', out', f', hf, hcount, hu, haugmented, hout', hf',
    (hresolves _ f' hf').mpr (.inl hcount)⟩

/-- A file that imports the context package under no name. -/
def blankImport : Bytes :=
  Bytes.ofString "package a\n\nimport _ \"context\"\n\nfunc f() \x7b\n\x7d\n"

/-- The new text of that file does not bind the name of the package, though it parses. -/
theorem exists_unresolved_blankImport :
    ∃ f u m' out f', SourceFile.read? ⟨"", ["a.go"]⟩ blankImport = some f ∧
      (∀ spec ∈ f.importSpecs, Import.boundName? spec = some "context" →
        Import.path? spec = some "context") ∧
      updateFile (.ofPackage ⟨"a", [f]⟩) {} 0 f {} = some (u, m') ∧ u.augmented = ["f"] ∧
      u.output = .ok out ∧ SourceFile.read? ⟨"", ["a.go"]⟩ out = some f' ∧
      f'.importPath? "context" = none := by
  have h : ((SourceFile.read? ⟨"", ["a.go"]⟩ blankImport).bind fun f =>
      (updateFile (.ofPackage ⟨"a", [f]⟩) {} 0 f {}).bind fun r => r.1.output.toOption.bind fun out =>
        (SourceFile.read? ⟨"", ["a.go"]⟩ out).map fun f' =>
          decide ((∀ spec ∈ f.importSpecs, Import.boundName? spec = some "context" →
            Import.path? spec = some "context") ∧ r.1.augmented = ["f"] ∧
              f'.importPath? "context" = none)) = some true := by
    decide +kernel
  obtain ⟨f, hf, h⟩ := Option.bind_eq_some_iff.mp h
  obtain ⟨⟨u, m'⟩, hu, h⟩ := Option.bind_eq_some_iff.mp h
  obtain ⟨out, hout, h⟩ := Option.bind_eq_some_iff.mp h
  obtain ⟨f', hf', h⟩ := Option.map_eq_some_iff.mp h
  obtain ⟨honly, haugmented, hnone⟩ := of_decide_eq_true h
  refine ⟨f, u, m', out, f', hf, honly, hu, haugmented, ?_, hf', hnone⟩
  cases hresult : u.output with
  | ok bytes =>
    rw [hresult] at hout
    exact congrArg Except.ok (Option.some.inj hout)
  | error o =>
    rw [hresult] at hout
    cases hout

end CtxThread
