import CtxThread.Proofs.Import.Reading
import CtxThread.Source.Import

/-!
# Import tables

The table of the local names of a file, and how often it imports a path, told from the imports as
they are written.
-/

namespace CtxThread

open Code (Tree)

namespace Import

theorem lookup_map_bind (table : List (String × String)) (name path key : String) :
    (table.map fun e => if e.1 = name then (name, path) else e).lookup key =
      if key = name then (table.lookup key).map fun _ => path else table.lookup key := by
  induction table with
  | nil => simp
  | cons e table ih =>
    obtain ⟨n, p⟩ := e
    rw [List.map_cons, List.lookup_cons, List.lookup_cons]
    by_cases hkey : key = name
    · subst hkey
      by_cases hn : n = key
      · simp [hn]
      · have hne : (key == n) = false := by simpa using Ne.symm hn
        simp [hn, hne, ih]
    · by_cases hn : n = name
      · have hne : (key == name) = false := by simpa using hkey
        simp [hn, hne, hkey, ih]
      · simp [hn, hkey, ih]

/-- A name that is bound stands for its path, and all others for what they stood for. -/
theorem lookup_bind (table : List (String × String)) (name path key : String) :
    (bind table name path).lookup key = if key = name then some path else table.lookup key := by
  unfold bind
  split
  · next hany =>
    rw [lookup_map_bind]
    split
    · next hkey =>
      obtain ⟨old, hold⟩ : ∃ old, table.lookup name = some old := by
        rw [← Option.isSome_iff_exists, List.lookup_isSome_iff]
        simpa [eq_comm (a := name)] using hany
      rw [hkey, hold, Option.map_some]
    · rfl
  · next hany =>
    have hnone : table.lookup name = none := by
      refine List.lookup_eq_none_iff.mpr fun e he => bne_iff_ne.mpr fun heq => hany ?_
      exact List.any_eq_true.mpr ⟨e, he, by simp [heq]⟩
    rw [List.lookup_append]
    split
    · next hkey => simp [hkey, hnone]
    · next hkey =>
      have hne : (key == name) = false := by simpa using hkey
      simp [List.lookup_cons, hne]

/-- The imports bind a name to one path only if the specs do so. -/
theorem path_of_spells {its : List Written} {specs : List Tree}
    (h : List.Forall₂ Written.Spells its specs) {name path : String}
    (honly : ∀ spec ∈ specs, boundName? spec = some name → path? spec = some path) :
    ∀ i ∈ its, i.boundName? = some name → i.path = path := by
  induction h with
  | nil => exact fun i hi => absurd hi List.not_mem_nil
  | cons hspells _ ih =>
    obtain ⟨hfirst, hothers⟩ := List.forall_mem_cons.mp honly
    refine List.forall_mem_cons.mpr ⟨fun hbound => ?_, ih hothers⟩
    exact Option.some.inj (hspells.2.symm.trans (hfirst (hspells.1.trans hbound)))

end Import

namespace SourceFile

open Import (Written)

variable {f : SourceFile} {its : List Written}

/-- How often a path is imported. -/
theorem importCount_of_spells (h : List.Forall₂ Written.Spells its f.importSpecs) (path : String) :
    f.importCount path = (its.map Written.path).count path := by
  have hpaths : f.importPaths = its.map Written.path := by
    unfold importPaths
    generalize f.importSpecs = specs at h
    induction h with
    | nil => rfl
    | cons hspells _ ih => rw [List.filterMap_cons, hspells.2, List.map_cons, ih]
  rw [importCount, hpaths]

/-- If a name is bound to one path only, then it stands for the path exactly if it is bound. -/
theorem importPath?_eq_some_iff (h : List.Forall₂ Written.Spells its f.importSpecs)
    {name path : String} (honly : ∀ i ∈ its, i.boundName? = some name → i.path = path) :
    f.importPath? name = some path ↔ ∃ i ∈ its, i.boundName? = some name := by
  suffices hfold : ∀ (step : List (String × String) → Tree → List (String × String))
      (_ : ∀ table i spec, Written.Spells i spec → step table spec =
        i.boundName?.elim table fun bound => Import.bind table bound i.path)
      (table : List (String × String)) (specs : List Tree), List.Forall₂ Written.Spells its specs →
        ((specs.foldl step table).lookup name = some path ↔
          (∃ i ∈ its, i.boundName? = some name) ∨ table.lookup name = some path) by
    refine (hfold _ (fun table i spec hspells => ?_) [] _ h).trans (by simp)
    rw [hspells.1, hspells.2]
    cases i.boundName? <;> rfl
  intro step hstep table specs hspecs
  clear h
  induction hspecs generalizing table with
  | nil => simp
  | @cons i spec its specs hspells _ ih =>
    obtain ⟨hfirst, hothers⟩ := List.forall_mem_cons.mp honly
    rw [List.foldl_cons, ih hothers, hstep table i spec hspells]
    cases hbound : i.boundName? with
    | none => simp [hbound]
    | some bound =>
      rw [Option.elim_some, Import.lookup_bind]
      by_cases hkey : name = bound
      · subst hkey
        simp [hbound, hfirst hbound]
      · simp [hbound, hkey, Ne.symm hkey]

end SourceFile

end CtxThread
