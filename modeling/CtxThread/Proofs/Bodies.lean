import CtxThread.Proofs.Reached
import CtxThread.Proofs.Types.TwinScript

/-!
# Bodies of other files

Other files matter to the update of a file only through what they declare. When a file of a package
is exchanged for one with the same imports, types and variables, and with functions and methods of
the same names, receivers and results, the other files are updated as before, whatever the bodies of
its functions are and wherever its declarations stand now.

## Main statements

- `Package.Exchanged.carries_updateFile`: another file is updated as before
- `updatePackage_set_of_alike`: so are the files of a package that are asked for
-/

namespace CtxThread

open Code (Tree Site)

namespace Package.Exchanged

variable {p p' : Package} {n : Nat} {g g' : SourceFile} (h : p.Exchanged p' n g g')

include h

/-- A call on a value is directed at another method as before. -/
theorem carries_hitIn (table : List (String × String)) (isValue : Ty → Bool) {call : Ref}
    (hcall : ∀ operand field, Retarget.methodCall? call = some (operand, field) →
      p.Twin n g g' operand operand) :
    (Env.ofPackage p).Carries (Env.ofPackage p') (p.Twin n g g')
      (Retarget.hitIn (Env.ofPackage p) table isValue call)
      (Retarget.hitIn (Env.ofPackage p') table isValue call) := by
  unfold Retarget.hitIn
  cases hmethod : Retarget.methodCall? call with
  | none => exact Env.carries_pure none
  | some found =>
    obtain ⟨operand, field⟩ := found
    dsimp only
    cases table.lookup field.text with
    | none => exact Env.carries_pure none
    | some variant =>
      refine (h.matching.carries_typeOf (hcall operand field hmethod)).bind fun t => ?_
      split
      · exact Env.carries_pure _
      · exact Env.carries_pure none

variable {i : Nat} {f : SourceFile} (hi : i ≠ n) (hf : p.files[i]? = some f)

include hi hf

/-- The nodes of other files have the same hits. -/
theorem carries_hitAt {site : Site} (hsite : site ∈ (Site.root f.root).walk) :
    (Env.ofPackage p).Carries (Env.ofPackage p') (p.Twin n g g')
      (Retarget.hitAt (Env.ofPackage p) i site) (Retarget.hitAt (Env.ofPackage p') i site) := by
  unfold Retarget.hitAt
  split
  · have hcall : ∀ operand field, Retarget.methodCall? ⟨i, site⟩ = some (operand, field) →
        p.Twin n g g' operand operand := by
      intro operand field hmethod
      obtain ⟨fn, hfn, hoperand⟩ := Env.operand_of_methodCall? hmethod
      have hself : p.Twin n g g' ⟨i, site⟩ ⟨i, site⟩ :=
        ⟨rfl, Twins.of_mem_walk hi hf hsite⟩
      have hrel := hself.child? .function
      rw [hfn] at hrel
      cases hrel with
      | some hfnTwin =>
        have hrel := hfnTwin.child? .operand
        rw [hoperand] at hrel
        cases hrel with
        | some htwin => exact htwin
    refine (h.carries_hitIn _ _ hcall).bind fun hit => ?_
    cases hit with
    | some hit => exact Env.carries_pure _
    | none => exact h.carries_hitIn _ _ hcall
  · exact Env.carries_pure none

/-- Another file is updated as before. -/
theorem carries_updateFile (s : Settings) :
    (Env.ofPackage p).Carries (Env.ofPackage p') (p.Twin n g g')
      (updateFile (Env.ofPackage p) s i f) (updateFile (Env.ofPackage p') s i f) := by
  rw [updateFile_eq, updateFile_eq]
  refine (Env.carries_mapM fun site hsite => h.carries_hitAt hi hf hsite).bind fun hits => ?_
  exact Env.carries_pure _

end Package.Exchanged

/-- The files that are asked for are the same if neither of the exchanged ones is. -/
theorem filter_zipIdx_set {fs : List SourceFile} {n : Nat} {g g' : SourceFile}
    (hg : fs[n]? = some g) {keep : SourceFile → Bool} (hkeep : keep g = false)
    (hkeep' : keep g' = false) :
    (fs.set n g').zipIdx.filter (fun f => keep f.1) = fs.zipIdx.filter fun f => keep f.1 := by
  obtain ⟨hlt, rfl⟩ := List.getElem?_eq_some_iff.mp hg
  obtain ⟨front, back, hfs, hlength, hset⟩ := List.exists_of_set hlt
  rw [hset]
  conv_rhs => rw [hfs]
  simp [List.zipIdx_append, List.filter_append, hkeep, hkeep']

namespace Package.Exchanged

variable {p p' : Package} {n : Nat} {g g' : SourceFile}

/-- The files that are asked for are updated as before, if the update of the package ends. -/
theorem updatePackage_eq_some (h : p.Exchanged p' n g g') {only : List String}
    (hg : isSelected only g = false) (hg' : isSelected only g' = false) {s : Settings}
    {us : List FileUpdate} (hrun : updatePackage p s only = some us) :
    updatePackage p' s only = some us := by
  unfold updatePackage at hrun ⊢
  dsimp only at hrun ⊢
  rw [h.files, filter_zipIdx_set h.file hg hg']
  obtain ⟨⟨updates, m⟩, hall, rfl⟩ := Option.map_eq_some_iff.mp hrun
  have hfile : ∀ f ∈ p.files.zipIdx.filter fun f => isSelected only f.1,
      (Env.ofPackage p).Carries (Env.ofPackage p') (p.Twin n g g')
        (updateFile (Env.ofPackage p) s f.2 f.1) (updateFile (Env.ofPackage p') s f.2 f.1) := by
    rintro ⟨f, i⟩ hf
    obtain ⟨hf, hselected⟩ := List.mem_filter.mp hf
    rw [List.mk_mem_zipIdx_iff_getElem?] at hf
    refine h.carries_updateFile ?_ hf s
    rintro rfl
    rw [h.file] at hf
    cases hf
    rw [hg] at hselected
    cases hselected
  obtain ⟨m', hall', _⟩ := Env.carries_mapM hfile {} {} _ m Env.agree_empty
    (by intro r _ hfound; cases hfound) rfl hall
  exact Option.map_eq_some_iff.mpr ⟨_, hall', rfl⟩

end Package.Exchanged

/-- When a file of a parsed package is exchanged for another parsed file that tells the same, the
files that are asked for are updated as before, as long as they are other files: their edits, their
counters and so their output are the same, and if looking for a type does not end in one of the
packages, it does not end in the other. -/
theorem updatePackage_set_of_alike {p : Package} {n : Nat} {g g' : SourceFile}
    (hg : p.files[n]? = some g) (hparsed : ∀ f ∈ p.files, Code.parse? f.src = some f.root)
    (hparsed' : Code.parse? g'.src = some g'.root) (halike : g.Alike g') {only : List String}
    (hselected : isSelected only g = false) (hselected' : isSelected only g' = false)
    (s : Settings) :
    updatePackage ⟨p.name, p.files.set n g'⟩ s only = updatePackage p s only := by
  have h : p.Exchanged ⟨p.name, p.files.set n g'⟩ n g g' := by
    refine ⟨rfl, hg, rfl, halike, hparsed, ?_⟩
    intro f hf
    rcases List.mem_or_eq_of_mem_set hf with hf | rfl
    · exact hparsed f hf
    · exact hparsed'
  ext us
  constructor
  · exact h.symm.updatePackage_eq_some hselected' hselected
  · exact h.updatePackage_eq_some hselected hselected'

/-- What a store declares but its functions. -/
def storeTypes : Bytes :=
  Bytes.ofString "import \"database/sql\"\n\ntype Pool = *sql.DB\n\n" ++
  Bytes.ofString "type Store struct \x7b db Pool \x7d\n\nvar store = open()\n"

/-- A file that declares a store. -/
def storeText : Bytes :=
  Bytes.ofString "package a\n\n" ++ storeTypes ++ Bytes.ofString
    "\nfunc open() *Store \x7b return nil \x7d\nfunc (s *Store) DB() Pool \x7b return s.db \x7d\n"

/-- The same declarations further down, with other parameters and other bodies. -/
def movedStoreText : Bytes :=
  Bytes.ofString "package a\n\n// moved\n\n" ++ storeTypes ++ Bytes.ofString
    "\nfunc open(n ...int) *Store \x7b store := n; return close(store) \x7d\n" ++ Bytes.ofString
    "func (s *Store) DB() Pool \x7b var db = s; return db.db \x7d\n"

/-- Calls on what the store declares. -/
def storeCalls : Bytes := Bytes.ofString
  "package a\n\nfunc f() \x7b store.db.Query(); store.DB().Exec(); open().db.QueryRow() \x7d\n"

/-- Three calls find the database handle in either file, in whose declarations no position is the
same. -/
theorem updatePackage_set_of_alike_movedStore :
    ∃ f g g' us, SourceFile.read? ⟨"", ["use.go"]⟩ storeCalls = some f ∧
      SourceFile.read? ⟨"", ["store.go"]⟩ storeText = some g ∧
      SourceFile.read? ⟨"", ["store.go"]⟩ movedStoreText = some g' ∧ g.Alike g' ∧
      (∀ d ∈ g.root.declarations, ∀ d' ∈ g'.root.declarations, d ≠ d') ∧
      updatePackage ⟨"a", [f, g]⟩ {} ["use.go"] = some us ∧ us.map (·.renamed) = [3] ∧
      updatePackage ⟨"a", [f, g']⟩ {} ["use.go"] = some us := by
  have h : ((SourceFile.read? ⟨"", ["use.go"]⟩ storeCalls).bind fun f =>
      (SourceFile.read? ⟨"", ["store.go"]⟩ storeText).bind fun g =>
        (SourceFile.read? ⟨"", ["store.go"]⟩ movedStoreText).map fun g' =>
          (decide (g.Alike g' ∧
              (∀ d ∈ g.root.declarations, ∀ d' ∈ g'.root.declarations, d ≠ d') ∧
              isSelected ["use.go"] g = false ∧ isSelected ["use.go"] g' = false),
            (updatePackage ⟨"a", [f, g]⟩ {} ["use.go"]).map fun us => us.map (·.renamed))) =
      some (true, some [3]) := by
    decide +kernel
  obtain ⟨f, hf, h⟩ := Option.bind_eq_some_iff.mp h
  obtain ⟨g, hg, h⟩ := Option.bind_eq_some_iff.mp h
  obtain ⟨g', hg', h⟩ := Option.map_eq_some_iff.mp h
  obtain ⟨hdecided, hus⟩ := Prod.mk.inj h
  obtain ⟨halike, hmoved, hselected, hselected'⟩ := of_decide_eq_true hdecided
  obtain ⟨us, hus, hrenamed⟩ := Option.map_eq_some_iff.mp hus
  have hparsed : ∀ f' ∈ [f, g, g'], Code.parse? f'.src = some f'.root := by
    obtain ⟨root, hroot, rfl⟩ := Option.map_eq_some_iff.mp hf
    obtain ⟨root', hroot', rfl⟩ := Option.map_eq_some_iff.mp hg
    obtain ⟨root'', hroot'', rfl⟩ := Option.map_eq_some_iff.mp hg'
    simp [hroot, hroot', hroot'']
  refine ⟨f, g, g', us, hf, hg, hg', halike, hmoved, hus, hrenamed, ?_⟩
  rw [← hus]
  have hpair : ∀ f' ∈ [f, g], Code.parse? f'.src = some f'.root := fun f' hf' =>
    hparsed f' (List.mem_of_mem_take (i := 2) hf')
  exact updatePackage_set_of_alike (p := ⟨"a", [f, g]⟩) (n := 1) rfl hpair
    (hparsed g' (by simp)) halike hselected hselected' {}

end CtxThread
