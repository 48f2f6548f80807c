import CtxThread.Main
import Mathlib.Data.List.DropRight

/-!
# What an operation on a disk changes

Writing a file changes what stands at one place, and making a directory adds directories at places
where nothing stood. Nothing is ever removed and what is denied stays denied, so a path that leads
somewhere goes on leading there.

## Main definitions

- `Path.place`: where a path leads, if it leads anywhere
- `Disk.Open`: a directory in which names can be looked up
- `Disk.Writable`: a file can be written where a path leads
- `Disk.Keeps`: files and directories of a disk are still there on another one
- `Disk.Makes`: one disk is another one with more directories
- `Disk.Alike`: the same sort of entry stands at every place of two disks

## Main statements

- `Disk.write_eq_ok_iff`, `Disk.makeOne_eq_ok_iff`: when an operation succeeds, and what it leaves
- `Disk.status_entryPath`: when it can be told what an entry of a directory is
- `Disk.makeDirectory_makes`, `Disk.makePath_makes`: directories are made on the way of a path only
- `Disk.makePath_of_open`: a directory that is there is not made again
- `Disk.Alike.makePath`: whether a directory can be made depends on the sorts of entries only
-/

namespace CtxThread

/-! ## Places -/

namespace Path

variable {p q : Path} {l : Location}

/-- The place that a path leads to, if it leads anywhere. -/
def place (p : Path) : Location := p.parts.foldl Disk.step p.start

theorem foldl_steps (p : Path) : p.steps.foldl Disk.step p.start = p.place := by
  unfold steps place
  split
  · next h =>
    simp only [Bool.and_eq_true, decide_eq_true_eq, List.isEmpty_iff] at h
    rw [h.2, start, if_pos h.1]
    rfl
  · rfl

theorem steps_of_ne_nil (h : p.parts ≠ []) : p.steps = p.parts := by
  simp [steps, h]

theorem mem_places : l ∈ Main.places p ↔
    ∃ names, names <+: p.parts ∧ place ⟨p.root, names⟩ = l := by
  simp only [Main.places, place, start, List.mem_map, List.mem_range]
  constructor
  · rintro ⟨n, _, rfl⟩
    exact ⟨p.parts.take n, List.take_prefix n p.parts, rfl⟩
  · rintro ⟨names, hnames, rfl⟩
    refine ⟨names.length, ?_, ?_⟩
    · exact Nat.lt_succ_of_le hnames.length_le
    · rw [← List.prefix_iff_eq_take.mp hnames]

theorem place_mem_places (p : Path) : p.place ∈ Main.places p :=
  mem_places.mpr ⟨p.parts, List.prefix_rfl, rfl⟩

/-- The same way from the start, or the first part of it. -/
def Leads (q p : Path) : Prop := (q.root = "" ↔ p.root = "") ∧ q.parts <+: p.parts

theorem Leads.start_eq (h : q.Leads p) : q.start = p.start := by
  simp only [start, h.1]

theorem Leads.places (h : q.Leads p) : Main.places q ⊆ Main.places p := by
  intro l hl
  obtain ⟨names, hnames, rfl⟩ := mem_places.mp hl
  refine mem_places.mpr ⟨names, hnames.trans h.2, ?_⟩
  simp only [place, start, h.1]

end Path

namespace Disk

variable {d d' d'' : Disk} {l m : Location} {p : Path} {name written : String}
  {names : List String} {c : Bytes}

/-! ## Where a path leads -/

/-- A directory in which names can be looked up. -/
def Open (d : Disk) (l : Location) : Prop := d.entry? l = some .directory ∧ l ∉ d.sealed

theorem follow_cons_eq_ok_iff : d.follow l (name :: names) = .ok m ↔
    d.Open l ∧ name.utf8ByteSize ≤ nameLimit ∧ d.follow (step l name) names = .ok m := by
  rw [follow, Open]
  split
  · next hl =>
    by_cases hsealed : l ∈ d.sealed
    · simp [hsealed]
    · by_cases hname : nameLimit < name.utf8ByteSize
      · simp [hsealed, hname, Nat.not_le.mpr hname]
      · simp [hl, hsealed, hname, Nat.not_lt.mp hname]
  · next hl => simp [hl]
  · next hdir _ => exact iff_of_false (by simp) fun h => hdir h.1.1

theorem follow_eq (h : d.follow l names = .ok m) : m = names.foldl step l := by
  induction names generalizing l with
  | nil => exact (Except.ok.inj h).symm
  | cons name names ih => exact ih (follow_cons_eq_ok_iff.mp h).2.2

theorem locate_eq_ok_iff : d.locate p written = .ok l ↔
    written.utf8ByteSize ≤ pathLimit ∧ d.follow p.start p.steps = .ok l := by
  unfold locate
  by_cases h : pathLimit < written.utf8ByteSize
  · simp [h, Nat.not_le.mpr h]
  · simp [h, Nat.not_lt.mp h]

theorem locate_eq (h : d.locate p written = .ok l) : l = p.place :=
  (follow_eq (locate_eq_ok_iff.mp h).2).trans p.foldl_steps

/-- A path that leads somewhere leads there on every disk with the same directories and more. -/
theorem follow_mono (hdenials : d'.toDenials = d.toDenials)
    (hdir : ∀ l, d.entry? l = some .directory → d'.entry? l = some .directory)
    (h : d.follow l names = .ok m) : d'.follow l names = .ok m := by
  induction names generalizing l with
  | nil => exact h
  | cons name names ih =>
    obtain ⟨⟨hl, hsealed⟩, hname, hnames⟩ := follow_cons_eq_ok_iff.mp h
    refine follow_cons_eq_ok_iff.mpr ⟨⟨hdir l hl, ?_⟩, hname, ih hnames⟩
    rwa [hdenials]

theorem locate_mono (hdenials : d'.toDenials = d.toDenials)
    (hdir : ∀ l, d.entry? l = some .directory → d'.entry? l = some .directory)
    (h : d.locate p written = .ok l) : d'.locate p written = .ok l :=
  locate_eq_ok_iff.mpr ((locate_eq_ok_iff.mp h).imp_right (follow_mono hdenials hdir))

/-- A way in two parts, the first of which leads somewhere. -/
theorem follow_append {front back : List String} (h : d.follow l front = .ok m) :
    d.follow l (front ++ back) = d.follow m back := by
  induction front generalizing l with
  | nil =>
    cases h
    rfl
  | cons name front ih =>
    obtain ⟨⟨hdir, hsealed⟩, hname, hrest⟩ := follow_cons_eq_ok_iff.mp h
    rw [List.cons_append, follow, hdir]
    simp [hsealed, Nat.not_lt.mpr hname, ih hrest]

theorem follow_append_eq_ok_iff {front back : List String} :
    d.follow l (front ++ back) = .ok m ↔
      ∃ k, d.follow l front = .ok k ∧ d.follow k back = .ok m := by
  induction front generalizing l with
  | nil => simp [follow]
  | cons name front ih =>
    simp only [List.cons_append, follow_cons_eq_ok_iff, ih]
    constructor
    · rintro ⟨hopen, hname, k, hfront, hback⟩
      exact ⟨k, ⟨hopen, hname, hfront⟩, hback⟩
    · rintro ⟨k, ⟨hopen, hname, hfront⟩, hback⟩
      exact ⟨hopen, hname, k, hfront, hback⟩

/-- A way to an open directory starts from one. -/
theorem Open.of_follow (hm : d.Open m) (h : d.follow l names = .ok m) : d.Open l := by
  cases names with
  | nil =>
    cases h
    exact hm
  | cons name names => exact (follow_cons_eq_ok_iff.mp h).1

/-- The places on the way to an open directory are open directories. -/
theorem Open.of_prefix {front : List String} (hm : d.Open m) (hfront : front <+: names)
    (h : d.follow l names = .ok m) : ∃ k, d.follow l front = .ok k ∧ d.Open k := by
  obtain ⟨back, rfl⟩ := hfront
  obtain ⟨k, hk, hback⟩ := follow_append_eq_ok_iff.mp h
  exact ⟨k, hk, hm.of_follow hback⟩

/-- Names that stay where they are can be put on the way to an open directory. -/
theorem Open.follow_dots (hm : d.Open m) (h : d.follow l (names.filter (· ≠ ".")) = .ok m) :
    d.follow l names = .ok m := by
  induction names generalizing l with
  | nil => exact h
  | cons name names ih =>
    by_cases hdot : name = "."
    · subst hdot
      rw [List.filter_cons_of_neg (by simp)] at h
      exact follow_cons_eq_ok_iff.mpr ⟨hm.of_follow h, by decide, ih h⟩
    · rw [List.filter_cons_of_pos (by simpa using hdot)] at h
      obtain ⟨hopen, hname, hrest⟩ := follow_cons_eq_ok_iff.mp h
      exact follow_cons_eq_ok_iff.mpr ⟨hopen, hname, ih hrest⟩

theorem Open.locate (hm : d.Open m) (h : d.follow p.start p.parts = .ok m)
    (hlength : written.utf8ByteSize ≤ pathLimit) : d.locate p written = .ok m := by
  refine locate_eq_ok_iff.mpr ⟨hlength, ?_⟩
  by_cases hparts : p.parts = []
  · rw [hparts] at h
    cases h
    by_cases hroot : p.root = ""
    · have hstart : p.start = [] := if_pos hroot
      have hsteps : p.steps = ["."] := by simp [Path.steps, hroot, hparts]
      rw [hstart] at hm ⊢
      rw [hsteps]
      exact follow_cons_eq_ok_iff.mpr ⟨hm, by decide, rfl⟩
    · simp [Path.steps, hroot, hparts, follow]
  · rwa [Path.steps_of_ne_nil hparts]

/-- What leads to a place leads there by its names. -/
theorem follow_parts (h : d.locate p written = .ok l) : d.follow p.start p.parts = .ok l := by
  have hplace := locate_eq h
  by_cases hparts : p.parts = []
  · rw [hplace, Path.place, hparts]
    rfl
  · rw [← Path.steps_of_ne_nil hparts]
    exact (locate_eq_ok_iff.mp h).2

/-- What is in a directory is reached through that directory. -/
theorem follow_entryPath :
    d.follow (entryPath p name).start (entryPath p name).steps = .ok l ↔
      ∃ k, d.follow p.start p.parts = .ok k ∧ d.Open k ∧ name.utf8ByteSize ≤ nameLimit ∧
        step k name = l := by
  have hsteps : (entryPath p name).steps = p.parts ++ [name] :=
    Path.steps_of_ne_nil (by simp [entryPath, Path.join])
  have hstart : (entryPath p name).start = p.start := rfl
  rw [hsteps, hstart, follow_append_eq_ok_iff]
  refine exists_congr fun k => and_congr_right fun _ => ?_
  rw [follow_cons_eq_ok_iff, follow, Except.ok.injEq]

theorem open_of_locate_entryPath (h : d.locate (entryPath p name) written = .ok l) :
    d.follow p.start p.parts = .ok p.place ∧ d.Open p.place := by
  obtain ⟨k, hk, hopen, _⟩ := follow_entryPath.mp (locate_eq_ok_iff.mp h).2
  cases follow_eq hk
  exact ⟨hk, hopen⟩

/-! ## What a path leads to -/

theorem stat?_eq_ok_iff {e : Entry} :
    d.stat? p written = .ok (l, e) ↔
      d.locate p written = .ok l ∧ d.entry? l = some e ∧ e ≠ .dangling := by
  unfold stat?
  cases d.locate p written with
  | error e => simp [bind, Except.bind]
  | ok k =>
    simp only [bind, Except.bind, pure, Except.pure, throw, throwThe, MonadExceptOf.throw]
    split
    · grind
    · grind
    · next hfile hdir =>
      refine iff_of_false (by simp) ?_
      rintro ⟨hk, hentry, hne⟩
      cases hk
      cases e with
      | file content => exact hfile content hentry
      | directory => exact hdir hentry
      | dangling => exact hne rfl

theorem isDirectory_iff : d.isDirectory p written = true ↔
    d.locate p written = .ok p.place ∧ d.entry? p.place = some .directory := by
  unfold isDirectory
  constructor
  · intro h
    split at h
    · next l e hstat =>
      obtain ⟨hl, hentry, _⟩ := stat?_eq_ok_iff.mp hstat
      cases locate_eq hl
      cases e with
      | directory => exact ⟨hl, hentry⟩
      | file _ => cases h
      | dangling => cases h
    · cases h
  · rintro ⟨hl, hentry⟩
    rw [stat?_eq_ok_iff.mpr ⟨hl, hentry, by simp⟩]
    rfl

theorem exists?_iff : d.exists? p written = true ↔
    ∃ e, d.locate p written = .ok p.place ∧ d.entry? p.place = some e ∧ e ≠ .dangling := by
  unfold exists?
  constructor
  · intro h
    cases hstat : d.stat? p written with
    | error x =>
      rw [hstat] at h
      cases h
    | ok found =>
      obtain ⟨l, e⟩ := found
      obtain ⟨hl, hentry, hne⟩ := stat?_eq_ok_iff.mp hstat
      cases locate_eq hl
      exact ⟨_, hl, hentry, hne⟩
  · rintro ⟨e, h⟩
    rw [stat?_eq_ok_iff.mpr h]
    rfl

theorem status_isDirectory {x : Option Entry} (h : d.status p = .ok x) :
    x.any Entry.isDirectory = d.isDirectory p := by
  unfold status at h
  unfold isDirectory
  cases hstat : d.stat? p with
  | ok found =>
    rw [hstat] at h
    cases h
    rfl
  | error c =>
    rw [hstat] at h
    dsimp only at h
    split at h
    · cases h
      rfl
    · cases h

theorem status_of_locate (h : d.locate p = .ok l) : ∃ x, d.status p = .ok x := by
  unfold status
  cases hstat : d.stat? p with
  | ok found => exact ⟨_, rfl⟩
  | error c =>
    -- the place is found, so that it may only turn out to be empty
    have hc : c = .notFound := by
      rw [stat?, h] at hstat
      simp only [bind, Except.bind, pure, Except.pure, throw, throwThe, MonadExceptOf.throw] at hstat
      split at hstat
      · cases hstat
      · cases hstat
      · exact (Except.error.inj hstat).symm
    exact ⟨none, by simp [hc]⟩

theorem status_of_error {cause : OsCause} (h : d.locate p = .error cause)
    (hfound : cause ≠ .notFound) (hdir : cause ≠ .notDirectory) :
    d.status p = .error ⟨cause, p.render⟩ := by
  have hstat : d.stat? p = .error cause := by
    rw [stat?, h]
    rfl
  rw [status, hstat]
  simp [hfound, hdir]

/-- What is in a directory can be reached unless looking it up is denied, or a name or a path is
too long. -/
theorem locate_entryPath (hl : d.locate p = .ok p.place)
    (hdir : d.entry? p.place = some .directory) (name : String) :
    d.locate (entryPath p name) =
      if pathLimit < (entryPath p name).render.utf8ByteSize then .error .nameTooLong
      else if p.place ∈ d.sealed then .error .denied
      else if nameLimit < name.utf8ByteSize then .error .nameTooLong
      else .ok (step p.place name) := by
  have hsteps : (entryPath p name).steps = p.parts ++ [name] :=
    Path.steps_of_ne_nil (by simp [entryPath, Path.join])
  have hstart : (entryPath p name).start = p.start := rfl
  rw [locate, hsteps, hstart, follow_append (follow_parts hl), follow, hdir]
  simp [follow]

/-- What an entry of a directory is can be told exactly if names can be looked up in the directory
and neither the name nor the path is too long. -/
theorem status_entryPath (hl : d.locate p = .ok p.place)
    (hdir : d.entry? p.place = some .directory) :
    (∃ x, d.status (entryPath p name) = .ok x) ↔ p.place ∉ d.sealed ∧
      name.utf8ByteSize ≤ nameLimit ∧ (entryPath p name).render.utf8ByteSize ≤ pathLimit := by
  have hlocate := locate_entryPath hl hdir name
  split at hlocate
  · next hlong =>
    rw [status_of_error hlocate (by decide) (by decide)]
    simp [Nat.not_le.mpr hlong]
  split at hlocate
  · next hsealed =>
    rw [status_of_error hlocate (by decide) (by decide)]
    simp [hsealed]
  split at hlocate
  · next hlong =>
    rw [status_of_error hlocate (by decide) (by decide)]
    simp [Nat.not_le.mpr hlong]
  · next hpath hsealed hname =>
    exact iff_of_true (status_of_locate hlocate)
      ⟨hsealed, Nat.not_lt.mp hname, Nat.not_lt.mp hpath⟩

/-- A file that can be read stands where its path leads. -/
theorem read_eq_ok_iff : d.read p = .ok c ↔ d.locate p = .ok p.place ∧
    d.entry? p.place = some (.file c) ∧ p.place ∉ d.unreadable := by
  unfold read
  constructor
  · intro h
    split at h
    · cases h
    · next l content hstat =>
      obtain ⟨hl, hentry, _⟩ := stat?_eq_ok_iff.mp hstat
      cases locate_eq hl
      split at h
      · cases h
      · next hreadable =>
        cases h
        exact ⟨hl, hentry, by simpa using hreadable⟩
    · cases h
  · rintro ⟨hl, hentry, hreadable⟩
    rw [stat?_eq_ok_iff.mpr ⟨hl, hentry, by simp⟩]
    simp [hreadable]

/-! ## Single operations -/

theorem entry?_put (hl : isBase l = false) (e : Entry) (m : Location) :
    Disk.entry? (d.put l e) m = if m = l then some e else d.entry? m := by
  unfold entry?
  by_cases hm : m = l
  · subst hm
    simp [hl, put]
  · have hfilter : (d.entries.filter (·.1 ≠ l)).lookup m = d.entries.lookup m := by
      induction d.entries with
      | nil => rfl
      | cons a as ih => grind
    have hcons : (d.put l e).entries.lookup m = d.entries.lookup m := by
      rw [put, List.lookup_cons, beq_eq_false_iff_ne.mpr hm, hfilter]
    rw [hcons, if_neg hm]

theorem isBase_of_entry?_ne (h : d.entry? l ≠ some .directory) : isBase l = false := by
  cases hbase : isBase l with
  | false => rfl
  | true => exact absurd (by rw [ entry?, if_pos hbase]) h

/-- A file can be written where the path leads: it is not protected and no directory, and where
nothing stands a file may be made. -/
structure Writable (d : Disk) (p : Path) : Prop where
  locate : d.locate p = .ok p.place
  unprotected : p.place ∉ d.readonly
  file : d.entry? p.place ≠ some .directory
  unlocked : d.entry? p.place = none → p.place.dropLast ∉ d.locked

theorem write_eq_ok_iff :
    d.write p c = .ok d' ↔ d.Writable p ∧ d' = d.put p.place (.file c) := by
  unfold write
  constructor
  · intro h
    cases hl : d.locate p with
    | error e =>
      rw [hl] at h
      cases h
    | ok l =>
      rw [hl] at h
      cases locate_eq hl
      dsimp only at h
      split at h
      · cases h
      · next hprotected =>
        have hprotected : p.place ∉ d.readonly := by simpa using hprotected
        split at h
        · cases h
        · next hnone =>
          split at h
          · cases h
          · next hlocked =>
            cases h
            refine ⟨⟨hl, hprotected, by rw [hnone]; simp, fun _ => by simpa using hlocked⟩, rfl⟩
        · next hdir hsome =>
          cases h
          exact ⟨⟨hl, hprotected, hdir, fun hnone => absurd hnone hsome⟩, rfl⟩
  · rintro ⟨⟨hl, hprotected, hdir, hlocked⟩, rfl⟩
    rw [hl]
    dsimp only
    rw [if_neg (by simpa using hprotected)]
    split
    · next h => exact absurd h hdir
    · next h => rw [if_neg (by simpa using hlocked h)]
    · rfl

theorem makeOne_eq_ok_iff : d.makeOne p written = .ok d' ↔
    d.locate p written = .ok p.place ∧ d.entry? p.place = none ∧
      p.place.dropLast ∉ d.locked ∧ d' = d.put p.place .directory := by
  unfold makeOne
  cases hl : d.locate p written with
  | error e => simp
  | ok l =>
    cases locate_eq hl
    dsimp only
    split
    · next hentry => simp [hentry]
    · next hentry =>
      by_cases hlocked : p.place.dropLast ∈ d.locked
      · simp [hlocked]
      · simp [hentry, hlocked, eq_comm (a := d')]

theorem makeIfAbsent_of_isDirectory (h : d.isDirectory p written = true) :
    d.makeIfAbsent p written = .ok d := by
  unfold makeIfAbsent
  split
  · next hone =>
    have hnone := (makeOne_eq_ok_iff.mp hone).2.1
    rw [(isDirectory_iff.mp h).2] at hnone
    cases hnone
  · rw [if_pos h]

/-- No directory is made under a path that is too long. -/
theorem makeIfAbsent_of_long (h : pathLimit < written.utf8ByteSize) :
    d.makeIfAbsent p written = .error ⟨.nameTooLong, written⟩ := by
  have hlocate : d.locate p written = .error .nameTooLong := if_pos h
  have hdir : d.isDirectory p written = false := by
    rw [isDirectory, stat?, hlocate]
    rfl
  rw [makeIfAbsent, makeOne, hlocate]
  dsimp only
  rw [hdir, if_neg (by decide)]

/-! ## What operations keep -/

/-- Files and directories are still there, and the same is denied. -/
structure Keeps (d d' : Disk) : Prop where
  denials : d'.toDenials = d.toDenials
  directory : ∀ l, d.entry? l = some .directory → d'.entry? l = some .directory
  file : ∀ l c, d.entry? l = some (.file c) → ∃ c', d'.entry? l = some (.file c')

namespace Keeps

theorem refl (d : Disk) : d.Keeps d := ⟨rfl, fun _ h => h, fun _ c h => ⟨c, h⟩⟩

theorem trans (h : d.Keeps d') (h' : d'.Keeps d'') : d.Keeps d'' where
  denials := h'.denials.trans h.denials
  directory l hl := h'.directory l (h.directory l hl)
  file l c hl := by
    obtain ⟨c', hl'⟩ := h.file l c hl
    exact h'.file l c' hl'

theorem locate (h : d.Keeps d') (hl : d.locate p written = .ok l) :
    d'.locate p written = .ok l := locate_mono h.denials h.directory hl

end Keeps

theorem keeps_put_file (hl : d.entry? l ≠ some .directory) (c : Bytes) :
    d.Keeps (d.put l (.file c)) where
  denials := rfl
  directory m hm := by
    rw [entry?_put (isBase_of_entry?_ne hl), if_neg (by rintro rfl; exact hl hm), hm]
  file m c' hm := by
    rw [entry?_put (isBase_of_entry?_ne hl)]
    by_cases h : m = l
    · exact ⟨c, if_pos h⟩
    · exact ⟨c', by rw [if_neg h, hm]⟩

/-- Writing a file makes no difference to whether others can be written. -/
theorem writable_put_iff {q : Path} (h : d.Writable q) :
    (d.put q.place (.file c)).Writable p ↔ d.Writable p := by
  have hput := entry?_put (d := d) (isBase_of_entry?_ne h.file) (.file c)
  have hback : ∀ l, Disk.entry? (d.put q.place (.file c)) l = some .directory →
      d.entry? l = some .directory := by
    intro l hl
    rw [hput] at hl
    split at hl
    · cases hl
    · exact hl
  constructor
  · intro hp
    have hl : d.locate p = .ok p.place :=
      locate_mono (d := d.put q.place (.file c)) rfl hback hp.locate
    by_cases hsame : p.place = q.place
    · exact ⟨hl, hp.unprotected, hsame ▸ h.file, hsame ▸ h.unlocked⟩
    · have hentry := hput p.place
      rw [if_neg hsame] at hentry
      exact ⟨hl, hp.unprotected, hentry ▸ hp.file, hentry ▸ hp.unlocked⟩
  · intro hp
    refine ⟨(keeps_put_file h.file c).locate hp.locate, hp.unprotected, ?_, ?_⟩
    · exact fun hdir => hp.file (hback _ hdir)
    · intro hnone
      rw [hput] at hnone
      split at hnone
      · cases hnone
      · exact hp.unlocked hnone

/-- More directories, at some of the places `way` where nothing stood. -/
structure Makes (way : List Location) (d d' : Disk) : Prop where
  denials : d'.toDenials = d.toDenials
  entry : ∀ l, d'.entry? l = d.entry? l ∨
    l ∈ way ∧ d.entry? l = none ∧ d'.entry? l = some .directory

namespace Makes

variable {way way' : List Location}

theorem refl (way : List Location) (d : Disk) : d.Makes way d := ⟨rfl, fun _ => .inl rfl⟩

theorem trans (h : Makes way d d') (h' : Makes way d' d'') : Makes way d d'' where
  denials := h'.denials.trans h.denials
  entry l := by
    have hl := h.entry l
    have hl' := h'.entry l
    grind

theorem mono (h : Makes way d d') (hsub : way ⊆ way') : Makes way' d d' where
  denials := h.denials
  entry l := (h.entry l).imp_right fun hl => ⟨hsub hl.1, hl.2⟩

theorem keeps (h : Makes way d d') : d.Keeps d' where
  denials := h.denials
  directory l hl := by grind [h.entry l]
  file l c hl := by grind [h.entry l]

end Makes

theorem makeOne_makes (h : d.makeOne p written = .ok d') : d.Makes (Main.places p) d' := by
  obtain ⟨_, hnone, _, rfl⟩ := makeOne_eq_ok_iff.mp h
  refine ⟨rfl, fun l => ?_⟩
  rw [entry?_put (isBase_of_entry?_ne (by rw [hnone]; simp))]
  by_cases h : l = p.place
  · exact .inr ⟨h ▸ p.place_mem_places, h ▸ hnone, if_pos h⟩
  · exact .inl (if_neg h)

theorem makeIfAbsent_makes (d : Disk) (p : Path) (written : String) :
    d.Makes (Main.places p) (Attempt.of d (d.makeIfAbsent p written)).disk := by
  unfold makeIfAbsent
  cases hone : d.makeOne p written with
  | ok d' => exact makeOne_makes hone
  | error e =>
    dsimp only
    split
    · exact .refl _ _
    · exact .refl _ _

theorem makeUpward_makes (d : Disk) (root : String) (names : List String) :
    d.Makes (Main.places ⟨root, names.reverse⟩) (d.makeUpward root names).disk := by
  induction names generalizing d with
  | nil => exact makeIfAbsent_makes _ _ _
  | cons name names ih =>
    have hlast := makeIfAbsent_makes d ⟨root, (name :: names).reverse⟩
      (Path.render ⟨root, (name :: names).reverse⟩)
    rw [makeUpward]
    cases hfirst : d.makeIfAbsent ⟨root, (name :: names).reverse⟩ with
    | ok d' =>
      rw [hfirst] at hlast
      exact hlast
    | error e =>
      dsimp only
      split
      · -- the directories above are made first
        have hleads : Path.Leads ⟨root, names.reverse⟩ ⟨root, (name :: names).reverse⟩ := by
          refine ⟨Iff.rfl, ?_⟩
          rw [List.reverse_cons]
          exact List.prefix_append _ _
        have habove := (ih d).mono hleads.places
        split
        · next d₁ hmade =>
          rw [hmade] at habove
          exact habove.trans (makeIfAbsent_makes _ _ _)
        · exact habove
      · exact .refl _ _

/-- Making a directory adds directories on the way to it only. -/
theorem makeDirectory_makes (d : Disk) (p : Path) :
    d.Makes (Main.places p) (d.makeDirectory p).disk := by
  have hmakes := makeUpward_makes d p.root p.parts.reverse
  rwa [List.reverse_reverse] at hmakes

end Disk

/-! ## Written paths -/

namespace Path

/-- The names on the way of a path as it is written are those of the path, and names that stay
where they are. -/
theorem filter_parts_asWritten (s : String) :
    (asWritten s).parts.filter (· ≠ ".") = (ofString s).parts := by
  simp only [asWritten, ofString, splitNames, List.filter_filter]
  refine List.filter_congr fun name _ => ?_
  simp [Bool.and_comm]

theorem foldl_step_filter (names : List String) (l : Location) :
    (names.filter (· ≠ ".")).foldl Disk.step l = names.foldl Disk.step l := by
  induction names generalizing l with
  | nil => rfl
  | cons name names ih =>
    by_cases h : name = "."
    · rw [List.filter_cons_of_neg (by simpa using h), ih, List.foldl_cons, Disk.step, if_pos h]
    · rw [List.filter_cons_of_pos (by simpa using h), List.foldl_cons, List.foldl_cons, ih]

theorem places_asWritten (s : String) : Main.places (asWritten s) ⊆ Main.places (ofString s) := by
  intro l hl
  obtain ⟨names, ⟨rest, hrest⟩, rfl⟩ := mem_places.mp hl
  refine mem_places.mpr ⟨names.filter (· ≠ "."), ?_, foldl_step_filter names _⟩
  rw [← filter_parts_asWritten, ← hrest, List.filter_append]
  exact List.prefix_append _ _

theorem parts_asWritten_append (front back : List Char) :
    (asWritten (.ofList (front ++ '/' :: back))).parts =
      (asWritten (.ofList front)).parts ++ (asWritten (.ofList back)).parts := by
  simp only [asWritten, String.toList_ofList]
  rw [List.splitOnP_append_cons _ _ (by decide), List.map_append, List.filter_append]

theorem parts_asWritten_slashes {slashes : List Char} (h : ∀ c ∈ slashes, c = '/') :
    (asWritten (.ofList slashes)).parts = [] := by
  induction slashes with
  | nil => decide
  | cons c slashes ih =>
    obtain rfl := h c List.mem_cons_self
    have happend := parts_asWritten_append [] slashes
    rw [List.nil_append] at happend
    rw [happend, ih fun c hc => h c (List.mem_cons_of_mem _ hc)]
    decide

theorem parts_asWritten_append_slashes (front : List Char) {slashes : List Char}
    (h : ∀ c ∈ slashes, c = '/') :
    (asWritten (.ofList (front ++ slashes))).parts = (asWritten (.ofList front)).parts := by
  cases slashes with
  | nil => rw [List.append_nil]
  | cons c slashes =>
    obtain rfl := h c List.mem_cons_self
    rw [parts_asWritten_append, parts_asWritten_slashes fun c hc => h c (List.mem_cons_of_mem _ hc),
      List.append_nil]

theorem rootOf_eq_nil_iff (s : String) : rootOf s = "" ↔ s.toList.head? ≠ some '/' := by
  unfold rootOf
  cases s.toList with
  | nil => simp
  | cons c cs =>
    by_cases hc : c = '/'
    · subst hc
      simp only [List.takeWhile_cons, decide_true, if_true, List.length_cons, List.head?_cons]
      split <;> simp_all
    · simp [hc]

end Path

namespace Disk

variable {d d' : Disk} {written : List Char} {l : Location}

theorem dropSlashes_spec (s : List Char) :
    ∃ slashes, s = dropSlashes s ++ slashes ∧ ∀ c ∈ slashes, c = '/' := by
  unfold dropSlashes
  split
  · exact ⟨[], (List.append_nil s).symm, by simp⟩
  · refine ⟨s.rtakeWhile (· = '/'), List.rdropWhile_append_rtakeWhile.symm, fun c hc => ?_⟩
    simpa using List.mem_rtakeWhile_imp hc

/-- A written path falls into the part before its last name, which ends in a slash, and that
name. -/
theorem splitLast_spec (s : List Char) :
    ∃ front, (splitLast s).1 = dropSlashes front ∧ s = front ++ (splitLast s).2 ∧
      (front = [] ∨ ∃ above, front = above ++ ['/']) := by
  have hs := List.rdropWhile_append_rtakeWhile (p := (· ≠ '/')) (l := s)
  have hlast := List.rdropWhile_last_not (p := (· ≠ '/')) (l := s)
  have hsplit : splitLast s =
      (dropSlashes (s.take (s.length - (s.rtakeWhile (· ≠ '/')).length)),
        s.rtakeWhile (· ≠ '/')) := rfl
  rw [hsplit]
  generalize s.rdropWhile (· ≠ '/') = front at hs hlast
  generalize s.rtakeWhile (· ≠ '/') = tail at hs
  refine ⟨front, ?_, hs.symm, ?_⟩
  · have hlen : s.length - tail.length = front.length := by
      rw [← hs, List.length_append]
      omega
    rw [hlen, ← hs, List.take_left]
  · by_cases hnil : front = []
    · exact .inl hnil
    · have hslash : front.getLast hnil = '/' := by simpa using hlast hnil
      exact .inr ⟨front.dropLast, by rw [← hslash, List.dropLast_append_getLast hnil]⟩

theorem splitLast_front (s : List Char) : (splitLast s).1 <+: s ∧
    (Path.asWritten (.ofList (splitLast s).1)).parts <+: (Path.asWritten (.ofList s)).parts := by
  obtain ⟨front, hfst, hs, hfront⟩ := splitLast_spec s
  obtain ⟨slashes, hdrop, hslashes⟩ := dropSlashes_spec front
  have hnames : (Path.asWritten (.ofList (dropSlashes front))).parts =
      (Path.asWritten (.ofList front)).parts := by
    nth_rewrite 2 [hdrop]
    rw [Path.parts_asWritten_append_slashes _ hslashes]
  rw [hfst]
  constructor
  · refine List.IsPrefix.trans ⟨slashes, hdrop.symm⟩ ⟨(splitLast s).2, hs.symm⟩
  · rw [hnames]
    obtain rfl | ⟨above, rfl⟩ := hfront
    · exact List.nil_prefix
    · have hnames' : (Path.asWritten (.ofList s)).parts =
          (Path.asWritten (.ofList above)).parts ++
            (Path.asWritten (.ofList (splitLast s).2)).parts := by
        nth_rewrite 1 [hs]
        rw [List.append_assoc, List.singleton_append, Path.parts_asWritten_append]
      rw [hnames', Path.parts_asWritten_append_slashes _ (by simp)]
      exact List.prefix_append _ _

theorem splitName_front (s : List Char) : (splitName s).1 <+: s ∧
    (Path.asWritten (.ofList (splitName s).1)).parts <+: (Path.asWritten (.ofList s)).parts := by
  have hlast := splitLast_front s
  unfold splitName
  split
  · next head hsplit =>
    rw [hsplit] at hlast
    have habove := splitLast_front head
    exact ⟨habove.1.trans hlast.1, habove.2.trans hlast.2⟩
  · exact hlast

/-- What stands before the last name of a written path is the first part of the way. -/
theorem splitName_leads (hhead : (splitName written).1 ≠ []) :
    (Path.asWritten (.ofList (splitName written).1)).Leads (.asWritten (.ofList written)) := by
  obtain ⟨⟨rest, hrest⟩, hparts⟩ := splitName_front written
  refine ⟨?_, hparts⟩
  have hfirst : written.head? = (splitName written).1.head? := by
    nth_rewrite 1 [← hrest]
    exact List.head?_append_of_ne_nil _ hhead
  simp only [Path.asWritten, Path.rootOf_eq_nil_iff, String.toList_ofList, hfirst]

theorem splitName_length (hlast : (splitName written).2 ≠ []) :
    (splitName written).1.length < written.length := by
  have hsplit : ∀ s : List Char, (splitLast s).2 ≠ [] → (splitLast s).1.length < s.length := by
    intro s hs
    obtain ⟨front, hfst, hparts, _⟩ := splitLast_spec s
    obtain ⟨slashes, hdrop, _⟩ := dropSlashes_spec front
    have hfront : (dropSlashes front).length ≤ front.length := by
      nth_rewrite 2 [hdrop]
      simp
    have hlen : s.length = front.length + (splitLast s).2.length := by
      nth_rewrite 1 [hparts]
      simp
    have hpos := List.length_pos_of_ne_nil hs
    rw [hfst]
    omega
  unfold splitName at hlast ⊢
  split at hlast
  · next head hnil =>
    have hhead : head.length ≤ written.length := by
      have hprefix := (splitLast_front written).1.length_le
      rwa [hnil] at hprefix
    exact (hsplit head hlast).trans_le hhead
  · exact hsplit written hlast

theorem makeDownward_makes (d : Disk) (fuel : Nat) (written : List Char) :
    d.Makes (Main.places (.asWritten (.ofList written))) (d.makeDownward fuel written).disk := by
  induction fuel generalizing written with
  | zero => exact .refl _ _
  | succ fuel ih =>
    rw [makeDownward]
    dsimp only
    split
    · next hmissing =>
      have hhead : (splitName written).1 ≠ [] := by
        intro hnil
        rw [hnil] at hmissing
        cases hmissing
      have habove := (ih (splitName written).1).mono (splitName_leads hhead).places
      split
      · exact habove
      · split
        · exact habove
        · exact habove.trans (makeIfAbsent_makes _ _ _)
    · exact makeIfAbsent_makes _ _ _

/-- Making a directory adds directories on the way to it only. -/
theorem makePath_makes (d : Disk) (written : String) :
    d.Makes (Main.places (.ofString written)) (d.makePath written).disk := by
  have hmakes := makeDownward_makes d (written.length + 1) written.toList
  rw [String.ofList_toList] at hmakes
  exact hmakes.mono (Path.places_asWritten written)

/-- The way to an open directory can be written with names that stay where they are. -/
theorem Open.asWritten {s : String} (hopen : d.Open l)
    (h : d.follow (Path.ofString s).start (Path.ofString s).parts = .ok l) :
    d.follow (Path.asWritten s).start (Path.asWritten s).parts = .ok l := by
  rw [← Path.filter_parts_asWritten] at h
  exact hopen.follow_dots h

/-- What stands before the last name of a path to an open directory is there, as far as that can be
seen. -/
theorem Open.exists?_splitName (hopen : d.Open l)
    (h : d.follow (Path.asWritten (.ofList written)).start
      (Path.asWritten (.ofList written)).parts = .ok l)
    (hhead : (splitName written).1 ≠ [])
    (hlength : (String.ofList (splitName written).1).utf8ByteSize ≤ pathLimit) :
    d.exists? (.asWritten (.ofList (splitName written).1)) (.ofList (splitName written).1) =
      true := by
  have hleads := splitName_leads hhead
  obtain ⟨k, hk, hkopen⟩ := hopen.of_prefix hleads.2 h
  rw [← hleads.start_eq] at hk
  have hlocate := hkopen.locate hk hlength
  obtain rfl := locate_eq hlocate
  exact exists?_iff.mpr ⟨.directory, hlocate, hkopen.1, by simp⟩

theorem splitName_size (written : List Char) :
    (String.ofList (splitName written).1).utf8ByteSize ≤
      (String.ofList written).utf8ByteSize := by
  obtain ⟨rest, hrest⟩ := (splitName_front written).1
  nth_rewrite 2 [← hrest]
  rw [String.ofList_append, String.utf8ByteSize_append]
  exact Nat.le_add_right _ _

/-- A directory that is there is not made again. -/
theorem makePath_of_open {s : String} (hopen : d.Open l)
    (h : d.follow (Path.ofString s).start (Path.ofString s).parts = .ok l)
    (hlength : s.utf8ByteSize ≤ pathLimit) : d.makePath s = ⟨d, none⟩ := by
  have hway := hopen.asWritten h
  have hlocate := hopen.locate hway hlength
  obtain rfl := locate_eq hlocate
  have hdir : d.isDirectory (.asWritten s) s = true := isDirectory_iff.mpr ⟨hlocate, hopen.1⟩
  unfold makePath
  rw [makeDownward]
  simp only [String.ofList_toList]
  split
  · next hmissing =>
    simp only [Bool.and_eq_true, Bool.not_eq_true', List.isEmpty_eq_false_iff] at hmissing
    obtain ⟨⟨hhead, _⟩, habsent⟩ := hmissing
    have hsize := splitName_size s.toList
    rw [String.ofList_toList] at hsize
    have hthere : d.exists? (.asWritten (.ofList (splitName s.toList).1))
        (.ofList (splitName s.toList).1) = true :=
      hopen.exists?_splitName (by rwa [String.ofList_toList]) hhead (hsize.trans hlength)
    rw [hthere] at habsent
    cases habsent
  · rw [String.ofList_toList, makeIfAbsent_of_isDirectory hdir]
    rfl

/-- A directory that is there cannot be asked for under a path that is too long. -/
theorem makeDownward_of_long {fuel : Nat} (hopen : d.Open l)
    (h : d.follow (Path.asWritten (.ofList written)).start
      (Path.asWritten (.ofList written)).parts = .ok l)
    (hlength : pathLimit < (String.ofList written).utf8ByteSize) (hfuel : written.length < fuel) :
    ∃ e : OsError, (d.makeDownward fuel written).failure = some e ∧ e.cause = .nameTooLong := by
  induction fuel generalizing l written with
  | zero => cases hfuel
  | succ fuel ih =>
    rw [makeDownward]
    dsimp only
    split
    · next hmissing =>
      simp only [Bool.and_eq_true, Bool.not_eq_true', List.isEmpty_eq_false_iff] at hmissing
      obtain ⟨⟨hhead, hlast⟩, habsent⟩ := hmissing
      have hlong : pathLimit < (String.ofList (splitName written).1).utf8ByteSize := by
        by_contra hshort
        rw [hopen.exists?_splitName h hhead (Nat.not_lt.mp hshort)] at habsent
        cases habsent
      have hleads := splitName_leads hhead
      obtain ⟨k, hk, hkopen⟩ := hopen.of_prefix hleads.2 h
      rw [← hleads.start_eq] at hk
      have hless := splitName_length hlast
      obtain ⟨e, he, hcause⟩ := ih hkopen hk hlong (by omega)
      rw [he, if_pos (by simp [hcause])]
      exact ⟨e, he, hcause⟩
    · rw [makeIfAbsent_of_long hlength]
      exact ⟨_, rfl, rfl⟩

theorem makePath_of_long {s : String} (hopen : d.Open l)
    (h : d.follow (Path.ofString s).start (Path.ofString s).parts = .ok l)
    (hlength : pathLimit < s.utf8ByteSize) : (d.makePath s).failure ≠ none := by
  have hway := hopen.asWritten h
  rw [← String.ofList_toList (s := s)] at hway hlength
  have hfuel : s.toList.length < s.length + 1 := by
    rw [String.length_toList]
    exact Nat.lt_succ_self _
  obtain ⟨e, he, _⟩ := makeDownward_of_long hopen hway hlength hfuel
  rw [makePath, he]
  simp

/-! ## Disks that look alike -/

/-- The same sort of entry stands at every place, and the same is denied. -/
structure Alike (d e : Disk) : Prop where
  denials : e.toDenials = d.toDenials
  entry : ∀ l, e.entry? l = d.entry? l ∨
    ∃ c c', d.entry? l = some (.file c) ∧ e.entry? l = some (.file c')

/-- An operation fails on two disks alike, or leaves disks alike. -/
inductive AlikeResults : Except OsError Disk → Except OsError Disk → Prop where
  | ok {d e : Disk} (h : d.Alike e) : AlikeResults (.ok d) (.ok e)
  | error (x : OsError) : AlikeResults (.error x) (.error x)

/-- Attempts that fail or succeed alike and leave disks alike. -/
structure Attempt.Alike (a b : Attempt) : Prop where
  disk : a.disk.Alike b.disk
  failure : b.failure = a.failure

namespace Alike

variable {d e f : Disk} {p : Path}

theorem refl (d : Disk) : d.Alike d := ⟨rfl, fun _ => .inl rfl⟩

theorem symm (h : d.Alike e) : e.Alike d :=
  ⟨h.denials.symm, fun l => by grind [h.entry l]⟩

theorem trans (h : d.Alike e) (h' : e.Alike f) : d.Alike f :=
  ⟨h'.denials.trans h.denials, fun l => by grind [h.entry l, h'.entry l]⟩

theorem follow (h : d.Alike e) (l : Location) (names : List String) :
    e.follow l names = d.follow l names := by
  induction names generalizing l with
  | nil => rfl
  | cons name names ih =>
    rw [Disk.follow, Disk.follow, ih, h.denials]
    obtain hl | ⟨c, c', hd, he⟩ := h.entry l
    · rw [hl]
    · rw [hd, he]

theorem locate (h : d.Alike e) (p : Path) (written : String) :
    e.locate p written = d.locate p written := by
  rw [Disk.locate, Disk.locate, h.follow]

theorem isDirectory (h : d.Alike e) (p : Path) (written : String) :
    e.isDirectory p written = d.isDirectory p written := by
  rw [Bool.eq_iff_iff, isDirectory_iff, isDirectory_iff, h.locate]
  grind [h.entry p.place]

theorem exists? (h : d.Alike e) (p : Path) (written : String) :
    e.exists? p written = d.exists? p written := by
  rw [Bool.eq_iff_iff, exists?_iff, exists?_iff, h.locate]
  grind [h.entry p.place]

theorem writable (h : d.Alike e) (hp : d.Writable p) : e.Writable p where
  locate := (h.locate p _).trans hp.locate
  unprotected := h.denials ▸ hp.unprotected
  file := by grind [h.entry p.place, hp.file]
  unlocked hnone := by
    rw [h.denials]
    exact hp.unlocked (by grind [h.entry p.place])

theorem put (h : d.Alike e) {l : Location} (hl : isBase l = false) (x : Entry) :
    (d.put l x).Alike (e.put l x) := by
  refine ⟨h.denials, fun m => ?_⟩
  rw [entry?_put hl, entry?_put hl]
  by_cases hm : m = l
  · rw [if_pos hm, if_pos hm]
    exact .inl rfl
  · rw [if_neg hm, if_neg hm]
    exact h.entry m

theorem makeOne (h : d.Alike e) (p : Path) (written : String) :
    AlikeResults (d.makeOne p written) (e.makeOne p written) := by
  unfold Disk.makeOne
  rw [h.locate, h.denials]
  cases d.locate p written with
  | error c => exact .error _
  | ok l =>
    dsimp only
    obtain hl | ⟨c, c', hd, he⟩ := h.entry l
    · rw [hl]
      cases hd : d.entry? l with
      | some x => exact .error _
      | none =>
        dsimp only
        split
        · exact .error _
        · exact .ok (h.put (isBase_of_entry?_ne (by rw [hd]; simp)) _)
    · rw [hd, he]
      exact .error _

theorem makeIfAbsent (h : d.Alike e) (p : Path) (written : String) :
    (Attempt.of d (d.makeIfAbsent p written)).Alike (.of e (e.makeIfAbsent p written)) := by
  have hone := h.makeOne p written
  unfold Disk.makeIfAbsent
  rw [h.isDirectory]
  generalize d.makeOne p written = x at hone ⊢
  generalize e.makeOne p written = y at hone ⊢
  cases hone with
  | ok h' => exact ⟨h', rfl⟩
  | error x =>
    dsimp only
    split
    · exact ⟨h, rfl⟩
    · exact ⟨h, rfl⟩

theorem makeDownward (h : d.Alike e) (fuel : Nat) (written : List Char) :
    (d.makeDownward fuel written).Alike (e.makeDownward fuel written) := by
  induction fuel generalizing written with
  | zero => exact ⟨h, rfl⟩
  | succ fuel ih =>
    rw [Disk.makeDownward, Disk.makeDownward]
    dsimp only
    rw [h.exists?]
    split
    · have habove := ih (splitName written).1
      rw [habove.failure]
      split
      · exact habove
      · split
        · exact ⟨habove.disk, rfl⟩
        · exact habove.disk.makeIfAbsent _ _
    · exact h.makeIfAbsent _ _

/-- Whether a directory can be made depends on the sorts of the entries only. -/
theorem makePath (h : d.Alike e) (written : String) :
    (d.makePath written).Alike (e.makePath written) := h.makeDownward _ _

end Alike

theorem alike_put_file {d : Disk} {l : Location} {c : Bytes} (h : d.entry? l = some (.file c))
    (c' : Bytes) : d.Alike (d.put l (.file c')) := by
  refine ⟨rfl, fun m => ?_⟩
  rw [entry?_put (isBase_of_entry?_ne (by rw [h]; simp))]
  by_cases hm : m = l
  · exact .inr ⟨c, c', hm ▸ h, if_pos hm⟩
  · exact .inl (if_neg hm)

end Disk

end CtxThread
