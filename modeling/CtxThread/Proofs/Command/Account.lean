import CtxThread.Proofs.Load
import CtxThread.Proofs.Planned

/-!
# The account of a run

A run that ends with an exit code can be told from what it loads. Every updated file is printed or
written, or left out with a word in the log, by itself: what happens to it depends on the file,
the options, the formatter and whether its place is protected, not on the files before it.

## Main definitions

- `FileUpdate.emission`: the formatted text of a file, or why it is not emitted
- `FileUpdate.Starts`: the formatter does not fail to start
- `FileUpdate.printed`, `FileUpdate.written?`, `FileUpdate.notices`: what becomes of one file
- `Loaded.updates`, `Loaded.log`: what becomes of one package
- `Command.Does`: what a part of a run does that emits given files

## Main statements

- `Command.emitAndLog_eq`: emitting a file that is there
- `Command.package_does`: one package
- `Command.runOptions_eq_ok`: a whole run
-/

namespace CtxThread

/-- A line of the log. -/
def Command.line (message : String) : String := "[sqlctxize] " ++ message ++ "\n"

namespace FileUpdate

/-- The formatted text of an updated file that is emitted in the world `w`, or why it is not. -/
def emission (o : Options) (w : World) (u : FileUpdate) : Except EmitError Bytes :=
  (u.formatted w.formatter !o.noFormat).bind fun data =>
    if o.write && u.changed && w.disk.readonly.contains u.file.path.place then
      .error (.unwritable u.file.path ⟨.denied, u.file.path.render⟩)
    else .ok data

/-- The formatter does not fail to start on the text of an updated file. -/
def Starts (o : Options) (w : World) (u : FileUpdate) : Prop :=
  ∀ e, u.formatted w.formatter (!o.noFormat) ≠ .error (.unstarted e)

/-- What is printed of an updated file. -/
def printed (o : Options) (w : World) (u : FileUpdate) : Bytes :=
  if o.write then [] else (u.emission o w).toOption.getD []

/-- What is written back of an updated file, if anything is. -/
def written? (o : Options) (w : World) (u : FileUpdate) : Option Bytes :=
  if o.write && u.changed then (u.emission o w).toOption else none

/-- What is logged about emitting an updated file. -/
def verdict (o : Options) (w : World) (u : FileUpdate) : String :=
  match u.emission o w with
  | .error e => Command.line ("[ERROR] " ++ u.file.path.render ++ ": " ++ e.message)
  | .ok _ =>
    if o.write && u.changed then Command.line ("[OK] Rewrote " ++ u.file.path.render) else ""

/-- All that is logged about an updated file. -/
def notices (o : Options) (w : World) (u : FileUpdate) : String :=
  (if o.verbose then
    Command.line ("Processing " ++ u.file.path.render ++ " (" ++ toString u.plan.size ++ " edits)")
  else "") ++ u.verdict o w

/-- The world after a file has been emitted. -/
def settle (o : Options) (w : World) (u : FileUpdate) : World where
  disk :=
    match u.written? o w with
    | some data => w.disk.put u.file.path.place (.file data)
    | none => w.disk
  formatter := w.formatter
  diagnose := w.diagnose
  stdout := w.stdout ++ u.printed o w
  stderr := w.stderr ++ u.notices o w

end FileUpdate

namespace Command

variable {α β : Type} {o : Options} {w w' w'' : World} {u : FileUpdate} {us us' : List FileUpdate}

/-! ## Single steps -/

theorem bind_eq_ok {x : Command α} {f : α → Command β} {b : β}
    (h : (x >>= f) w = (.ok b, w'')) :
    ∃ a w', x w = (.ok a, w') ∧ f a w' = (.ok b, w'') := by
  change ExceptT.bindCont f (x w).1 (x w).2 = _ at h
  cases hx : x w with
  | mk result w' =>
    rw [hx] at h
    cases result with
    | error e => cases h
    | ok a => exact ⟨a, w', rfl, h⟩

theorem get_eq (w : World) : (get : Command World) w = (.ok w, w) := rfl

theorem log_eq (message : String) (w : World) :
    log message w = (.ok (), { w with stderr := w.stderr ++ line message }) := by
  change (Except.ok (), _) = _
  simp only [line, String.append_assoc]

theorem look_of_ok {p : Path} {x : Option Entry} (h : w.disk.status p = .ok x) :
    look p w = (.ok x, w) := by
  unfold look
  rw [bind_of_ok (get_eq w), h]
  rfl

theorem look_of_error {p : Path} {e : OsError} (h : w.disk.status p = .error e) :
    look p w = (.error (.os e), w) := by
  unfold look
  rw [bind_of_ok (get_eq w), h]
  rfl

/-- A run that goes on after a look has been told what it looked at. -/
theorem bind_look_eq_ok {p : Path} {next : Option Entry → Command α} {a : α}
    (h : (look p >>= next) w = (.ok a, w')) :
    ∃ x, w.disk.status p = .ok x ∧ next x w = (.ok a, w') := by
  cases hstatus : w.disk.status p with
  | ok x =>
    rw [bind_of_ok (look_of_ok hstatus)] at h
    exact ⟨x, rfl, h⟩
  | error e =>
    obtain ⟨_, _, hlook, _⟩ := bind_eq_ok h
    rw [look_of_error hstatus] at hlook
    cases hlook

/-- A file that is there can be written unless its place is protected. -/
theorem write_of_read {d : Disk} {p : Path} {c : Bytes} (h : d.read p = .ok c) (data : Bytes) :
    d.write p data =
      if d.readonly.contains p.place then .error ⟨.denied, p.render⟩
      else .ok (d.put p.place (.file data)) := by
  obtain ⟨hl, hentry, _⟩ := Disk.read_eq_ok_iff.mp h
  rw [Disk.write, hl]
  dsimp only
  rw [hentry]

/-- Emitting a file that is there prints it, writes it or fails, as its emission says. -/
theorem emit_eq {c : Bytes} (h : w.disk.read u.file.path = .ok c) (hstarts : u.Starts o w) :
    emit o u w =
      (.ok ((u.emission o w).map fun _ => ()),
        { w with disk := (u.settle o w).disk, stdout := (u.settle o w).stdout }) := by
  unfold emit
  rw [bind_of_ok (get_eq w)]
  unfold FileUpdate.settle FileUpdate.written? FileUpdate.printed
  cases hformatted : u.formatted w.formatter !o.noFormat with
  | error e =>
    have hemission : u.emission o w = .error e := by rw [FileUpdate.emission, hformatted]; rfl
    have hstarted : ∀ cause, e ≠ .unstarted cause := by
      rintro cause rfl
      exact hstarts cause hformatted
    rw [hemission]
    simp only [Except.toOption, Option.getD_none, ite_self, List.append_nil]
    cases e with
    | unstarted cause => exact absurd rfl (hstarted cause)
    | rejected _ => rfl
    | unwritable _ _ => rfl
    | overlap _ => rfl
  | ok data =>
    have hwrite := write_of_read h data
    dsimp only
    by_cases hchanges : o.write = true ∧ u.changed = true
    · obtain ⟨ho, hu⟩ := hchanges
      by_cases hlocked : w.disk.readonly.contains u.file.path.place = true
      · rw [if_pos hlocked] at hwrite
        have hemission : u.emission o w =
            .error (.unwritable u.file.path ⟨.denied, u.file.path.render⟩) := by
          rw [FileUpdate.emission, hformatted, ho, hu, hlocked]
          rfl
        rw [ho, hu, if_pos rfl, if_pos rfl, bind_of_ok (change_eq _ w), hwrite, hemission]
        simp only [Except.toOption, if_true, List.append_nil]
        rfl
      · rw [if_neg hlocked] at hwrite
        have hemission : u.emission o w = .ok data := by
          rw [FileUpdate.emission, hformatted]
          simp only [Except.bind, Bool.eq_false_of_not_eq_true hlocked, Bool.and_false]
          rfl
        rw [ho, hu, if_pos rfl, if_pos rfl, bind_of_ok (change_eq _ w), hwrite, hemission]
        simp only [Except.toOption, if_true, List.append_nil]
        rfl
    · have hkept : (o.write && u.changed) = false := by simpa using hchanges
      have hemission : u.emission o w = .ok data := by
        rw [FileUpdate.emission, hformatted, hkept]
        rfl
      rw [hemission, hkept]
      cases ho : o.write with
      | false => rfl
      | true =>
        rw [ho, Bool.true_and] at hkept
        rw [if_pos rfl, hkept, if_pos rfl, List.append_nil]
        rfl

/-- Where a run goes on after emitting a file the formatter has not failed to start. -/
theorem starts_of_emit {r : Except EmitError Unit} (h : emit o u w = (.ok r, w')) :
    u.Starts o w := by
  intro e hformatted
  unfold emit at h
  rw [bind_of_ok (get_eq w), hformatted] at h
  cases h

theorem logIf_eq (b : Bool) (message : String) (w : World) :
    (if b then log message else pure () : Command Unit) w =
      (.ok (), { w with stderr := w.stderr ++ if b then line message else "" }) := by
  cases b with
  | true => exact log_eq message w
  | false =>
    change (Except.ok (), w) = _
    simp only [Bool.false_eq_true, if_false, String.append_empty]

/-- What follows the emission of a file that is there, if it only logs how that went. -/
theorem emit_bind_eq {c : Bytes} (h : w.disk.read u.file.path = .ok c) (hstarts : u.Starts o w)
    {next : Except EmitError Unit → Command Unit}
    (herror : ∀ e, next (.error e) = log ("[ERROR] " ++ u.file.path.render ++ ": " ++ e.message))
    (hok : next (.ok ()) =
      if o.write && u.changed then log ("[OK] Rewrote " ++ u.file.path.render) else pure ())
    (stderr : String) :
    (emit o u >>= next) { w with stderr := stderr } =
      (.ok (), { u.settle o w with stderr := stderr ++ u.verdict o w }) := by
  have hemit := emit_eq (o := o) (w := { w with stderr := stderr }) h hstarts
  have hsame : u.emission o { w with stderr := stderr } = u.emission o w := rfl
  rw [bind_of_ok hemit, hsame, FileUpdate.verdict]
  cases u.emission o w with
  | error e =>
    rw [Except.map, herror]
    exact log_eq _ _
  | ok data =>
    rw [Except.map, hok]
    exact logIf_eq _ _ _

/-- Emitting a file that is there settles it, if the formatter does not fail to start. -/
theorem emitAndLog_eq {c : Bytes} (h : w.disk.read u.file.path = .ok c)
    (hstarts : u.Starts o w) : emitAndLog o u w = (.ok (), u.settle o w) := by
  unfold emitAndLog FileUpdate.settle FileUpdate.notices
  by_cases hverbose : o.verbose = true
  · rw [if_pos hverbose, if_pos hverbose, bind_of_ok (log_eq _ w), ← String.append_assoc]
    exact emit_bind_eq h hstarts (fun _ => rfl) rfl _
  · rw [if_neg hverbose, if_neg hverbose, String.empty_append]
    exact emit_bind_eq h hstarts (fun _ => rfl) rfl w.stderr

theorem starts_of_emitAndLog (h : emitAndLog o u w = (.ok (), w')) : u.Starts o w := by
  unfold emitAndLog at h
  by_cases hverbose : o.verbose = true
  · rw [if_pos hverbose, bind_of_ok (log_eq _ w)] at h
    obtain ⟨r, w₁, hemit, _⟩ := bind_eq_ok h
    have hstarts := starts_of_emit hemit
    exact hstarts
  · rw [if_neg hverbose] at h
    obtain ⟨r, w₁, hemit, _⟩ := bind_eq_ok h
    exact starts_of_emit hemit

end Command

/-! ## Parts of a run -/

/-- A later world of a run: the formatter is the same, and nothing is gone from the disk. -/
structure World.Later (w w' : World) : Prop where
  formatter : w'.formatter = w.formatter
  keeps : w.disk.Keeps w'.disk

namespace World.Later

variable {o : Options} {w w' w'' : World}

theorem refl (w : World) : w.Later w := ⟨rfl, .refl _⟩

theorem trans (h : w.Later w') (h' : w'.Later w'') : w.Later w'' :=
  ⟨h'.formatter.trans h.formatter, h.keeps.trans h'.keeps⟩

theorem read (h : w.Later w') {p : Path} {c : Bytes} (hp : w.disk.read p = .ok c) :
    ∃ c', w'.disk.read p = .ok c' := by
  obtain ⟨hl, hentry, hreadable⟩ := Disk.read_eq_ok_iff.mp hp
  obtain ⟨c', hentry'⟩ := h.keeps.file _ _ hentry
  refine ⟨c', Disk.read_eq_ok_iff.mpr ⟨h.keeps.locate hl, hentry', ?_⟩⟩
  rwa [h.keeps.denials]

/-- What becomes of a file does not depend on what has happened before. -/
theorem emission (h : w.Later w') : FileUpdate.emission o w' = FileUpdate.emission o w := by
  funext u
  rw [FileUpdate.emission, FileUpdate.emission, h.formatter, h.keeps.denials]

theorem starts_iff (h : w.Later w') (u : FileUpdate) : u.Starts o w' ↔ u.Starts o w := by
  rw [FileUpdate.Starts, FileUpdate.Starts, h.formatter]

theorem printed (h : w.Later w') : FileUpdate.printed o w' = FileUpdate.printed o w := by
  funext u
  rw [FileUpdate.printed, FileUpdate.printed, h.emission]

theorem written? (h : w.Later w') : FileUpdate.written? o w' = FileUpdate.written? o w := by
  funext u
  rw [FileUpdate.written?, FileUpdate.written?, h.emission]

theorem notices (h : w.Later w') : FileUpdate.notices o w' = FileUpdate.notices o w := by
  funext u
  rw [FileUpdate.notices, FileUpdate.notices, FileUpdate.verdict, FileUpdate.verdict, h.emission]

end World.Later

namespace Command

variable {o : Options} {w w' w'' : World} {u : FileUpdate} {us us' : List FileUpdate}
  {aside aside' way way' : List Location} {log log' : String}

/-- What is written last to a place while the given files are emitted, if anything is. -/
def content? (o : Options) (w : World) (us : List FileUpdate) (l : Location) : Option Bytes :=
  us.reverse.findSome? fun u => if u.file.path.place = l then u.written? o w else none

/-- What a part of a run does that emits the files `us`: the places `aside` apart, it changes the
disk only where these files are written, and by directories on the given way. -/
structure Does (o : Options) (aside way : List Location) (us : List FileUpdate) (log : String)
    (w w' : World) : Prop where
  later : w.Later w'
  stdout : w'.stdout = w.stdout ++ us.flatMap (·.printed o w)
  stderr : w'.stderr = w.stderr ++ log
  written : ∀ l ∉ aside, ∀ data, content? o w us l = some data →
    w'.disk.entry? l = some (.file data)
  kept : ∀ l ∉ aside, content? o w us l = none → w'.disk.entry? l = w.disk.entry? l ∨
    l ∈ way ∧ w.disk.entry? l = none ∧ w'.disk.entry? l = some .directory

namespace Does

theorem refl (o : Options) (aside way : List Location) (w : World) :
    Does o aside way [] "" w w where
  later := .refl w
  stdout := (List.append_nil _).symm
  stderr := String.append_empty.symm
  written _ _ _ h := by cases h
  kept _ _ _ := .inl rfl

/-- One part after the other. -/
theorem append (h : Does o aside way us log w w') (h' : Does o aside way us' log' w' w'') :
    Does o aside way (us ++ us') (log ++ log') w w'' := by
  have hcontent : ∀ l, content? o w (us ++ us') l =
      (content? o w' us' l).or (content? o w us l) := by
    intro l
    rw [content?, List.reverse_append, List.findSome?_append, content?, content?,
      h.later.written?]
  refine ⟨h.later.trans h'.later, ?_, ?_, ?_, ?_⟩
  · rw [h'.stdout, h.stdout, h.later.printed, List.flatMap_append, List.append_assoc]
  · rw [h'.stderr, h.stderr, String.append_assoc]
  · intro l hl data hdata
    rw [hcontent] at hdata
    cases hlast : content? o w' us' l with
    | some data' =>
      rw [hlast] at hdata
      cases hdata
      exact h'.written l hl _ hlast
    | none =>
      rw [hlast, Option.none_or] at hdata
      have hfirst := h.written l hl data hdata
      grind [h'.kept l hl hlast]
  · intro l hl hnone
    rw [hcontent, Option.or_eq_none_iff] at hnone
    grind [h.kept l hl hnone.2, h'.kept l hl hnone.1]

theorem mono (h : Does o aside way us log w w') (haside : aside ⊆ aside') (hway : way ⊆ way') :
    Does o aside' way' us log w w' where
  later := h.later
  stdout := h.stdout
  stderr := h.stderr
  written l hl := h.written l fun hmem => hl (haside hmem)
  kept l hl hnone := (h.kept l (fun hmem => hl (haside hmem)) hnone).imp_right
    fun hmade => ⟨hway hmade.1, hmade.2⟩

/-- A part that emits nothing: it may make directories, write to the places aside, and log. -/
theorem of_disk {d : Disk} (hkeeps : w.disk.Keeps d)
    (hkept : ∀ l ∉ aside, d.entry? l = w.disk.entry? l ∨
      l ∈ way ∧ w.disk.entry? l = none ∧ d.entry? l = some .directory) :
    Does o aside way [] log w { w with disk := d, stderr := w.stderr ++ log } where
  later := ⟨rfl, hkeeps⟩
  stdout := (List.append_nil _).symm
  stderr := rfl
  written _ _ _ h := by cases h
  kept l hl _ := hkept l hl

end Does

/-- One file is emitted. -/
theorem settle_does {c : Bytes} (h : w.disk.read u.file.path = .ok c) :
    Does o [] [] [u] (u.notices o w) w (u.settle o w) ∧ w.disk.Alike (u.settle o w).disk := by
  obtain ⟨_, hentry, _⟩ := Disk.read_eq_ok_iff.mp h
  have hdir : w.disk.entry? u.file.path.place ≠ some .directory := by simp [hentry]
  have hcontent : ∀ l, content? o w [u] l =
      if u.file.path.place = l then u.written? o w else none := by
    intro l
    simp [content?]
  have hdisk : (u.settle o w).disk = match u.written? o w with
    | some data => w.disk.put u.file.path.place (.file data)
    | none => w.disk := rfl
  cases hwritten : u.written? o w with
  | none =>
    rw [hwritten] at hdisk
    refine ⟨⟨⟨rfl, hdisk ▸ .refl _⟩, ?_, rfl, ?_, ?_⟩, hdisk ▸ .refl _⟩
    · rw [List.flatMap_singleton]
      rfl
    · intro l _ data hdata
      rw [hcontent, hwritten, ite_self] at hdata
      cases hdata
    · intro l _ _
      rw [hdisk]
      exact .inl rfl
  | some data =>
    rw [hwritten] at hdisk
    refine ⟨⟨⟨rfl, hdisk ▸ Disk.keeps_put_file hdir data⟩, ?_, rfl, ?_, ?_⟩,
      hdisk ▸ Disk.alike_put_file hentry data⟩
    · rw [List.flatMap_singleton]
      rfl
    · intro l _ data' hdata
      rw [hcontent, hwritten] at hdata
      split at hdata
      · next hl =>
        cases hdata
        rw [hdisk, Disk.entry?_put (Disk.isBase_of_entry?_ne hdir), if_pos hl.symm]
      · cases hdata
    · intro l _ hnone
      rw [hcontent, hwritten] at hnone
      split at hnone
      · cases hnone
      · next hl =>
        left
        rw [hdisk, Disk.entry?_put (Disk.isBase_of_entry?_ne hdir), if_neg (Ne.symm hl)]

/-- The files of a package are emitted one after the other, if the formatter does not fail to
start. -/
theorem forM_emitAndLog (h : ∀ u ∈ us, ∃ c, w.disk.read u.file.path = .ok c)
    (hstarts : ∀ u ∈ us, u.Starts o w) :
    ∃ w', us.forM (emitAndLog o) w = (.ok (), w') ∧
      Does o [] [] us (.join (us.map (·.notices o w))) w w' ∧ w.disk.Alike w'.disk := by
  induction us generalizing w with
  | nil => exact ⟨w, rfl, .refl o [] [] w, .refl _⟩
  | cons u us ih =>
    obtain ⟨c, hc⟩ := h u List.mem_cons_self
    obtain ⟨hdoes, halike⟩ := settle_does (o := o) hc
    obtain ⟨w', hrest, hdoes', halike'⟩ := ih (w := u.settle o w)
      (fun v hv => by
        obtain ⟨c', hc'⟩ := h v (List.mem_cons_of_mem _ hv)
        exact hdoes.later.read hc')
      fun v hv => (hdoes.later.starts_iff v).mpr (hstarts v (List.mem_cons_of_mem _ hv))
    refine ⟨w', ?_, ?_, halike.trans halike'⟩
    · change (emitAndLog o u >>= fun _ => us.forM (emitAndLog o)) w = _
      rw [bind_of_ok (emitAndLog_eq hc (hstarts u List.mem_cons_self)), hrest]
    · rw [hdoes.later.notices] at hdoes'
      have hboth := hdoes.append hdoes'
      rwa [List.map_cons, String.join_cons]

theorem starts_of_forM (h : ∀ u ∈ us, ∃ c, w.disk.read u.file.path = .ok c)
    (hrun : us.forM (emitAndLog o) w = (.ok (), w')) : ∀ u ∈ us, u.Starts o w := by
  induction us generalizing w with
  | nil => simp
  | cons u us ih =>
    obtain ⟨_, w₁, hfirst, hrest⟩ := bind_eq_ok hrun
    have hstarts := starts_of_emitAndLog hfirst
    obtain ⟨c, hc⟩ := h u List.mem_cons_self
    rw [emitAndLog_eq hc hstarts] at hfirst
    cases hfirst
    have hlater := (settle_does (o := o) hc).1.later
    refine List.forall_mem_cons.mpr ⟨hstarts, fun v hv => ?_⟩
    refine (hlater.starts_iff v).mp (ih (fun v hv => ?_) hrest v hv)
    obtain ⟨c', hc'⟩ := h v (List.mem_cons_of_mem _ hv)
    exact hlater.read hc'

/-! ## Syntax trees -/

/-- The path of the file that lists the tree of a source file. -/
def treePath (dir : String) (f : SourceFile) : Path :=
  (Path.ofString dir).join ⟨"", [treeFileName f]⟩

/-- The listing of the tree of a source file. -/
def treeText (f : SourceFile) : Bytes :=
  Bytes.ofString ("\n".intercalate (f.root.listing f.src))

/-- What is logged about the tree of a source file. -/
def treeNotice (dir : String) (f : SourceFile) : String :=
  line ("AST written to " ++ (treePath dir f).render)

/-- What follows an attempt that must not fail. -/
theorem bind_attempt {operation : Disk → Disk.Attempt} {d : Disk} (next : Command α)
    (h : operation w.disk = ⟨d, none⟩) :
    (do orCrash (← change operation); next : Command α) w = next { w with disk := d } := by
  have hchange := change_eq operation w
  rw [h] at hchange
  exact bind_of_ok hchange

theorem bind_attempt_eq_ok {operation : Disk → Disk.Attempt} {next : Command α} {a : α}
    (h : (do orCrash (← change operation); next : Command α) w = (.ok a, w')) :
    ∃ d, operation w.disk = ⟨d, none⟩ ∧ next { w with disk := d } = (.ok a, w') := by
  cases hmade : operation w.disk with
  | mk d failure =>
    have hchange := change_eq operation w
    rw [hmade] at hchange
    rw [bind_of_ok hchange] at h
    cases failure with
    | none => exact ⟨d, rfl, h⟩
    | some e => cases h

/-- Dumping a tree succeeds exactly if the directory and then the file can be made. -/
theorem dumpTree_eq_ok_iff {dir : String} {f : SourceFile} :
    dumpTree dir f w = (.ok (), w') ↔ ∃ d₁, w.disk.makePath dir = ⟨d₁, none⟩ ∧
      d₁.Writable (treePath dir f) ∧
      w' = { w with
        disk := d₁.put (treePath dir f).place (.file (treeText f))
        stderr := w.stderr ++ treeNotice dir f } := by
  constructor
  · intro h
    obtain ⟨d₁, hmade, h⟩ := bind_attempt_eq_ok h
    obtain ⟨d₂, hwritten, h⟩ := bind_attempt_eq_ok h
    rw [log_eq] at h
    cases h
    change Disk.Attempt.of d₁ (d₁.write (treePath dir f) (treeText f)) = ⟨d₂, none⟩ at hwritten
    cases hwrite : d₁.write (treePath dir f) (treeText f) with
    | error e =>
      rw [hwrite] at hwritten
      cases hwritten
    | ok d =>
      rw [hwrite] at hwritten
      cases hwritten
      obtain ⟨hwritable, rfl⟩ := Disk.write_eq_ok_iff.mp hwrite
      exact ⟨d₁, hmade, hwritable, rfl⟩
  · rintro ⟨d₁, hmade, hwritable, rfl⟩
    have hwrite : d₁.write (treePath dir f) (treeText f) = .ok _ :=
      Disk.write_eq_ok_iff.mpr ⟨hwritable, rfl⟩
    unfold dumpTree
    rw [bind_attempt _ hmade, bind_attempt (d := d₁.put (treePath dir f).place (.file (treeText f)))]
    · exact log_eq _ _
    · exact congrArg (Disk.Attempt.of d₁) hwrite

theorem dumpTree_does {dir : String} {f : SourceFile} (h : dumpTree dir f w = (.ok (), w')) :
    Does o [(treePath dir f).place] (Main.places (.ofString dir)) [] (treeNotice dir f) w w' := by
  obtain ⟨d₁, hmade, hwritable, rfl⟩ := dumpTree_eq_ok_iff.mp h
  have hmakes := Disk.makePath_makes w.disk dir
  rw [hmade] at hmakes
  refine .of_disk (hmakes.keeps.trans (Disk.keeps_put_file hwritable.file _)) fun l hl => ?_
  rw [List.mem_singleton] at hl
  rw [Disk.entry?_put (Disk.isBase_of_entry?_ne hwritable.file), if_neg hl]
  exact hmakes.entry l

theorem forM_dumpTree_does {dir : String}
    (h : us.forM (fun u => dumpTree dir u.file) w = (.ok (), w')) :
    Does o (us.map fun u => (treePath dir u.file).place) (Main.places (.ofString dir)) []
      (.join (us.map fun u => treeNotice dir u.file)) w w' := by
  induction us generalizing w with
  | nil =>
    cases h
    exact .refl _ _ _ _
  | cons u us ih =>
    obtain ⟨_, w₁, hfirst, hrest⟩ := bind_eq_ok h
    have hdoes := (dumpTree_does (o := o) hfirst).mono
      (List.cons_subset_cons _ (List.nil_subset (us.map fun u => (treePath dir u.file).place)))
      (List.Subset.refl _)
    rw [List.map_cons, List.map_cons, String.join_cons]
    exact hdoes.append ((ih hrest).mono (List.subset_cons_self _ _) (List.Subset.refl _))

end Command

/-! ## Packages -/

theorem FileUpdate.step_file (s : Settings) (u : FileUpdate)
    (z : Code.Tree × Option (Code.Tree × String)) : (u.step s z).file = u.file := by
  have hseed : ∀ (u : FileUpdate) func statement, (u.seed func statement).file = u.file := by
    intro u func statement
    unfold seed
    split <;> rfl
  have hdeclaration : ∀ decl, (u.declaration s decl).file = u.file := by
    intro decl
    unfold declaration
    grind [augment]
  unfold step
  split
  · unfold retarget
    split <;> rfl
  · grind

theorem updateFile_file {env : Env} {s : Settings} {i : Nat} {f : SourceFile} {m m' : Memo}
    {u : FileUpdate} (h : updateFile env s i f m = some (u, m')) : u.file = f := by
  obtain ⟨hits, _, rfl⟩ := updateFile_eq_some.mp h
  have hfold : ∀ (zs : List (Code.Tree × Option (Code.Tree × String))) (u : FileUpdate),
      (zs.foldl (FileUpdate.step s) u).file = u.file := by
    intro zs
    induction zs with
    | nil => intro u; rfl
    | cons z zs ih => intro u; rw [List.foldl_cons, ih, FileUpdate.step_file]
  rw [(FileUpdate.finish_eq _).1, FileUpdate.planned, hfold]

/-- The files of a package that are updated are those asked for, in their order. -/
theorem updatePackage_files {p : Package} {s : Settings} {only : List String}
    {us : List FileUpdate} (h : updatePackage p s only = some us) :
    us.map (·.file) = p.files.filter (isSelected only) := by
  have hmapM : ∀ (chosen : List (SourceFile × Nat)) (us : List FileUpdate) (m m' : Memo),
      chosen.mapM (fun f => updateFile (.ofPackage p) s f.2 f.1) m = some (us, m') →
        us.map (·.file) = chosen.map Prod.fst := by
    intro chosen
    induction chosen with
    | nil =>
      intro us m m' h
      rw [List.mapM_nil] at h
      cases Resolving.pure_eq_some.mp h
      rfl
    | cons f chosen ih =>
      intro us m m' h
      rw [List.mapM_cons] at h
      obtain ⟨u, m₁, hu, h⟩ := Resolving.bind_eq_some.mp h
      obtain ⟨rest, m₂, hrest, h⟩ := Resolving.bind_eq_some.mp h
      cases Resolving.pure_eq_some.mp h
      rw [List.map_cons, List.map_cons, updateFile_file hu, ih rest _ _ hrest]
  obtain ⟨⟨us', m'⟩, hrun, rfl⟩ := Option.map_eq_some_iff.mp h
  rw [hmapM _ _ _ _ hrun]
  have hfilter := List.filter_map (f := Prod.fst) (p := isSelected only) (l := p.files.zipIdx)
  rw [List.zipIdx_map_fst] at hfilter
  exact hfilter.symm

namespace Command

/-- The places of the listings of trees. -/
def treePlaces (o : Options) (us : List FileUpdate) : List Location :=
  if o.dumpTrees = "" then [] else us.map fun u => (treePath o.dumpTrees u.file).place

/-- The places on the way to the listings of trees. -/
def treeWay (o : Options) : List Location :=
  if o.dumpTrees = "" then [] else Main.places (.ofString o.dumpTrees)

/-- What is logged about the trees of updated files. -/
def treeNotices (o : Options) (us : List FileUpdate) : String :=
  if o.dumpTrees = "" then "" else .join (us.map fun u => treeNotice o.dumpTrees u.file)

end Command

namespace Loaded

/-- The updates of the files of a package that are asked for; a package with errors is left
alone. -/
def updates (o : Options) (l : Loaded) : List FileUpdate :=
  if l.ok then (updatePackage l.package ⟨o.http, o.echo⟩ o.files).getD [] else []

/-- What is logged about a package. -/
def log (o : Options) (w : World) (l : Loaded) : String :=
  if l.ok then
    .join ((l.updates o).map (·.notices o w)) ++ Command.treeNotices o (l.updates o)
  else
    .join (l.errors.map fun e => Command.line ("[ERROR] " ++ e.message)) ++
      Command.line ("[SKIP] package " ++ if l.name = "" then "<unknown>" else l.name)

end Loaded

namespace Command

variable {o : Options} {w w' w'' : World} {l : Loaded} {us us' : List FileUpdate}

theorem forM_log {α : Type} (message : α → String) (as : List α) (w : World) :
    as.forM (fun a => log (message a)) w =
      (.ok (), { w with stderr := w.stderr ++ .join (as.map fun a => line (message a)) }) := by
  induction as generalizing w with
  | nil =>
    change (Except.ok (), w) = _
    simp only [List.map_nil, String.join_nil, String.append_empty]
  | cons a as ih =>
    change (log (message a) >>= fun _ => as.forM fun a => log (message a)) w = _
    rw [bind_of_ok (log_eq _ w), ih]
    simp only [List.map_cons, String.join_cons, String.append_assoc]

theorem read_of_update {p : Package} {s : Settings} {only : List String} {d : Disk}
    (hread : ∀ f ∈ p.files, ∃ c, d.read f.path = .ok c) (h : updatePackage p s only = some us) :
    ∀ u ∈ us, ∃ c, d.read u.file.path = .ok c := by
  intro u hu
  have hmem : u.file ∈ us.map (·.file) := List.mem_map_of_mem hu
  rw [updatePackage_files h] at hmem
  exact hread u.file (List.mem_filter.mp hmem).1

/-- Emitting and dumping the files of a package, in a run that goes on. -/
theorem package_does (hread : ∀ f ∈ l.files, ∃ c, w.disk.read f.path = .ok c)
    (h : package o l w = (.ok us, w')) :
    us = l.updates o ∧
      (l.ok = true → updatePackage l.package ⟨o.http, o.echo⟩ o.files = some us) ∧
      Does o (treePlaces o us) (treeWay o) us (l.log o w) w w' := by
  unfold package at h
  by_cases hok : l.ok = true
  · rw [if_pos hok] at h
    cases hupdate : updatePackage l.package ⟨o.http, o.echo⟩ o.files with
    | none =>
      rw [hupdate] at h
      cases h
    | some us' =>
      rw [hupdate] at h
      have hupdates : l.updates o = us' := by rw [Loaded.updates, if_pos hok, hupdate]; rfl
      have hread' := read_of_update hread hupdate
      dsimp only at h
      obtain ⟨_, w₁, hemit, h⟩ := bind_eq_ok h
      obtain ⟨w₁', hemit', hdoes, _⟩ := forM_emitAndLog hread' (starts_of_forM hread' hemit)
      rw [hemit] at hemit'
      cases hemit'
      have hdoes₁ := hdoes.mono (List.nil_subset (treePlaces o us')) (List.nil_subset (treeWay o))
      rw [Loaded.log, if_pos hok, hupdates]
      by_cases hdump : o.dumpTrees = ""
      · rw [if_neg (not_not.mpr hdump)] at h
        cases h
        refine ⟨rfl, fun _ => rfl, ?_⟩
        rw [treeNotices, if_pos hdump, String.append_empty]
        exact hdoes₁
      · rw [if_pos hdump] at h
        obtain ⟨_, w₂, htrees, h⟩ := bind_eq_ok h
        cases h
        refine ⟨rfl, fun _ => rfl, ?_⟩
        have hdoes₂ := forM_dumpTree_does (o := o) htrees
        rw [treePlaces, treeWay, if_neg hdump, if_neg hdump] at hdoes₁ ⊢
        rw [treeNotices, if_neg hdump]
        have hboth := hdoes₁.append hdoes₂
        rwa [List.append_nil] at hboth
  · rw [if_neg hok] at h
    rw [bind_of_ok (forM_log _ _ w), bind_of_ok (log_eq _ _)] at h
    cases h
    refine ⟨by rw [Loaded.updates, if_neg hok], fun h => absurd h hok, ?_⟩
    rw [Loaded.log, if_neg hok, String.append_assoc]
    exact .of_disk (.refl _) fun _ _ => .inl rfl

theorem treePlaces_append (o : Options) (us us' : List FileUpdate) :
    treePlaces o (us ++ us') = treePlaces o us ++ treePlaces o us' := by
  unfold treePlaces
  split
  · rfl
  · exact List.map_append

/-- The packages of a directory one after the other, in a run that goes on. -/
theorem mapM_package_does {ls : List Loaded} {uss : List (List FileUpdate)}
    (hread : ∀ l ∈ ls, ∀ f ∈ l.files, ∃ c, w.disk.read f.path = .ok c)
    (h : ls.mapM (package o) w = (.ok uss, w')) :
    uss.flatten = ls.flatMap (Loaded.updates o) ∧
      (∀ l ∈ ls, l.ok = true →
        updatePackage l.package ⟨o.http, o.echo⟩ o.files = some (l.updates o)) ∧
      Does o (treePlaces o uss.flatten) (treeWay o) uss.flatten (.join (ls.map (·.log o w))) w w' := by
  induction ls generalizing w uss with
  | nil =>
    cases h
    exact ⟨rfl, by simp, .refl _ _ _ _⟩
  | cons l ls ih =>
    rw [List.mapM_cons] at h
    obtain ⟨us, w₁, hfirst, h⟩ := bind_eq_ok h
    obtain ⟨rest, w₂, hrest, h⟩ := bind_eq_ok h
    cases h
    obtain ⟨rfl, hsome, hdoes⟩ := package_does (hread l List.mem_cons_self) hfirst
    obtain ⟨hflatten, hsome', hdoes'⟩ := ih (fun k hk f hf => by
      obtain ⟨c, hc⟩ := hread k (List.mem_cons_of_mem _ hk) f hf
      exact hdoes.later.read hc) hrest
    refine ⟨?_, ?_, ?_⟩
    · rw [List.flatten_cons, hflatten, List.flatMap_cons]
    · intro k hk
      obtain rfl | hk := List.mem_cons.mp hk
      · exact hsome
      · exact hsome' k hk
    · have hlog : ∀ k : Loaded, k.log o w₁ = k.log o w := by
        intro k
        rw [Loaded.log, Loaded.log, hdoes.later.notices]
      rw [List.flatten_cons, treePlaces_append, List.map_cons, String.join_cons]
      simp only [hlog] at hdoes'
      exact (hdoes.mono (List.subset_append_left _ _) (List.Subset.refl _)).append
        (hdoes'.mono (List.subset_append_right _ _) (List.Subset.refl _))

/-! ## The report -/

theorem makeParent_makes (path : Path) (d : Disk) :
    d.Makes (Main.places path.parent) (makeParent path d).disk := by
  unfold makeParent
  split
  · exact .refl _ _
  · exact .refl _ _
  · exact Disk.makeDirectory_makes d path.parent

/-- Writing the report makes directories on the way and changes nothing else but the report. -/
theorem writeReport_eq (path : Path) (us : List FileUpdate) (w : World) :
    ∃ r d, writeReport path us w = (.ok r, { w with disk := d }) ∧ w.disk.Keeps d ∧
      (∀ l ∉ [path.place], d.entry? l = w.disk.entry? l ∨
        l ∈ Main.places path.parent ∧ w.disk.entry? l = none ∧ d.entry? l = some .directory) ∧
      (r = none →
        d.entry? path.place = some (.file (Bytes.ofString (Report.ofFiles us).render))) := by
  have hmakes := makeParent_makes path w.disk
  unfold writeReport
  rw [bind_of_ok (change_eq (makeParent path) w)]
  cases hfailure : (makeParent path w.disk).failure with
  | some e =>
    refine ⟨some e, _, rfl, hmakes.keeps, fun l _ => hmakes.entry l, ?_⟩
    intro h
    cases h
  | none =>
    dsimp only
    rw [change_eq]
    cases hwrite : (makeParent path w.disk).disk.write path
        (Bytes.ofString (Report.ofFiles us).render) with
    | error e =>
      refine ⟨some e, _, rfl, hmakes.keeps, fun l _ => hmakes.entry l, ?_⟩
      intro h
      cases h
    | ok d₂ =>
      obtain ⟨hwritable, rfl⟩ := Disk.write_eq_ok_iff.mp hwrite
      have hput := Disk.entry?_put (d := (makeParent path w.disk).disk)
        (Disk.isBase_of_entry?_ne hwritable.file)
        (.file (Bytes.ofString (Report.ofFiles us).render))
      refine ⟨none, _, rfl, hmakes.keeps.trans (Disk.keeps_put_file hwritable.file _), ?_,
        fun _ => ?_⟩
      · intro l hl
        change Disk.entry? (Disk.put _ _ _) l = _ ∨ _ ∧ _ ∧ Disk.entry? (Disk.put _ _ _) l = _
        rw [hput, if_neg (List.mem_singleton.not.mp hl)]
        exact hmakes.entry l
      · change Disk.entry? (Disk.put _ _ _) _ = _
        rw [hput, if_pos rfl]

/-- Writing the report never ends a run. Either the report is written, or the log says why
not. -/
theorem report_does (o : Options) (written : String) (us : List FileUpdate) (w : World) :
    ∃ w' log, report written us w = (.ok (), w') ∧
      Does o [(Path.ofString written).place] (Main.places (Path.ofString written).parent) [] log
        w w' ∧
      (log = line ("Report written to " ++ (Path.ofString written).render) ∧
          w'.disk.entry? (Path.ofString written).place =
            some (.file (Bytes.ofString (Report.ofFiles us).render)) ∨
        ∃ e : OsError,
          log = line ("[ERROR] Failed to write report " ++ written ++ ": " ++ e.message)) := by
  obtain ⟨r, d, hwrite, hkeeps, hkept, hwritten⟩ := writeReport_eq (.ofString written) us w
  unfold report
  rw [bind_of_ok hwrite]
  cases r with
  | some e => exact ⟨_, _, log_eq _ _, .of_disk hkeeps hkept, .inr ⟨e, rfl⟩⟩
  | none => exact ⟨_, _, log_eq _ _, .of_disk hkeeps hkept, .inl ⟨rfl, hwritten rfl⟩⟩

/-! ## A whole run -/

/-- What is logged about a file name that was asked for: nothing if it is there. -/
def nameNotice (dir : Path) (d : Disk) (name : String) : String :=
  match d.status (namedPath dir name) with
  | .ok (some (.file _)) => ""
  | _ => line ("[SKIP] " ++ name ++ ": no such file in " ++ dir.render)

/-- What is logged before any package: that there are none, and names that are not there. -/
def prelude (o : Options) (dir : Path) (d : Disk) (ls : List Loaded) : String :=
  (if ls.isEmpty then line ("No .go files found in " ++ dir.render) else "") ++
    .join (o.files.map (nameNotice dir d))

/-- What stands under a file name that was asked for is looked up, and only logged. -/
theorem checkName_eq_ok_iff {dir : Path} {name : String} : checkName dir name w = (.ok (), w') ↔
    (∃ x, w.disk.status (namedPath dir name) = .ok x) ∧
      w' = { w with stderr := w.stderr ++ nameNotice dir w.disk name } := by
  have hcheck : ∀ x, w.disk.status (namedPath dir name) = .ok x → checkName dir name w =
      (.ok (), { w with stderr := w.stderr ++ nameNotice dir w.disk name }) := by
    intro x hx
    unfold checkName nameNotice
    rw [bind_of_ok (look_of_ok hx), logIf_eq, hx]
    cases x with
    | none => rfl
    | some e => cases e <;> rfl
  constructor
  · intro h
    obtain ⟨x, hx, _⟩ := bind_look_eq_ok h
    rw [hcheck x hx] at h
    cases h
    exact ⟨⟨x, hx⟩, rfl⟩
  · rintro ⟨⟨x, hx⟩, rfl⟩
    exact hcheck x hx

theorem forM_checkName_eq_ok_iff {dir : Path} {names : List String} :
    names.forM (checkName dir) w = (.ok (), w') ↔
      (∀ name ∈ names, ∃ x, w.disk.status (namedPath dir name) = .ok x) ∧
      w' = { w with stderr := w.stderr ++ .join (names.map (nameNotice dir w.disk)) } := by
  induction names generalizing w with
  | nil =>
    change (Except.ok (), w) = _ ↔ _
    simp [eq_comm]
  | cons name names ih =>
    simp only [List.forall_mem_cons, List.map_cons, String.join_cons, ← String.append_assoc]
    constructor
    · intro h
      obtain ⟨_, w₁, hfirst, hrest⟩ := bind_eq_ok h
      obtain ⟨htold, rfl⟩ := checkName_eq_ok_iff.mp hfirst
      obtain ⟨htolds, rfl⟩ := ih.mp hrest
      exact ⟨⟨htold, htolds⟩, rfl⟩
    · rintro ⟨⟨htold, htolds⟩, rfl⟩
      exact (bind_of_ok (checkName_eq_ok_iff.mpr ⟨htold, rfl⟩)).trans (ih.mpr ⟨htolds, rfl⟩)

/-- What follows the look at the names that were asked for. -/
theorem forM_checkName_bind_eq_ok_iff {dir : Path} {names : List String} {next : Command Unit} :
    (do names.forM (checkName dir); next : Command Unit) w = (.ok (), w') ↔
      (∀ name ∈ names, ∃ x, w.disk.status (namedPath dir name) = .ok x) ∧
      next { w with stderr := w.stderr ++ .join (names.map (nameNotice dir w.disk)) } =
        (.ok (), w') := by
  constructor
  · intro h
    obtain ⟨_, w₁, hnames, hnext⟩ := bind_eq_ok h
    obtain ⟨htold, rfl⟩ := forM_checkName_eq_ok_iff.mp hnames
    exact ⟨htold, hnext⟩
  · rintro ⟨htold, hnext⟩
    exact (bind_of_ok (forM_checkName_eq_ok_iff.mpr ⟨htold, rfl⟩)).trans hnext

/-- The names that were asked for are looked up before any package. -/
theorem packages_eq_ok_iff {dir : Path} {ls : List Loaded} :
    packages o dir ls w = (.ok (), w') ↔
      (∀ name ∈ o.files, ∃ x, w.disk.status (namedPath dir name) = .ok x) ∧
      (do
        let us ← ls.mapM (package o)
        if o.report ≠ "" then report o.report us.flatten : Command Unit)
        { w with stderr := w.stderr ++ prelude o dir w.disk ls } = (.ok (), w') := by
  unfold packages prelude
  by_cases hls : ls.isEmpty = true
  · rw [if_pos hls, if_pos hls, bind_of_ok (log_eq _ w), ← String.append_assoc]
    exact forM_checkName_bind_eq_ok_iff
  · rw [if_neg hls, if_neg hls, String.empty_append]
    exact forM_checkName_bind_eq_ok_iff

/-- The places of what a run writes besides updated files: the report and listings of trees. -/
def asidePlaces (o : Options) (us : List FileUpdate) : List Location :=
  (if o.report = "" then [] else [(Path.ofString o.report).place]) ++ treePlaces o us

/-- The places on the way to what a run writes besides updated files. -/
def asideWay (o : Options) : List Location :=
  (if o.report = "" then [] else Main.places (Path.ofString o.report).parent) ++ treeWay o

/-- What is logged about the report: nothing if there is none, else that it was written or why it
was not. -/
def Reported (o : Options) (us : List FileUpdate) (d : Disk) (log : String) : Prop :=
  if o.report = "" then log = ""
  else
    log = line ("Report written to " ++ (Path.ofString o.report).render) ∧
        d.entry? (Path.ofString o.report).place =
          some (.file (Bytes.ofString (Report.ofFiles us).render)) ∨
      ∃ e : OsError, log = line ("[ERROR] Failed to write report " ++ o.report ++ ": " ++ e.message)

/-- The account of a run that ends with code 0, after loading the packages `ls`. -/
structure Account (o : Options) (w w' : World) (ls : List Loaded) : Prop where
  isDirectory : w.disk.isDirectory (.ofString o.dir) = true
  load : load w.diagnose w.disk (.ofString o.dir) = .ok ls
  updated : ∀ l ∈ ls, l.ok = true →
    updatePackage l.package ⟨o.http, o.echo⟩ o.files = some (l.updates o)
  does : ∃ last, Reported o (ls.flatMap (Loaded.updates o)) w'.disk last ∧
    Does o (asidePlaces o (ls.flatMap (Loaded.updates o))) (asideWay o)
      (ls.flatMap (Loaded.updates o))
      (prelude o (.ofString o.dir) w.disk ls ++ .join (ls.map (·.log o w)) ++ last) w w'

theorem read_of_load {ls : List Loaded} {dir : Path}
    (h : CtxThread.load w.diagnose w.disk dir = .ok ls) :
    ∀ l ∈ ls, ∀ f ∈ l.files, ∃ c, w.disk.read f.path = .ok c := fun _ hl f hf =>
  ⟨f.src, (mem_files_of_load h hl hf).2.1⟩

/-- The packages of a directory and the report, in a run that goes on. -/
theorem packages_does {ls : List Loaded} {dir : Path}
    (hread : ∀ l ∈ ls, ∀ f ∈ l.files, ∃ c, w.disk.read f.path = .ok c)
    (h : packages o dir ls w = (.ok (), w')) :
    (∀ l ∈ ls, l.ok = true →
      updatePackage l.package ⟨o.http, o.echo⟩ o.files = some (l.updates o)) ∧
    ∃ last, Reported o (ls.flatMap (Loaded.updates o)) w'.disk last ∧
      Does o (asidePlaces o (ls.flatMap (Loaded.updates o))) (asideWay o)
        (ls.flatMap (Loaded.updates o))
        (prelude o dir w.disk ls ++ .join (ls.map (·.log o w)) ++ last) w w' := by
  obtain ⟨_, h⟩ := packages_eq_ok_iff.mp h
  obtain ⟨uss, w₁, hpackages, h⟩ := bind_eq_ok h
  obtain ⟨hflatten, hupdated, hdoes⟩ := mapM_package_does
    (w := { w with stderr := w.stderr ++ prelude o dir w.disk ls }) hread hpackages
  refine ⟨hupdated, ?_⟩
  rw [hflatten] at h hdoes
  have hprelude : Does o (asidePlaces o (ls.flatMap (Loaded.updates o))) (asideWay o) []
      (prelude o dir w.disk ls) w { w with stderr := w.stderr ++ prelude o dir w.disk ls } :=
    .of_disk (.refl _) fun _ _ => .inl rfl
  have hmiddle := hprelude.append
    (hdoes.mono (List.subset_append_right _ _) (List.subset_append_right _ _))
  by_cases hreport : o.report = ""
  · rw [if_neg (not_not.mpr hreport)] at h
    cases h
    refine ⟨"", ?_, ?_⟩
    · rw [Reported, if_pos hreport]
    · rw [String.append_empty]
      exact hmiddle
  · rw [if_pos hreport] at h
    obtain ⟨w₂, last, hrun, hdoes', hlast⟩ :=
      report_does o o.report (ls.flatMap (Loaded.updates o)) w₁
    rw [hrun] at h
    cases h
    refine ⟨last, ?_, ?_⟩
    · rwa [Reported, if_neg hreport]
    · have haside : [(Path.ofString o.report).place] ⊆
          asidePlaces o (ls.flatMap (Loaded.updates o)) := by
        rw [asidePlaces, if_neg hreport]
        exact List.subset_append_left _ _
      have hway : Main.places (Path.ofString o.report).parent ⊆ asideWay o := by
        rw [asideWay, if_neg hreport]
        exact List.subset_append_left _ _
      have hall := hmiddle.append (hdoes'.mono haside hway)
      rwa [List.nil_append, List.append_nil] at hall

/-- A run that ends with a code ends with 2 before anything is done, or with 0 after all that its
account says. -/
theorem runOptions_eq_ok {code : Nat} (h : runOptions o w = (.ok code, w')) :
    (code = 2 ∧ (∃ e, CtxThread.load w.diagnose w.disk (.ofString o.dir) = .error e) ∧
        ∃ message, w' = { w with stderr := w.stderr ++ line message }) ∨
      (code = 0 ∧ ∃ ls, Account o w w' ls) := by
  unfold runOptions at h
  obtain ⟨x, hstatus, h⟩ := bind_look_eq_ok h
  rw [Disk.status_isDirectory hstatus] at h
  cases hdir : w.disk.isDirectory (.ofString o.dir) with
  | false =>
    rw [hdir] at h
    obtain ⟨_, w₁, hlog, h⟩ := bind_eq_ok h
    rw [log_eq] at hlog
    cases hlog
    cases h
    exact .inl ⟨rfl, load_of_not_isDirectory hdir, _, rfl⟩
  | true =>
    rw [hdir] at h
    rw [Bool.not_true, if_neg (by decide), bind_of_ok (get_eq w)] at h
    cases hload : CtxThread.load w.diagnose w.disk (.ofString o.dir) with
    | error e =>
      rw [hload] at h
      cases e with
      | untold e => cases h
      | unlisted directory cause =>
        obtain ⟨_, w₁, hlog, h⟩ := bind_eq_ok h
        rw [log_eq] at hlog
        cases hlog
        cases h
        exact .inl ⟨rfl, ⟨_, rfl⟩, _, rfl⟩
    | ok ls =>
      rw [hload] at h
      obtain ⟨_, w₁, hpackages, h⟩ := bind_eq_ok h
      cases h
      obtain ⟨hupdated, hdoes⟩ := packages_does (read_of_load hload) hpackages
      exact .inr ⟨rfl, ls, hdir, hload, hupdated, hdoes⟩

theorem eq_ok_of_toOption {ε α : Type} {x : Except ε α} {a : α} (h : x.toOption = some a) :
    x = .ok a := by
  cases x with
  | error e => cases h
  | ok b => rw [Option.some.inj h]

theorem run_eq_ok {a : Nat} {x : Command Nat} (h : (x w).1.toOption = some a) :
    x w = (.ok a, (x w).2) := Prod.ext (eq_ok_of_toOption h) rfl

end Command

end CtxThread
