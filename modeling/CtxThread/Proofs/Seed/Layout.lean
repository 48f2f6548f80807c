import CtxThread.Proofs.Code.Parse
import CtxThread.Proofs.Edit.Order
import CtxThread.Proofs.Seed
import CtxThread.Proofs.Text.Utf8
import CtxThread.Source

/-!
# The layout of a seeded body

Inside of its braces a body is a gap, then each statement with the gap behind it. Seeding puts a
statement into the first gap, on a line of its own, and may give the other gaps a line end instead
of separators. Everything else stands as it stood.

## Main definitions

- `Seed.texts`, `Seed.gaps`: the statements of a body, and what stands behind each of them
- `Seed.withInside`: a text with something else between the braces of a body
- `Seed.Receives`: a gap into which a statement is put
- `Seed.Relaid`: a gap that keeps what it holds, but perhaps for separators

## Main statements

- `Seed.plan_lays_out`: what seeding a function plans, and what it leaves of the text
-/

namespace CtxThread

open Code (Tree Row Kind)

namespace Seed

open Edit

/-! ## Statements and gaps -/

/-- Where the gap in front of the statements ends: at the first of them, or at `closing`. -/
def upTo (closing : Nat) (ts : List Tree) : Nat := (ts.head?.map (·.start)).getD closing

/-- The texts of the statements. -/
def texts (src : Bytes) (ts : List Tree) : List Bytes := ts.map fun t => src.slice t.start t.stop

/-- What stands behind each of the statements, up to the next one or to `closing`. -/
def gaps (src : Bytes) (closing : Nat) : List Tree → List Bytes
  | [] => []
  | t :: ts => src.slice t.stop (upTo closing ts) :: gaps src closing ts

/-- Each of the texts with the gap behind it. -/
def interleave (texts gaps : List Bytes) : Bytes := (List.zipWith (· ++ ·) texts gaps).flatten

/-- The text with `inside` between the braces of a body. -/
def withInside (src : Bytes) (body : Tree) (inside : Bytes) : Bytes :=
  src.take body.start ++ 0x7B :: (inside ++ 0x7D :: src.drop body.stop)

theorem upTo_cons (closing : Nat) (t : Tree) (ts : List Tree) : upTo closing (t :: ts) = t.start :=
  rfl

theorem interleave_cons (t g : Bytes) (ts gs : List Bytes) :
    interleave (t :: ts) (g :: gs) = t ++ g ++ interleave ts gs := rfl

/-- A line that holds `text` behind an indentation. -/
def line (indent text : Bytes) : Bytes := Bytes.lineFeed :: (indent ++ text)

/-- A gap into which `statement` is put on a line of its own. Nothing but separators goes for it, and
nothing but blanks comes with it. -/
def Receives (statement : String) (gap gap' : Bytes) : Prop :=
  ∃ before lead dropped trail after,
    gap = before ++ dropped ++ after ∧
    gap' = before ++ (lead ++ Bytes.ofString statement ++ trail) ++ after ∧
    dropped.all Bytes.isSeparator = true ∧ (lead ++ trail).all Bytes.isBlank = true ∧
    (∃ above indent, before ++ lead = above ++ line indent [] ∧ indent.all Bytes.isIndent = true) ∧
    trail.head? = some Bytes.lineFeed

/-- A gap that is left as it is, or that holds separators on one line, which give way to a line end
and an indentation. -/
def Relaid (gap gap' : Bytes) : Prop :=
  gap' = gap ∨ gap.all Bytes.isSeparator = true ∧ Bytes.lineFeed ∉ gap ∧
    ∃ indent, gap' = line indent [] ∧ indent.all Bytes.isIndent = true

/-- The gap in front of the statements of a body. -/
def frontGap (src : Bytes) (body : Tree) : Bytes := src.slice (body.start + 1) (front body)

/-- The gaps of a body, from one brace to the other. -/
def allGaps (src : Bytes) (body : Tree) : List Bytes :=
  frontGap src body :: gaps src (body.stop - 1) body.statements

/-- `out` is the text with `statement` in the front gap of the body, and with the other gaps of the
body relaid. -/
def IsLaidOut (src : Bytes) (body : Tree) (statement : String) (out : Bytes) : Prop :=
  ∃ front' gaps', Receives statement (frontGap src body) front' ∧
    List.Forall₂ Relaid (gaps src (body.stop - 1) body.statements) gaps' ∧
    out = withInside src body (front' ++ interleave (texts src body.statements) gaps')

/-- A gap that holds separators on one line. -/
def IsPlain (gap : Bytes) : Prop := Bytes.lineFeed ∉ gap ∧ gap.all Bytes.isSeparator = true

instance (gap : Bytes) : Decidable (IsPlain gap) := inferInstanceAs (Decidable (_ ∧ _))

section Row

variable {src : Bytes} {lo hi : Nat} {ts : List Tree}

theorem upTo_bounds (h : Row lo ts hi) : lo ≤ upTo hi ts ∧ upTo hi ts ≤ hi := by
  cases ts with
  | nil => exact ⟨h, le_rfl⟩
  | cons t ts =>
    obtain ⟨hstart, hspan, hstop⟩ := h.bounds_of_mem List.mem_cons_self
    exact ⟨hstart, hspan.trans hstop⟩

/-- A text goes on with its statements and the gaps behind them. -/
theorem drop_upTo (h : Row lo ts hi) (hlen : hi ≤ src.length) :
    src.drop (upTo hi ts) = interleave (texts src ts) (gaps src hi ts) ++ src.drop hi := by
  induction ts generalizing lo with
  | nil => rfl
  | cons t ts ih =>
    obtain ⟨_, hspan, hrest⟩ := h
    obtain ⟨hgap, hend⟩ := upTo_bounds hrest
    rw [texts, List.map_cons, gaps, interleave_cons, List.append_assoc, ← texts, ← ih hrest]
    calc src.drop t.start
        = src.slice t.start t.stop ++ src.drop t.stop :=
          Bytes.drop_eq_slice_append hspan (hrest.le.trans hlen)
      _ = src.slice t.start t.stop ++ (src.slice t.stop (upTo hi ts) ++ src.drop (upTo hi ts)) := by
          rw [← Bytes.drop_eq_slice_append hgap (hend.trans hlen)]
      _ = _ := (List.append_assoc ..).symm

end Row

/-! ## Lines and indentation -/

theorem isBlank_of_isIndent {b : UInt8} (h : Bytes.isIndent b = true) : Bytes.isBlank b = true := by
  simp only [Bytes.isIndent, Bool.or_eq_true, decide_eq_true_eq] at h
  rcases h with rfl | rfl <;> rfl

theorem all_isBlank_line {indent : Bytes} (h : indent.all Bytes.isIndent = true) :
    (line indent []).all Bytes.isBlank = true := by
  simp only [line, List.append_nil, List.all_cons, Bool.and_eq_true, List.all_eq_true] at h ⊢
  exact ⟨rfl, fun b hb => isBlank_of_isIndent (h b hb)⟩

theorem all_isIndent_indentBytes (src : Bytes) (pos : Nat) :
    (src.indentBytes pos).all Bytes.isIndent = true :=
  List.all_takeWhile

/-- The indentation of a function's line is plain ASCII, so it is written as it is read. -/
theorem ofString_indentOf (src : Bytes) (func : Tree) :
    Bytes.ofString (indentOf src func) = src.indentBytes func.start := by
  refine Utf8.ofString_decode fun b hb => ?_
  have hindent := List.all_eq_true.mp (all_isIndent_indentBytes src func.start) b hb
  simp only [Bytes.isIndent, Bool.or_eq_true, decide_eq_true_eq] at hindent
  rcases hindent with rfl | rfl <;> decide

/-- Written out, a line end and an indentation are a line that holds nothing else. -/
theorem ofString_line (indent : String) :
    Bytes.ofString ("\n" ++ indent) = line (Bytes.ofString indent) [] := by
  rw [Bytes.ofString_append, line, List.append_nil]
  rfl

theorem isPlain_slice_iff {src : Bytes} {a b : Nat} (hab : a ≤ b) :
    IsPlain (src.slice a b) ↔ (src.sameLine a b && src.onlySeparators a b) = true := by
  rw [IsPlain, Bytes.sameLine, Nat.min_eq_left hab, Nat.max_eq_right hab, Bytes.onlySeparators]
  simp

/-! ## What seeding leaves of the gaps -/

/-- What stands between two places once it has been respaced. -/
def respaced (src : Bytes) (a b : Nat) (text : String) : Bytes :=
  if src.sameLine a b && src.onlySeparators a b then Bytes.ofString text else src.slice a b

/-- What stands behind each of the statements once the gaps have been respaced. -/
def newGaps (src : Bytes) (closing : Nat) (inner indent : String) : List Tree → List Bytes
  | [] => []
  | t :: ts =>
    respaced src t.stop (upTo closing ts) ("\n" ++ if ts.isEmpty then indent else inner) ::
      newGaps src closing inner indent ts

section Trailing

variable {src : Bytes} {lo hi : Nat} (inner indent : String)

theorem trailing_cons (t : Tree) (ts : List Tree) :
    trailing src hi inner indent (t :: ts) =
      respace src t.stop (upTo hi ts) ("\n" ++ if ts.isEmpty then indent else inner) ++
        trailing src hi inner indent ts := by
  cases ts with
  | nil => exact (List.append_nil _).symm
  | cons u ts => exact trailing_cons_cons ..

/-- Applying the edits behind the first statement leaves every statement with its new gap. -/
theorem weave_trailing {ts : List Tree} (h : Row lo ts hi) (hlen : hi ≤ src.length) {start : Nat}
    (hstart : start ≤ upTo hi ts) :
    weave src start (trailing src hi inner indent ts) =
      .ok (src.slice start (upTo hi ts) ++
        (interleave (texts src ts) (newGaps src hi inner indent ts) ++ src.drop hi)) := by
  induction ts generalizing lo start with
  | nil =>
    have hcut : src.drop start = src.slice start hi ++ src.drop hi :=
      Bytes.drop_eq_slice_append hstart hlen
    change Except.ok (src.suffix start) = _
    rw [Bytes.suffix_natCast (hstart.trans hlen), hcut]
    rfl
  | cons t ts ih =>
    obtain ⟨_, hspan, hrest⟩ := h
    obtain ⟨hgap, hend⟩ := upTo_bounds hrest
    have hlen' := hend.trans hlen
    have hstart' : start ≤ t.start := hstart
    rw [trailing_cons, texts, List.map_cons, ← texts, newGaps, interleave_cons, respace, respaced]
    split
    · -- the separators behind `t` go, and weaving starts anew where they have ended
      have hcut : src.between start t.stop = src.slice start t.start ++ src.slice t.start t.stop := by
        rw [Bytes.between_natCast (by omega) (by omega),
          Bytes.slice_append hstart' hspan (by omega)]
      rw [List.singleton_append, weave_cons_ok (by dsimp only; omega) (ih hrest le_rfl)]
      simp only [hcut, Bytes.slice_self, upTo_cons, List.nil_append, List.append_assoc]
    · have hrow := ih hrest (hstart'.trans (hspan.trans hgap))
      have hcut : src.slice start (upTo hi ts) =
          src.slice start t.start ++ (src.slice t.start t.stop ++ src.slice t.stop (upTo hi ts)) := by
        rw [← Bytes.slice_append hspan hgap hlen', ← Bytes.slice_append hstart' (by omega) hlen']
      rw [List.nil_append, hrow, hcut]
      simp only [upTo_cons, List.append_assoc]

/-- A gap keeps what it holds, or it holds separators on one line. -/
theorem newGaps_relaid {ts : List Tree} (h : Row lo ts hi)
    (hinner : (Bytes.ofString inner).all Bytes.isIndent = true)
    (hindent : (Bytes.ofString indent).all Bytes.isIndent = true) :
    List.Forall₂ Relaid (gaps src hi ts) (newGaps src hi inner indent ts) := by
  induction ts generalizing lo with
  | nil => exact .nil
  | cons t ts ih =>
    obtain ⟨_, _, hrest⟩ := h
    refine .cons ?_ (ih hrest)
    rw [respaced]
    split
    · next hplain =>
      obtain ⟨hfeed, hsep⟩ := (isPlain_slice_iff (upTo_bounds hrest).1).mpr hplain
      refine .inr ⟨hsep, hfeed, _, ofString_line _, ?_⟩
      split
      · exact hindent
      · exact hinner
    · exact .inl rfl

/-- Behind gaps that hold separators on one line only, each statement comes on a line of its own,
and so does the closing brace. -/
theorem newGaps_of_plain {ts : List Tree} (h : Row lo ts hi)
    (hplain : ∀ g ∈ gaps src hi ts, IsPlain g) :
    line (Bytes.ofString (if ts.isEmpty then indent else inner)) [] ++
        interleave (texts src ts) (newGaps src hi inner indent ts) =
      (texts src ts).flatMap (line (Bytes.ofString inner)) ++ line (Bytes.ofString indent) [] := by
  induction ts generalizing lo with
  | nil => exact List.append_nil _
  | cons t ts ih =>
    obtain ⟨_, _, hrest⟩ := h
    have hgap := hplain _ List.mem_cons_self
    rw [isPlain_slice_iff (upTo_bounds hrest).1] at hgap
    have hrow := ih hrest fun g hg => hplain g (List.mem_cons_of_mem _ hg)
    rw [newGaps, respaced, if_pos hgap, ofString_line, texts, List.map_cons, ← texts,
      interleave_cons, List.flatMap_cons, List.append_assoc (line _ _), ← hrow]
    simp [line]

end Trailing

/-! ## The statement in front -/

/-- The indentation of the statements of a seeded body. -/
def innerIndent (src : Bytes) (func : Tree) : Bytes := src.indentBytes func.start ++ [0x09]

theorem ofString_inner (src : Bytes) (func : Tree) :
    Bytes.ofString (indentOf src func ++ "\t") = innerIndent src func := by
  rw [Bytes.ofString_append, ofString_indentOf]
  rfl

theorem all_isIndent_innerIndent (src : Bytes) (func : Tree) :
    (innerIndent src func).all Bytes.isIndent = true := by
  rw [innerIndent, List.all_append, all_isIndent_indentBytes]
  rfl

/-- Written out, a statement between two line ends with indentations is a line that holds it, and
the start of another. -/
theorem ofString_lines (inner statement last : String) :
    Bytes.ofString ("\n" ++ inner ++ statement ++ "\n" ++ last) =
      line (Bytes.ofString inner) (Bytes.ofString statement) ++ line (Bytes.ofString last) [] := by
  have hfeed : Bytes.ofString "\n" = [Bytes.lineFeed] := rfl
  simp only [Bytes.ofString_append, hfeed, line, List.append_nil, List.append_assoc,
    List.cons_append, List.nil_append]

/-- The indentation in front of the first of the statements, or of the closing brace. -/
def frontIndent (src : Bytes) (func body : Tree) : Bytes :=
  if body.statements.isEmpty then src.indentBytes func.start else innerIndent src func

theorem all_isIndent_frontIndent (src : Bytes) (func body : Tree) :
    (frontIndent src func body).all Bytes.isIndent = true := by
  rw [frontIndent]
  split
  · exact all_isIndent_indentBytes ..
  · exact all_isIndent_innerIndent ..

/-- What stands in front of the statements of a seeded body that goes on on the line of its
brace. -/
def newFront (src : Bytes) (func body : Tree) (statement : String) : Bytes :=
  line (innerIndent src func) (Bytes.ofString statement) ++
    if src.onlySeparators (body.start + 1) (front body) then line (frontIndent src func body) []
    else line (innerIndent src func) [] ++ src.slice (body.start + 1) (front body)

/-- On the line of the brace, the statement comes on a line of its own. -/
theorem receives_newFront (src : Bytes) (func body : Tree) (statement : String) :
    Receives statement (src.slice (body.start + 1) (front body))
      (newFront src func body statement) := by
  have hinner := all_isIndent_innerIndent src func
  have hfront := all_isIndent_frontIndent src func body
  rw [newFront]
  split
  · next hsep =>
    refine ⟨[], line (innerIndent src func) [], src.slice (body.start + 1) (front body),
      line (frontIndent src func body) [], [], ?_, ?_, hsep, ?_, ⟨[], _, rfl, hinner⟩, rfl⟩
    · rw [List.nil_append, List.append_nil]
    · simp [line]
    · rw [List.all_append, all_isBlank_line hinner, all_isBlank_line hfront]
      rfl
  · refine ⟨[], line (innerIndent src func) [], [], line (innerIndent src func) [],
      src.slice (body.start + 1) (front body), rfl, ?_, rfl, ?_, ⟨[], _, rfl, hinner⟩, rfl⟩
    · simp [line]
    · rw [List.all_append, all_isBlank_line hinner]
      rfl

section Body

variable {src : Bytes} {func body : Tree} {statement : String} (hlaid : body.Laid src)
  (hk : body.kind = .block ∨ body.kind = .literalValue)

include hlaid hk

theorem braces : src[body.start]? = some 0x7B ∧ src[body.stop - 1]? = some 0x7D ∧
    body.start + 1 ≤ body.stop - 1 := by
  obtain ⟨x, mid, y, _, _, _, hopen, hclose, hrow⟩ :=
    hlaid.of_bracketed (hlaid.shaped.braces hk) rfl rfl
  exact ⟨hopen, hclose, hrow.le⟩

/-- The braces of a body stay in the text. -/
theorem withInside_eq (inside : Bytes) : withInside src body inside =
    src.take (body.start + 1) ++ (inside ++ src.drop (body.stop - 1)) := by
  obtain ⟨hopen, hclose, hle⟩ := braces hlaid hk
  have hfront : src.take (body.start + 1) = src.take body.start ++ [0x7B] := by
    rw [List.take_add_one, hopen]
    rfl
  obtain ⟨hlt, hget⟩ := List.getElem?_eq_some_iff.mp hclose
  have hback : src.drop (body.stop - 1) = 0x7D :: src.drop body.stop := by
    rw [List.drop_eq_getElem_cons hlt, hget, Nat.sub_add_cancel (by omega)]
  rw [hfront, hback, withInside, List.append_assoc]
  rfl

/-- The inside of a body is a gap, then each statement with the gap behind it. -/
theorem eq_withInside : src = withInside src body (frontGap src body ++
    interleave (texts src body.statements) (gaps src (body.stop - 1) body.statements)) := by
  obtain ⟨hfront, hend⟩ := front_bounds hlaid hk
  have hlen := hlaid.stop_le
  have hrow := hlaid.statements_row hk
  rw [withInside_eq hlaid hk, List.append_assoc, ← drop_upTo hrow (by omega)]
  calc src = src.take (body.start + 1) ++ src.drop (body.start + 1) :=
        (List.take_append_drop ..).symm
    _ = _ := by rw [Bytes.drop_eq_slice_append hfront (by omega)]; rfl

theorem start_le_stop {e : Edit} (he : e ∈ edits src func body statement) : e.start ≤ e.stop := by
  rcases mem_edits hlaid hk he with hguarded | hgap
  · exact hguarded.fits.start_le_stop
  · exact hgap.quiet.fits.start_le_stop

omit hlaid hk in
/-- The first edit of a body that goes on on the line of its brace replaces the gap in front of its
statements, if that holds separators only, or goes in front of that gap. -/
theorem edits_eq_cons (hline : src.sameLine body.start (front body) = true) :
    edits src func body statement =
      (let before := "\n" ++ (indentOf src func ++ "\t") ++ statement ++ "\n"
        if src.onlySeparators (body.start + 1) (front body) then
          ⟨(body.start + 1 : Nat), front body, before ++
            if body.statements.isEmpty then indentOf src func else indentOf src func ++ "\t"⟩
        else .insertion (body.start + 1 : Nat) (before ++ (indentOf src func ++ "\t"))) ::
      trailing src (body.stop - 1) (indentOf src func ++ "\t") (indentOf src func)
        body.statements := by
  rw [front] at hline ⊢
  simp only [edits, hline, Bool.not_true, Bool.false_eq_true, if_false]
  rfl

/-- Seeding a body that goes on on the line of its brace gives every gap its new form. -/
theorem splice_of_sameLine (hline : src.sameLine body.start (front body) = true) :
    splice src (edits src func body statement) = .ok (withInside src body
      (newFront src func body statement ++ interleave (texts src body.statements)
        (newGaps src (body.stop - 1) (indentOf src func ++ "\t") (indentOf src func)
          body.statements))) := by
  obtain ⟨hfront, hend⟩ := front_bounds hlaid hk
  have hlen := hlaid.stop_le
  have hrow := hlaid.statements_row hk
  have hopen : src.between 0 (body.start + 1 : Nat) = src.take (body.start + 1) :=
    Bytes.between_zero (by omega)
  have hlen' : body.stop - 1 ≤ src.length := by omega
  refine splice_of_weave (fun e he => start_le_stop hlaid hk he) ?_
  rw [withInside_eq hlaid hk, newFront, frontIndent, edits_eq_cons hline]
  dsimp only
  split
  · rw [weave_cons_ok (by dsimp only; omega) (weave_trailing _ _ hrow hlen' le_rfl), ofString_lines,
      apply_ite Bytes.ofString]
    simp only [hopen, ofString_inner, ofString_indentOf, Bytes.slice_self, List.nil_append,
      List.append_assoc]
  · rw [insertion, weave_cons_ok (by dsimp only; omega) (weave_trailing _ _ hrow hlen' hfront),
      ofString_lines]
    simp only [hopen, ofString_inner, List.append_assoc]
    rfl

/-- Seeding a body that has a line end in front of its statements changes nothing but that the
statement comes behind it. -/
theorem splice_of_lines {eol : Nat} (hline : src.sameLine body.start (front body) = false)
    (heol : src.lineEnd? (body.start + 1) = some eol) (hlt : eol < front body) :
    splice src (edits src func body statement) = .ok (withInside src body
      (src.slice (body.start + 1) (eol + 1) ++
        Bytes.ofString (indentOf src func ++ "\t" ++ statement ++ "\n") ++
        src.slice (eol + 1) (front body) ++
        interleave (texts src body.statements) (gaps src (body.stop - 1) body.statements))) := by
  obtain ⟨hfront, hend⟩ := front_bounds hlaid hk
  have hlen := hlaid.stop_le
  have hrow := hlaid.statements_row hk
  have hle := (Bytes.getElem?_of_lineEnd? heol).1
  have hcut : src.between 0 (eol + 1 : Nat) =
      src.take (body.start + 1) ++ src.slice (body.start + 1) (eol + 1) := by
    rw [Bytes.between_append (b := (body.start + 1 : Nat)) le_rfl (by omega) (by omega) (by omega),
      Bytes.between_zero (by omega), Bytes.between_natCast (by omega) (by omega)]
  have hrest : weave src (eol + 1 : Nat) [] = .ok (src.slice (eol + 1) (front body) ++
      (interleave (texts src body.statements) (gaps src (body.stop - 1) body.statements) ++
        src.drop (body.stop - 1))) := by
    rw [← drop_upTo hrow (by omega)]
    change Except.ok (src.suffix (eol + 1 : Nat)) = Except.ok (_ ++ src.drop (front body))
    rw [Bytes.suffix_natCast (by omega), ← Bytes.drop_eq_slice_append (by omega) (by omega)]
  refine splice_of_weave (fun e he => start_le_stop hlaid hk he) ?_
  rw [edits_of_lineEnd hline heol, withInside_eq hlaid hk, insertion,
    weave_cons_ok (Int.natCast_nonneg _) hrest]
  simp only [List.append_assoc]
  rw [← List.append_assoc (src.take _), ← hcut]
  rfl

end Body

/-- Behind a line end, the statement comes on a line of its own. -/
theorem receives_of_lines (src : Bytes) (func : Tree) (statement : String) {a eol : Nat}
    (hle : a ≤ eol) (hfeed : src[eol]? = some Bytes.lineFeed) (after : Bytes) :
    Receives statement (src.slice a (eol + 1) ++ after)
      (src.slice a (eol + 1) ++
        Bytes.ofString (indentOf src func ++ "\t" ++ statement ++ "\n") ++ after) := by
  have hinner := all_isIndent_innerIndent src func
  refine ⟨src.slice a (eol + 1), innerIndent src func, [], [Bytes.lineFeed], after,
    ?_, ?_, rfl, ?_, ⟨src.slice a eol, _, ?_, hinner⟩, rfl⟩
  · rw [List.append_nil]
  · simp only [Bytes.ofString_append, ← ofString_inner, List.append_assoc]
    rfl
  · rw [List.all_append, Bool.and_eq_true]
    simp only [List.all_eq_true] at hinner ⊢
    exact ⟨fun b hb => isBlank_of_isIndent (hinner b hb), List.forall_mem_singleton.mpr rfl⟩
  · rw [Bytes.slice_succ hle hfeed, line, List.append_nil, List.append_assoc]
    rfl

/-- In front of the first of the statements, or of the closing brace, a gap that holds separators on
one line gives way to the statement and the start of another line. -/
theorem newFront_of_plain {src : Bytes} {body : Tree} (func : Tree) (statement : String)
    (hplain : IsPlain (frontGap src body)) : newFront src func body statement =
      line (innerIndent src func) (Bytes.ofString statement) ++
        line (frontIndent src func body) [] := by
  have hsep : src.onlySeparators (body.start + 1) (front body) = true := hplain.2
  rw [newFront, if_pos hsep]

section Body

variable {src : Bytes} {func body : Tree} {statement : String} (hlaid : body.Laid src)
  (hk : body.kind = .block ∨ body.kind = .literalValue)

include hlaid hk

/-- Where the front gap has no line end, the statements start on the line of the brace. -/
theorem sameLine_front (hfeed : Bytes.lineFeed ∉ frontGap src body) :
    src.sameLine body.start (front body) = true := by
  obtain ⟨hfront, _⟩ := front_bounds hlaid hk
  by_contra hline
  obtain ⟨eol, heol, hlt⟩ := exists_lineEnd hlaid hk (Bool.eq_false_iff.mpr hline)
  obtain ⟨hle, hget⟩ := Bytes.getElem?_of_lineEnd? heol
  exact hfeed (Bytes.mem_slice_of_getElem? hle hlt hget)

/-- Seeding a body puts the statement into the front gap and relays the other gaps. -/
theorem exists_splice : ∃ out, splice src (edits src func body statement) = .ok out ∧
    IsLaidOut src body statement out := by
  cases hline : src.sameLine body.start (front body) with
  | false =>
    obtain ⟨eol, heol, hlt⟩ := exists_lineEnd hlaid hk hline
    obtain ⟨hle, hfeed⟩ := Bytes.getElem?_of_lineEnd? heol
    have hcut : frontGap src body =
        src.slice (body.start + 1) (eol + 1) ++ src.slice (eol + 1) (front body) := by
      have := hlaid.stop_le
      obtain ⟨_, hend⟩ := front_bounds hlaid hk
      exact Bytes.slice_append (by omega) hlt (by omega)
    refine ⟨_, splice_of_lines hlaid hk hline heol hlt, _, _, ?_, ?_, rfl⟩
    · rw [hcut]
      exact receives_of_lines src func statement hle hfeed _
    · exact List.forall₂_same.mpr fun g _ => .inl rfl
  | true =>
    refine ⟨_, splice_of_sameLine hlaid hk hline, _, _, receives_newFront src func body statement,
      newGaps_relaid _ _ (hlaid.statements_row hk) ?_ ?_, rfl⟩
    · rw [ofString_inner]
      exact all_isIndent_innerIndent ..
    · rw [ofString_indentOf]
      exact all_isIndent_indentBytes ..

/-- Seeding a body on one line, with nothing but separators around its statements, puts the
statement, every statement of the body and the closing brace on lines of their own. -/
theorem splice_of_plain (hplain : ∀ g ∈ allGaps src body, IsPlain g) :
    splice src (edits src func body statement) = .ok (withInside src body
      (line (innerIndent src func) (Bytes.ofString statement) ++
        (texts src body.statements).flatMap (line (innerIndent src func)) ++
        line (src.indentBytes func.start) [])) := by
  have hfront := hplain _ List.mem_cons_self
  have hgaps := newGaps_of_plain (indentOf src func ++ "\t") (indentOf src func)
    (hlaid.statements_row hk) fun g hg => hplain g (List.mem_cons_of_mem _ hg)
  rw [apply_ite Bytes.ofString, ofString_inner, ofString_indentOf, ← frontIndent] at hgaps
  rw [splice_of_sameLine hlaid hk (sameLine_front hlaid hk hfront.1),
    newFront_of_plain func statement hfront, List.append_assoc, hgaps, List.append_assoc]

end Body

/-- A file with a function on one line. -/
def oneLine : Bytes := Bytes.ofString "package a\n\nfunc f() \x7b g(); h() \x7d\n"

end Seed

end CtxThread
